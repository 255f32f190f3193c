import CommandScript.Parser.Stmt

/-!
# Proofs/Parser/Logged — parsing with the states it passes through

A parser only shows the state it ends in. `Logged` parsers also list what happened on the way: the
states they passed through, where a level was asked for, where a group was closed, and where each
expression, action, block and statement began and ended (`Event`). `Logged.statement` is the grammar written over `Logged`;
forgetting the events gives `statement` back (`Logged.erase_statement`), so the events are those of
the parser itself.

A parser that opens no level and closes no group is a single step here and is used as it is.
-/

namespace CommandScript

namespace Parser

/-- The state a parser ends in, whether it failed or not. -/
def final {α : Type} : EStateM.Result Error State α → State
  | .ok _ t => t
  | .error _ t => t

/-- Whether a parser ended with a value. -/
def succeeded {α : Type} : EStateM.Result Error State α → Bool
  | .ok _ _ => true
  | .error _ _ => false

/-- What the grammar reads as a whole. -/
inductive Construct
  | expression
  | action
  | block
  | statement

/-- Something that happens while a text is parsed. -/
inductive Event
  /-- The parser stands between two steps. -/
  | point (s : State)
  /-- A level is asked for, with so many left to open. -/
  | ask (levels : Nat) (s : State)
  /-- A group is counted as closed. -/
  | close (s : State)
  /-- Something that began in one state ended in another, with a value or not. -/
  | whole (what : Construct) (before : State) (success : Bool) (after : State)

/-- Parsers that list what happens while they run. -/
def Logged (α : Type) := State → List Event × EStateM.Result Error State α

namespace Logged

section Basic

variable {α β : Type}

/-- What happens while the parser runs. -/
def events (x : Logged α) (s : State) : List Event := (x s).1

/-- The parser alone. -/
def erase (x : Logged α) : Parser α := fun s => (x s).2

instance : Monad Logged where
  pure a := fun s => ([], .ok a s)
  bind x f := fun s =>
    match x s with
    | (before, .ok a t) => (before ++ (f a t).1, (f a t).2)
    | (before, .error e t) => (before, .error e t)

/-- A single step. -/
def step (p : Parser α) : Logged α := fun s => ([.point s, .point (final (p s))], p s)

instance : MonadLift Parser Logged := ⟨step⟩

/-- Note where something begins and ends. -/
def whole (what : Construct) (x : Logged α) : Logged α := fun s =>
  (x.events s ++ [.whole what s (succeeded (x.erase s)) (final (x.erase s))], x.erase s)

/-- Ask for a level before anything else. -/
def asking (levels : Nat) (x : Logged α) : Logged α := fun s =>
  (.ask levels s :: x.events s, x.erase s)

/-- Run a parser one level deeper. -/
def nested (x : Logged α) : Logged α := fun s =>
  (.point { s with depth := s.depth + 1 } :: x.events { s with depth := s.depth + 1 },
    Parser.nested x.erase s)

/-- Run a parser and give back what it ends with, a failure included. -/
def attempt (x : Logged α) : Logged (Except Error α) := fun s =>
  (x.events s, Parser.attempt x.erase s)

/-- Count a group as closed. -/
def leaveGroup : Logged Unit := fun s => ([.close s], .ok () { s with nesting := s.nesting - 1 })

/-- Close a group at the given symbol. -/
def closeGroup (sign : Symbol) : Logged Unit := do
  if ← check sign then
    leaveGroup
    advance
  else unexpected (quoted sign.text)

@[simp] theorem erase_pure (a : α) : (pure a : Logged α).erase = pure a := rfl

@[simp] theorem erase_bind (x : Logged α) (f : α → Logged β) :
    (x >>= f).erase = x.erase >>= fun a => (f a).erase := by
  funext s
  change (match x s with
    | (before, .ok a t) => (before ++ (f a t).1, (f a t).2)
    | (before, .error e t) => (before, .error e t)).2 = EStateM.bind x.erase _ s
  unfold EStateM.bind erase
  rcases x s with ⟨_, _ | _⟩ <;> rfl

/-- What happens in a sequence happens in its first part, or in the second if it is reached. -/
theorem mem_events_bind {x : Logged α} {f : α → Logged β} {s : State} {ev : Event} :
    ev ∈ (x >>= f).events s ↔
      ev ∈ x.events s ∨ ∃ a t, x.erase s = .ok a t ∧ ev ∈ (f a).events t := by
  change ev ∈ (match x s with
    | (before, .ok a t) => (before ++ (f a t).1, (f a t).2)
    | (before, .error e t) => (before, .error e t)).1 ↔ _
  unfold events erase
  rcases x s with ⟨before, ⟨a, t⟩ | ⟨e, t⟩⟩
  · rw [List.mem_append]
    refine or_congr_right ⟨fun h => ⟨a, t, rfl, h⟩, ?_⟩
    rintro ⟨_, _, heq, h⟩
    cases heq
    exact h
  · simp

@[simp] theorem erase_step (p : Parser α) : (step p).erase = p := rfl

@[simp] theorem erase_monadLift (p : Parser α) : (monadLift p : Logged α).erase = p := rfl

@[simp] theorem erase_ite {c : Prop} [Decidable c] (x y : Logged α) :
    (if c then x else y).erase = if c then x.erase else y.erase := apply_ite erase c x y

@[simp] theorem erase_whole (what : Construct) (x : Logged α) :
    (x.whole what).erase = x.erase := rfl

@[simp] theorem erase_asking (levels : Nat) (x : Logged α) : (x.asking levels).erase = x.erase := rfl

@[simp] theorem erase_nested (x : Logged α) : x.nested.erase = Parser.nested x.erase := rfl

@[simp] theorem erase_attempt (x : Logged α) : x.attempt.erase = Parser.attempt x.erase := rfl

@[simp] theorem erase_leaveGroup :
    leaveGroup.erase = modify fun s => { s with nesting := s.nesting - 1 } := rfl

@[simp] theorem erase_closeGroup (sign : Symbol) :
    (closeGroup sign).erase = Parser.closeGroup sign := by
  simp only [closeGroup, Parser.closeGroup, erase_bind, erase_monadLift, erase_ite,
    erase_leaveGroup]

end Basic

/-! ## Expressions -/

/-- A chain of operands, grouped to the left, behind `left`. -/
def chainFrom (op? : Token → Option BinaryOp) (operand : Logged Expr) :
    (size : Nat) → (left : Expr) → Logged Expr
  | 0, left => pure left
  | size + 1, left => do
    match op? (← current) with
    | none => return left
    | some op =>
      advance
      let right ← operand
      chainFrom op? operand size (.binary op left right)

/-- A chain of operands, grouped to the left. -/
def chain (size : Nat) (op? : Token → Option BinaryOp) (operand : Logged Expr) : Logged Expr := do
  chainFrom op? operand size (← operand)

/-- `a`, `a..b` or `a..b..c`. -/
def rangeOf (bound : Logged Expr) : Logged Expr := do
  let start ← bound
  if ← check .dotDot then
    advance
    let stop ← bound
    if ← check .dotDot then
      advance
      let step ← bound
      return .range start stop (some step)
    else return .range start stop none
  else return start

/-- An expression over the given operands. -/
def expressionOf (size : Nat) (operand : Logged Expr) : Logged Expr :=
  let sum := chain size sumOp? (chain size productOp? operand)
  chain size orOp? (chain size andOp? (chain size compareOp? (rangeOf sum)))

/-- Items up to a closing bracket, separated by commas. -/
def itemsFrom (item : Logged Expr) (closer : Symbol) : (size : Nat) → Logged (List Expr)
  | 0 => pure []
  | size + 1 => do
    if ← check closer then return []
    else
      let e ← item
      if ← check .comma then
        advance
        let es ← itemsFrom item closer size
        return e :: es
      else return [e]

/-- A bracketed list of items; the current token opens it. -/
def items (size : Nat) (item : Logged Expr) (closer : Symbol) : Logged (List Expr) := do
  openGroup
  let es ← itemsFrom item closer size
  closeGroup closer
  return es

/-- What stands alone: literals, names, a group, a list. -/
def primary (size : Nat) (inner : Logged Expr) : Logged Expr := do
  match ← current with
  | .number x => Parser.primary.finish (.number x)
  | .string s => Parser.primary.finish (.string s)
  | .template parts => Parser.primary.finish (.template parts)
  | .keyword .trueWord => Parser.primary.finish (.boolean true)
  | .keyword .falseWord => Parser.primary.finish (.boolean false)
  | .keyword .noneWord => Parser.primary.finish .none
  | .identifier name => Parser.primary.finish (.var name)
  | .symbol .leftParen =>
    openGroup
    let e ← inner
    closeGroup .rightParen
    return e
  | .symbol .leftBracket => return .list (← items size inner .rightBracket)
  | _ => unexpected "expression"

/-- Members, indices and calls behind an expression. -/
def suffixesFrom (bound : Nat) (inner : Logged Expr) : (size : Nat) → Expr → Logged Expr
  | 0, e => pure e
  | size + 1, e => do
    match ← current with
    | .symbol .dot =>
      advance
      let name ← expectName "member name"
      let args ← if ← check .leftParen then items bound inner .rightParen else pure []
      suffixesFrom bound inner size (.member e name args)
    | .symbol .leftBracket =>
      openGroup
      let place ← inner
      closeGroup .rightBracket
      suffixesFrom bound inner size (.index e place)
    | .symbol .leftParen =>
      let args ← items bound inner .rightParen
      suffixesFrom bound inner size (.call e args)
    | _ => return e

/-- An operand: signs, or a power of what members, indices and calls are taken from. -/
def operandOf (size : Nat) (inner deeper : Logged Expr) : Logged Expr := do
  match signOp? (← current) with
  | some op =>
    advance
    let e ← deeper
    return .unary op e
  | none =>
    let base ← suffixesFrom size inner size (← primary size inner)
    if ← check .caret then
      advance
      let exponent ← deeper
      return .binary .power base exponent
    else return base

/-- An operand, where the given number of levels may still be opened. -/
def operand (size : Nat) : (levels : Nat) → Logged Expr
  | 0 => asking 0 (step tooDeep)
  | levels + 1 =>
    asking (levels + 1)
      (nested (operandOf size (whole .expression (expressionOf size (operand size levels)))
        (operand size levels)))

/-- An expression, where the given number of levels may still be opened. -/
def expression (size levels : Nat) : Logged Expr :=
  whole .expression (expressionOf size (operand size levels))

section Expressions

variable (x inner deeper : Logged Expr)

theorem erase_chainFrom (op? : Token → Option BinaryOp) : ∀ (size : Nat) (left : Expr),
    (chainFrom op? x size left).erase = Parser.chainFrom op? x.erase size left
  | 0, _ => rfl
  | size + 1, left => by
    rw [chainFrom, Parser.chainFrom, erase_bind]
    refine bind_congr fun t => ?_
    cases op? t with
    | none => rfl
    | some op => simp only [erase_bind, erase_monadLift, erase_chainFrom op? size]

@[simp] theorem erase_chain (size : Nat) (op? : Token → Option BinaryOp) :
    (chain size op? x).erase = Parser.chain size op? x.erase := by
  simp only [chain, Parser.chain, erase_bind, erase_chainFrom]

@[simp] theorem erase_rangeOf : (rangeOf x).erase = Parser.rangeOf x.erase := by
  simp only [rangeOf, Parser.rangeOf, erase_bind, erase_monadLift, erase_ite, erase_pure]

@[simp] theorem erase_expressionOf (size : Nat) :
    (expressionOf size x).erase = Parser.expressionOf size x.erase := by
  simp only [expressionOf, Parser.expressionOf, erase_chain, erase_rangeOf]

theorem erase_itemsFrom (closer : Symbol) : ∀ size : Nat,
    (itemsFrom x closer size).erase = Parser.itemsFrom x.erase closer size
  | 0 => rfl
  | size + 1 => by
    simp only [itemsFrom, Parser.itemsFrom, erase_bind, erase_monadLift, erase_ite, erase_pure,
      erase_itemsFrom closer size]

@[simp] theorem erase_items (size : Nat) (closer : Symbol) :
    (items size x closer).erase = Parser.items size x.erase closer := by
  simp only [items, Parser.items, erase_bind, erase_monadLift, erase_pure, erase_itemsFrom,
    erase_closeGroup]

@[simp] theorem erase_primary (size : Nat) :
    (primary size inner).erase = Parser.primary size inner.erase := by
  rw [primary, Parser.primary, erase_bind]
  refine bind_congr fun t => ?_
  split <;> simp

theorem erase_suffixesFrom (bound : Nat) : ∀ (size : Nat) (e : Expr),
    (suffixesFrom bound inner size e).erase = Parser.suffixesFrom bound inner.erase size e
  | 0, _ => rfl
  | size + 1, e => by
    rw [suffixesFrom, Parser.suffixesFrom, erase_bind]
    refine bind_congr fun t => ?_
    split <;> simp [erase_suffixesFrom bound size]

@[simp] theorem erase_operandOf (size : Nat) :
    (operandOf size inner deeper).erase = Parser.operandOf size inner.erase deeper.erase := by
  rw [operandOf, Parser.operandOf, erase_bind]
  refine bind_congr fun t => ?_
  cases signOp? t with
  | none => simp [erase_suffixesFrom]
  | some op => simp

end Expressions

@[simp] theorem erase_operand (size : Nat) : ∀ levels : Nat,
    (operand size levels).erase = Parser.operand size levels
  | 0 => rfl
  | levels + 1 => by
    rw [operand, Parser.operand, erase_asking, erase_nested, erase_operandOf, erase_whole, erase_expressionOf,
      erase_operand size levels]

/-- **Forgetting the events gives the parser of expressions.** -/
@[simp] theorem erase_expression (size levels : Nat) :
    (expression size levels).erase = Parser.expression size levels := by
  rw [expression, Parser.expression, erase_whole, erase_expressionOf, erase_operand]

end Logged

/-! ## Actions

Once its expression has been tried, an action opens no level and closes no group any more. -/

/-- What becomes of a line whose expression was tried, with `begin` the state at its first token. -/
def settle (begin : State) (known : Option String) (result : Except Error Expr) :
    Parser Action := do
  let complete ← match result with
    | .ok e => isComplete e
    | .error _ => pure false
  match known, result, complete with
  | some name, _, _ => commandAt begin (← readingOf name result complete)
  | none, .ok e, true => return .expression e
  | none, _, _ =>
    if mayStartCommand begin.current.token then commandAt begin none
    else match result with
      | .error e => throw e
      | .ok _ => unexpected "end of statement"

/-- An action is a known command or none, an expression that is tried, and what becomes of both. -/
theorem action_eq (commands : CommandSet) (expr : Parser Expr) :
    action commands expr = (do
      let begin ← get
      let known ← knownCommand? commands
      let result ← attempt expr
      settle begin known result) := rfl

namespace Logged

/-- The value of a statement: an expression or a command line. -/
def action (commands : CommandSet) (expr : Logged Expr) : Logged Action := whole .action do
  let begin ← (get : Parser State)
  let known ← knownCommand? commands
  let result ← attempt expr
  settle begin known result

@[simp] theorem erase_action (commands : CommandSet) (expr : Logged Expr) :
    (action commands expr).erase = Parser.action commands expr.erase := by
  simp only [action, action_eq, erase_whole, erase_bind, erase_monadLift, erase_attempt]

end Logged

/-! ## Statements -/

/-- The parameters in a list of them; the opening bracket was read. -/
def listed (size : Nat) : Parser (List String) := do
  modify State.dropGroupedNewlines
  parametersFrom size []

theorem parameters_eq (size : Nat) :
    parameters size = (do
      expect .leftParen
      modify fun s => { s with nesting := s.nesting + 1 }
      let names ← listed size
      closeGroup .rightParen
      return names) := by
  unfold parameters listed
  refine bind_congr fun _ => bind_congr fun _ => ?_
  rw [bind_assoc]

namespace Logged

/-- What follows the block of a conditional. -/
def otherwiseFrom (expr : Logged Expr) (block : Logged (List Stmt)) :
    (size : Nat) → Logged Otherwise
  | 0 => pure .nothing
  | size + 1 => do
    if ← skipToElse then
      expectKeyword .elseWord
      if (← current).isKeyword .ifWord then
        advance
        let test ← expr
        let body ← block
        let rest ← otherwiseFrom expr block size
        return .orIf test body rest
      else return .orElse (← block)
    else return .nothing

/-- A conditional. -/
def conditional (size : Nat) (expr : Logged Expr) (block : Logged (List Stmt)) : Logged Stmt := do
  expectKeyword .ifWord
  let test ← expr
  let body ← block
  let rest ← otherwiseFrom expr block size
  return .choose test body rest

/-- A loop. -/
def loop (expr : Logged Expr) (block : Logged (List Stmt)) : Logged Stmt := do
  expectKeyword .forWord
  let name ← expectName "loop variable"
  expectKeyword .inWord
  let items ← expr
  let body ← block
  return .forEach name items body

/-- A list of parameters in brackets. -/
def parameters (size : Nat) : Logged (List String) := do
  expect .leftParen
  step (modify fun s => { s with nesting := s.nesting + 1 })
  let names ← listed size
  closeGroup .rightParen
  return names

/-- A function definition. -/
def functionDef (size : Nat) (block : Logged (List Stmt)) : Logged Stmt := do
  expectKeyword .funcWord
  let name ← expectName "function name"
  let params ← parameters size
  let body ← block
  return .function name params body

/-- A `return`, with or without a value. -/
def giveBack (action : Logged Action) : Logged Stmt := do
  expectKeyword .returnWord
  if ← atStatementEnd then return .giveBack none
  else return .giveBack (some (← action))

/-- A statement that an action starts. -/
def actionStatement (action : Logged Action) : Logged Stmt := do
  match ← action with
  | .expression (.index target place) =>
    if ← check .equals then
      advance
      return .assignAt target place (← action)
    else return .perform (.expression (.index target place))
  | a => return .perform a

/-- An assignment to a variable; the current token is its name. -/
def assignment (action : Logged Action) (name : String) : Logged Stmt := do
  advance
  advance
  return .assign name (← action)

/-- A statement that takes one line. -/
def lineStatement (action : Logged Action) : Logged Stmt := do
  match ← current with
  | .keyword .returnWord => giveBack action
  | .identifier name =>
    match ← peek? with
    | some (.symbol .equals) => assignment action name
    | _ => actionStatement action
  | _ => actionStatement action

/-- A statement that takes one line, and its end. -/
def simpleStatement (action : Logged Action) : Logged Stmt := do
  let s ← lineStatement action
  expectStatementEnd
  return s

/-- Statements up to the brace that closes their block. -/
def blockFrom (bound : Nat) (statement : Logged Stmt) : (size : Nat) → Logged (List Stmt)
  | 0 => pure []
  | size + 1 => do
    skipSeparators bound
    if ← check .rightBrace then return []
    else if (← current).isEnd then unexpected (quoted Symbol.rightBrace.text)
    else
      let s ← statement
      let ss ← blockFrom bound statement size
      return s :: ss

/-- A block in braces. -/
def blockOf (size : Nat) (statement : Logged Stmt) : Logged (List Stmt) := do
  expect .leftBrace
  step (modify fun s => { s with blockDepth := s.blockDepth + 1 })
  let body ← blockFrom size statement size
  step (modify fun s => { s with blockDepth := s.blockDepth - 1 })
  expect .rightBrace
  return body

/-- A statement over the given expressions, actions and blocks. -/
def statementOf (size : Nat) (expr : Logged Expr) (action : Logged Action)
    (block : Logged (List Stmt)) : Logged Stmt := do
  match ← current with
  | .keyword .ifWord => conditional size expr block
  | .keyword .forWord => loop expr block
  | .keyword .funcWord => functionDef size block
  | .symbol .leftBrace => return .block (← block)
  | _ => simpleStatement action

/-- A statement, where the given number of levels may still be opened. -/
def statement (commands : CommandSet) (size : Nat) : (levels : Nat) → Logged Stmt
  | 0 =>
    let expr := expression size 0
    whole .statement (statementOf size expr (action commands expr)
      (whole .block (asking 0 (step tooDeep))))
  | levels + 1 =>
    let expr := expression size (levels + 1)
    whole .statement (statementOf size expr (action commands expr)
      (whole .block (asking (levels + 1) (nested (blockOf size (statement commands size levels))))))

/-- Statements to the end of the text. -/
def programFrom (bound : Nat) (statement : Logged Stmt) : (size : Nat) → Logged Program
  | 0 => pure []
  | size + 1 => do
    skipSeparators bound
    let t ← current
    if t.isEnd then return []
    else if t.isSymbol .rightBrace then unexpected "statement"
    else
      let s ← statement
      let ss ← programFrom bound statement size
      return s :: ss

section Statements

variable (expr : Logged Expr) (action : Logged Action) (block : Logged (List Stmt))
  (statement : Logged Stmt)

theorem erase_otherwiseFrom : ∀ size : Nat,
    (otherwiseFrom expr block size).erase = Parser.otherwiseFrom expr.erase block.erase size
  | 0 => rfl
  | size + 1 => by
    simp only [otherwiseFrom, Parser.otherwiseFrom, erase_bind, erase_monadLift, erase_ite,
      erase_pure, erase_otherwiseFrom size]

@[simp] theorem erase_conditional (size : Nat) :
    (conditional size expr block).erase = Parser.conditional size expr.erase block.erase := by
  simp only [conditional, Parser.conditional, erase_bind, erase_monadLift, erase_pure,
    erase_otherwiseFrom]

@[simp] theorem erase_loop : (loop expr block).erase = Parser.loop expr.erase block.erase := by
  simp only [loop, Parser.loop, erase_bind, erase_monadLift, erase_pure]

@[simp] theorem erase_parameters (size : Nat) :
    (parameters size).erase = Parser.parameters size := by
  simp only [parameters, parameters_eq, erase_bind, erase_monadLift, erase_step, erase_pure,
    erase_closeGroup]

@[simp] theorem erase_functionDef (size : Nat) :
    (functionDef size block).erase = Parser.functionDef size block.erase := by
  simp only [functionDef, Parser.functionDef, erase_bind, erase_monadLift, erase_pure,
    erase_parameters]

@[simp] theorem erase_giveBack : (giveBack action).erase = Parser.giveBack action.erase := by
  simp only [giveBack, Parser.giveBack, erase_bind, erase_monadLift, erase_ite, erase_pure]

@[simp] theorem erase_actionStatement :
    (actionStatement action).erase = Parser.actionStatement action.erase := by
  rw [actionStatement, Parser.actionStatement, erase_bind]
  refine bind_congr fun a => ?_
  split <;> simp

@[simp] theorem erase_assignment (name : String) :
    (assignment action name).erase = Parser.assignment action.erase name := by
  simp only [assignment, Parser.assignment, erase_bind, erase_monadLift, erase_pure]

@[simp] theorem erase_lineStatement :
    (lineStatement action).erase = Parser.lineStatement action.erase := by
  rw [lineStatement, Parser.lineStatement, erase_bind]
  refine bind_congr fun t => ?_
  split
  · simp
  · rw [erase_bind]
    refine bind_congr fun next => ?_
    split <;> simp
  · simp

@[simp] theorem erase_simpleStatement :
    (simpleStatement action).erase = Parser.simpleStatement action.erase := by
  simp only [simpleStatement, Parser.simpleStatement, erase_bind, erase_monadLift, erase_pure,
    erase_lineStatement]

theorem erase_blockFrom (bound : Nat) : ∀ size : Nat,
    (blockFrom bound statement size).erase = Parser.blockFrom bound statement.erase size
  | 0 => rfl
  | size + 1 => by
    simp only [blockFrom, Parser.blockFrom, erase_bind, erase_monadLift, erase_ite, erase_pure,
      erase_blockFrom bound size]

@[simp] theorem erase_blockOf (size : Nat) :
    (blockOf size statement).erase = Parser.blockOf size statement.erase := by
  simp only [blockOf, Parser.blockOf, erase_bind, erase_monadLift, erase_step, erase_pure,
    erase_blockFrom]

@[simp] theorem erase_statementOf (size : Nat) :
    (statementOf size expr action block).erase
      = Parser.statementOf size expr.erase action.erase block.erase := by
  rw [statementOf, Parser.statementOf, erase_bind]
  refine bind_congr fun t => ?_
  split <;> simp

theorem erase_programFrom (bound : Nat) : ∀ size : Nat,
    (programFrom bound statement size).erase = Parser.programFrom bound statement.erase size
  | 0 => rfl
  | size + 1 => by
    simp only [programFrom, Parser.programFrom, erase_bind, erase_monadLift, erase_ite, erase_pure,
      erase_programFrom bound size]

end Statements

/-- **Forgetting the events gives the parser of statements.** -/
@[simp] theorem erase_statement (commands : CommandSet) (size : Nat) : ∀ levels : Nat,
    (statement commands size levels).erase = Parser.statement commands size levels
  | 0 => by simp [statement, Parser.statement]
  | levels + 1 => by simp [statement, Parser.statement, erase_statement commands size levels]

end Logged

end Parser

end CommandScript
