import CommandScript.Parser.Stmt

/-!
# Proofs/Parser/Unbounded — the parser without bounds

The loops of the parser carry a number of rounds they may take, so that they are functions whatever
the text; a loop that runs out of rounds ends as if there was nothing more to read. Here are the
same parsers with loops that know no bound: each goes on as long as it finds something, and need not
end (`Unbounded.iterate`). A parser of `Unbounded` gives `none` where it does not end, apart from
the errors it may end with. Parsers without loops are the same on both sides and are used as they
are.

A loop is given by what it does in one round. Its equation (`Unbounded.chainFrom_eq` and so on) says
that it is this round with the loop behind it, which is how the parser with bounds is written.
-/

namespace CommandScript

namespace Parser

/-- Parsers that need not end. -/
abbrev Unbounded := ExceptT Error (StateT State Option)

namespace Unbounded

/-- How a parser has ended. -/
def outcome {α : Type} : EStateM.Result Error State α → Option (Except Error α × State)
  | .ok a t => some (.ok a, t)
  | .error e t => some (.error e, t)

/-- A parser without loops ends. -/
def ofParser {α : Type} (p : Parser α) : Unbounded α := fun s => outcome (p s)

instance : MonadLift Parser Unbounded := ⟨ofParser⟩

/-! ## Loops -/

/-- How a round of a loop ends: the loop is done, or it goes on from `a` and makes its value of the
one that it has there. -/
inductive Round (α β : Type) where
  | done (b : β)
  | again (a : α) (f : β → β)

section Loop

variable {α β : Type}

/-- End the loop as its round says, if `rest` is how it goes on. -/
def Round.close (rest : α → Unbounded β) : Round α β → Unbounded β
  | .done b => return b
  | .again a f => do
    let b ← rest a
    return f b

theorem Round.close_again_id (rest : α → Unbounded β) (a : α) :
    (again a id).close rest = rest a :=
  bind_pure _

/-- A loop that does not end if it is not done after `n` rounds. -/
def iterateWithin (round : α → Unbounded (Round α β)) : (n : Nat) → α → Unbounded β
  | 0, _ => fun _ => none
  | n + 1, a => do
    let result ← round a
    result.close (iterateWithin round n)

open Classical in
/-- A loop that goes on until it is done, and does not end if it never is. -/
noncomputable def iterate (round : α → Unbounded (Round α β)) (a : α) : Unbounded β := fun s =>
  if h : ∃ r n, iterateWithin round n a s = some r then some h.choose else none

variable {round : α → Unbounded (Round α β)} {a : α} {s : State} {r : Except Error β × State}

/-- How two parsers end, one behind the other. -/
theorem bind_eq_some_iff {p : Unbounded α} {f : α → Unbounded β} :
    (p >>= f) s = some r ↔ (∃ e t, p s = some (.error e, t) ∧ (.error e, t) = r)
      ∨ ∃ a t, p s = some (.ok a, t) ∧ f a t = some r := by
  change (p s).bind _ = some r ↔ _
  rw [Option.bind_eq_some_iff]
  constructor
  · rintro ⟨⟨e | a, t⟩, hp, hr⟩
    · exact .inl ⟨e, t, hp, Option.some.inj hr⟩
    · exact .inr ⟨a, t, hp, hr⟩
  · rintro (⟨e, t, hp, hr⟩ | ⟨a, t, hp, hr⟩)
    · exact ⟨(.error e, t), hp, congrArg some hr⟩
    · exact ⟨(.ok a, t), hp, hr⟩

/-- A round is closed the same way if the loop goes on the same way where it ends. -/
theorem close_mono {rest rest' : α → Unbounded β}
    (h : ∀ {a s r}, rest a s = some r → rest' a s = some r) {result : Round α β}
    (hr : result.close rest s = some r) : result.close rest' s = some r := by
  cases result with
  | done b => exact hr
  | again a f =>
    refine bind_eq_some_iff.2 ((bind_eq_some_iff.1 hr).imp ?_ ?_)
    · rintro ⟨e, t, hrest, hr⟩
      exact ⟨e, t, h hrest, hr⟩
    · rintro ⟨b, t, hrest, hr⟩
      exact ⟨b, t, h hrest, hr⟩

theorem iterateWithin_succ {n : Nat} (h : iterateWithin round n a s = some r) :
    iterateWithin round (n + 1) a s = some r := by
  induction n generalizing a s r with
  | zero => cases h
  | succ n ih =>
    refine bind_eq_some_iff.2 ((bind_eq_some_iff.1 h).imp_right ?_)
    rintro ⟨result, t, hround, hr⟩
    exact ⟨result, t, hround, close_mono ih hr⟩

theorem iterateWithin_mono {m n : Nat} (hle : m ≤ n) (h : iterateWithin round m a s = some r) :
    iterateWithin round n a s = some r := by
  induction hle with
  | refl => exact h
  | step _ ih => exact iterateWithin_succ ih

/-- A loop ends as it does within enough rounds. -/
theorem iterate_eq_some_iff :
    iterate round a s = some r ↔ ∃ n, iterateWithin round n a s = some r := by
  unfold iterate
  split
  · next h =>
    obtain ⟨m, hm⟩ := h.choose_spec
    constructor
    · intro hr
      exact ⟨m, hr ▸ hm⟩
    · rintro ⟨n, hn⟩
      have hm' := iterateWithin_mono (Nat.le_max_left m n) hm
      rw [← hm', iterateWithin_mono (Nat.le_max_right m n) hn]
  · next h =>
    constructor
    · intro hr
      cases hr
    · rintro ⟨n, hn⟩
      exact absurd ⟨r, n, hn⟩ h

theorem close_iterate {result : Round α β} (h : result.close (iterate round) s = some r) :
    ∃ n, result.close (iterateWithin round n) s = some r := by
  cases result with
  | done b => exact ⟨0, h⟩
  | again a f =>
    obtain ⟨e, t, hrest, hr⟩ | ⟨b, t, hrest, hr⟩ := bind_eq_some_iff.1 h
    · obtain ⟨n, hn⟩ := iterate_eq_some_iff.1 hrest
      exact ⟨n, bind_eq_some_iff.2 (.inl ⟨e, t, hn, hr⟩)⟩
    · obtain ⟨n, hn⟩ := iterate_eq_some_iff.1 hrest
      exact ⟨n, bind_eq_some_iff.2 (.inr ⟨b, t, hn, hr⟩)⟩

/-- **A loop is one round, and the loop again if that was not the last.** -/
theorem iterate_eq (round : α → Unbounded (Round α β)) (a : α) :
    iterate round a = round a >>= Round.close (iterate round) := by
  funext s
  refine Option.ext fun r => ?_
  rw [iterate_eq_some_iff]
  constructor
  · rintro ⟨n, hn⟩
    cases n with
    | zero => cases hn
    | succ n =>
      refine bind_eq_some_iff.2 ((bind_eq_some_iff.1 hn).imp_right ?_)
      rintro ⟨result, t, hround, hr⟩
      exact ⟨result, t, hround, close_mono (fun h => iterate_eq_some_iff.2 ⟨n, h⟩) hr⟩
  · intro h
    obtain ⟨e, t, hround, hr⟩ | ⟨result, t, hround, hr⟩ := bind_eq_some_iff.1 h
    · exact ⟨1, bind_eq_some_iff.2 (.inl ⟨e, t, hround, hr⟩)⟩
    · obtain ⟨n, hn⟩ := close_iterate hr
      exact ⟨n + 1, bind_eq_some_iff.2 (.inr ⟨result, t, hround, hn⟩)⟩

end Loop

/-- Run a parser one level deeper. -/
def nested {α : Type} (p : Unbounded α) : Unbounded α := fun s =>
  (p { s with depth := s.depth + 1 }).map fun (r, t) => (r, { t with depth := t.depth - 1 })

noncomputable section

/-- Move past all separators. -/
def skipSeparators : Unbounded Unit :=
  iterate (fun () => do
    if ← atSeparator then
      advance
      return .again () id
    else return .done ()) ()

theorem skipSeparators_eq : skipSeparators = (do
    if ← atSeparator then
      advance
      skipSeparators) := by
  refine ((iterate_eq _ _).trans (bind_assoc _ _ _)).trans ?_
  refine bind_congr fun found => ?_
  cases found with
  | false => rfl
  | true =>
    simp only [if_true, bind_assoc, pure_bind, Round.close_again_id]
    rfl

/-! ## Expressions -/

/-- A chain of operands, grouped to the left, behind `left`. -/
def chainFrom (op? : Token → Option BinaryOp) (operand : Unbounded Expr) :
    (left : Expr) → Unbounded Expr :=
  iterate fun left => do
    match op? (← current) with
    | none => return .done left
    | some op =>
      advance
      let right ← operand
      return .again (.binary op left right) id

theorem chainFrom_eq (op? : Token → Option BinaryOp) (operand : Unbounded Expr) (left : Expr) :
    chainFrom op? operand left = (do
      match op? (← current) with
      | none => return left
      | some op =>
        advance
        let right ← operand
        chainFrom op? operand (.binary op left right)) := by
  refine ((iterate_eq _ _).trans (bind_assoc _ _ _)).trans ?_
  refine bind_congr fun t => ?_
  cases op? t with
  | none => rfl
  | some op =>
    simp only [bind_assoc, pure_bind, Round.close_again_id]
    rfl

/-- A chain of operands, grouped to the left. -/
def chain (op? : Token → Option BinaryOp) (operand : Unbounded Expr) : Unbounded Expr := do
  chainFrom op? operand (← operand)

/-- `a`, `a..b` or `a..b..c`. -/
def rangeOf (bound : Unbounded Expr) : Unbounded Expr := do
  let start ← bound
  if ← check .dotDot then
    advance
    let stop ← bound
    if ← check .dotDot then
      advance
      let step ← bound
      return .range start stop (some step)
    else return .range start stop none
  else return start

/-- An expression over the given operands. -/
def expressionOf (operand : Unbounded Expr) : Unbounded Expr :=
  let sum := chain sumOp? (chain productOp? operand)
  chain orOp? (chain andOp? (chain compareOp? (rangeOf sum)))

/-- Items up to a closing bracket, separated by commas. -/
def itemsFrom (item : Unbounded Expr) (closer : Symbol) : Unbounded (List Expr) :=
  iterate (fun () => do
    if ← check closer then return .done []
    else
      let e ← item
      if ← check .comma then
        advance
        return .again () (e :: ·)
      else return .done [e]) ()

theorem itemsFrom_eq (item : Unbounded Expr) (closer : Symbol) :
    itemsFrom item closer = (do
      if ← check closer then return []
      else
        let e ← item
        if ← check .comma then
          advance
          let es ← itemsFrom item closer
          return e :: es
        else return [e]) := by
  refine ((iterate_eq _ _).trans (bind_assoc _ _ _)).trans ?_
  refine bind_congr fun closed => ?_
  cases closed with
  | true => rfl
  | false =>
    simp only [Bool.false_eq_true, if_false, bind_assoc]
    refine bind_congr fun e => bind_congr fun comma => ?_
    cases comma with
    | false => rfl
    | true =>
      simp only [if_true, bind_assoc, pure_bind, Round.close]
      rfl

/-- A bracketed list of items; the current token opens it. -/
def items (item : Unbounded Expr) (closer : Symbol) : Unbounded (List Expr) := do
  openGroup
  let es ← itemsFrom item closer
  closeGroup closer
  return es

/-- What stands alone: literals, names, a group, a list. -/
def primary (inner : Unbounded Expr) : Unbounded Expr := do
  match ← current with
  | .number x => primary.finish (.number x)
  | .string s => primary.finish (.string s)
  | .template parts => primary.finish (.template parts)
  | .keyword .trueWord => primary.finish (.boolean true)
  | .keyword .falseWord => primary.finish (.boolean false)
  | .keyword .noneWord => primary.finish .none
  | .identifier name => primary.finish (.var name)
  | .symbol .leftParen =>
    openGroup
    let e ← inner
    closeGroup .rightParen
    return e
  | .symbol .leftBracket => return .list (← items inner .rightBracket)
  | _ => unexpected "expression"

/-- Members, indices and calls behind an expression. -/
def suffixesFrom (inner : Unbounded Expr) : Expr → Unbounded Expr :=
  iterate fun e => do
    match ← current with
    | .symbol .dot =>
      advance
      let name ← expectName "member name"
      let args ← if ← check .leftParen then items inner .rightParen else pure []
      return .again (.member e name args) id
    | .symbol .leftBracket =>
      openGroup
      let place ← inner
      closeGroup .rightBracket
      return .again (.index e place) id
    | .symbol .leftParen =>
      let args ← items inner .rightParen
      return .again (.call e args) id
    | _ => return .done e

theorem suffixesFrom_eq (inner : Unbounded Expr) (e : Expr) :
    suffixesFrom inner e = (do
      match ← current with
      | .symbol .dot =>
        advance
        let name ← expectName "member name"
        let args ← if ← check .leftParen then items inner .rightParen else pure []
        suffixesFrom inner (.member e name args)
      | .symbol .leftBracket =>
        openGroup
        let place ← inner
        closeGroup .rightBracket
        suffixesFrom inner (.index e place)
      | .symbol .leftParen =>
        let args ← items inner .rightParen
        suffixesFrom inner (.call e args)
      | _ => return e) := by
  refine ((iterate_eq _ _).trans (bind_assoc _ _ _)).trans ?_
  refine bind_congr fun t => ?_
  split
  · simp only [bind_assoc, pure_bind]
    refine bind_congr fun _ => bind_congr fun name => bind_congr fun called => ?_
    cases called with
    | false =>
      simp only [Bool.false_eq_true, if_false, pure_bind, Round.close_again_id]
      rfl
    | true =>
      simp only [if_true, bind_assoc, pure_bind, Round.close_again_id]
      rfl
  · simp only [bind_assoc, pure_bind, Round.close_again_id]
    rfl
  · simp only [bind_assoc, pure_bind, Round.close_again_id]
    rfl
  · rfl

/-- An operand: signs, or a power of what members, indices and calls are taken from. -/
def operandOf (inner deeper : Unbounded Expr) : Unbounded Expr := do
  match signOp? (← current) with
  | some op =>
    advance
    let e ← deeper
    return .unary op e
  | none =>
    let base ← suffixesFrom inner (← primary inner)
    if ← check .caret then
      advance
      let exponent ← deeper
      return .binary .power base exponent
    else return base

/-- An operand, where the given number of levels may still be opened. -/
def operand : (levels : Nat) → Unbounded Expr
  | 0 => (tooDeep : Parser Expr)
  | levels + 1 => nested (operandOf (expressionOf (operand levels)) (operand levels))

/-- An expression, where the given number of levels may still be opened. -/
def expression (levels : Nat) : Unbounded Expr := expressionOf (operand levels)

/-! ## Command lines -/

/-- Read the words of a command line. -/
def wordsFrom (inBlock : Bool) : Cursor → Unbounded (List Located × Cursor) :=
  iterate fun c => do
    let c := c.pastBlanks
    match c.rest with
    | [] => return .done ([], c)
    | ch :: _ =>
      if ch = '#' then return .done ([], c.toToken false)
      else if Scan.endsWord inBlock ch then return .done ([], c)
      else
        match Scan.wordFrom inBlock none 0 0 c.rest with
        | .error position => throw (.lex .openQuote (c.skip position).here)
        | .ok (parts, width) =>
          let d := c.skip width
          return .again d fun r => (⟨.word parts, c.spanTo d⟩ :: r.1, r.2)

theorem wordsFrom_eq (inBlock : Bool) (c : Cursor) :
    wordsFrom inBlock c = (do
      let c := c.pastBlanks
      match c.rest with
      | [] => return ([], c)
      | ch :: _ =>
        if ch = '#' then return ([], c.toToken false)
        else if Scan.endsWord inBlock ch then return ([], c)
        else
          match Scan.wordFrom inBlock none 0 0 c.rest with
          | .error position => throw (.lex .openQuote (c.skip position).here)
          | .ok (parts, width) =>
            let d := c.skip width
            let (words, e) ← wordsFrom inBlock d
            return (⟨.word parts, c.spanTo d⟩ :: words, e)) := by
  refine (iterate_eq _ _).trans ?_
  dsimp only
  split
  · rfl
  split
  · rfl
  split
  · rfl
  split
  · rfl
  · rfl

/-- The parts of words. -/
def partsOf (words : List Located) : List (List Part) := words.filterMap fun w =>
  match w.token with
  | .word parts => some parts
  | _ => none

/-- The words of the command line at `origin`; the token behind the line becomes the current one. -/
def commandFrom (origin : Cursor) (span : Span) : Unbounded (List (List Part)) := do
  let s ← get
  let (words, c) ← wordsFrom (0 < s.blockDepth) origin
  if (partsOf words).isEmpty then throw (.parse .noCommand span)
  else match s.readFrom (0 < s.nesting) c with
    | .ok t =>
      set t
      return partsOf words
    | .error e => throw e

/-- Run a parser and give back what it ends with, a failure included. -/
def attempt {α : Type} (p : Unbounded α) : Unbounded (Except Error α) := fun s =>
  (p s).map fun (r, t) => (.ok r, t)

/-- Read a line as a command, from the state `begin` at its first token on. -/
def commandAt (begin : State) (reading : Option Reading) : Unbounded Action := do
  modify fun s => { s with nesting := begin.nesting }
  let words ← commandFrom begin.origin begin.current.span
  return .command ⟨words, reading⟩

/-- The value of a statement: an expression or a command line. -/
def action (commands : CommandSet) (expr : Unbounded Expr) : Unbounded Action := do
  let begin ← get
  let known ← knownCommand? commands
  let result ← attempt expr
  let complete ← match result with
    | .ok e => isComplete e
    | .error _ => pure false
  match known, result, complete with
  | some name, _, _ => commandAt begin (← readingOf name result complete)
  | none, .ok e, true => return .expression e
  | none, _, _ =>
    if mayStartCommand begin.current.token then commandAt begin none
    else match result with
      | .error e => throw e
      | .ok _ => unexpected "end of statement"

/-! ## Statements -/

/-- What follows the block of a conditional. -/
def otherwiseFrom (expr : Unbounded Expr) (block : Unbounded (List Stmt)) :
    Unbounded Otherwise :=
  iterate (fun () => do
    if ← skipToElse then
      expectKeyword .elseWord
      if (← current).isKeyword .ifWord then
        advance
        let test ← expr
        let body ← block
        return .again () (.orIf test body ·)
      else return .done (.orElse (← block))
    else return .done .nothing) ()

theorem otherwiseFrom_eq (expr : Unbounded Expr) (block : Unbounded (List Stmt)) :
    otherwiseFrom expr block = (do
      if ← skipToElse then
        expectKeyword .elseWord
        if (← current).isKeyword .ifWord then
          advance
          let test ← expr
          let body ← block
          let rest ← otherwiseFrom expr block
          return .orIf test body rest
        else return .orElse (← block)
      else return .nothing) := by
  refine ((iterate_eq _ _).trans (bind_assoc _ _ _)).trans ?_
  refine bind_congr fun found => ?_
  cases found with
  | false => rfl
  | true =>
    simp only [if_true, bind_assoc]
    refine bind_congr fun _ => bind_congr fun t => ?_
    cases t.isKeyword .ifWord with
    | false =>
      simp only [Bool.false_eq_true, if_false, bind_assoc, pure_bind, Round.close]
    | true =>
      simp only [if_true, bind_assoc, pure_bind, Round.close]
      rfl

/-- A conditional. -/
def conditional (expr : Unbounded Expr) (block : Unbounded (List Stmt)) : Unbounded Stmt := do
  expectKeyword .ifWord
  let test ← expr
  let body ← block
  let rest ← otherwiseFrom expr block
  return .choose test body rest

/-- A loop. -/
def loop (expr : Unbounded Expr) (block : Unbounded (List Stmt)) : Unbounded Stmt := do
  expectKeyword .forWord
  let name ← expectName "loop variable"
  expectKeyword .inWord
  let items ← expr
  let body ← block
  return .forEach name items body

/-- Parameter names up to a closing bracket, none of them twice. -/
def parametersFrom : (earlier : List String) → Unbounded (List String) :=
  iterate fun earlier => do
    if ← check .rightParen then return .done []
    else
      let name ← expectName "parameter name"
      if earlier.contains name then
        throw (.parse (.duplicateParameter name) (← currentSpan))
      else if ← check .comma then
        advance
        return .again (name :: earlier) (name :: ·)
      else return .done [name]

theorem parametersFrom_eq (earlier : List String) :
    parametersFrom earlier = (do
      if ← check .rightParen then return []
      else
        let name ← expectName "parameter name"
        if earlier.contains name then
          throw (.parse (.duplicateParameter name) (← currentSpan))
        else if ← check .comma then
          advance
          let names ← parametersFrom (name :: earlier)
          return name :: names
        else return [name]) := by
  refine ((iterate_eq _ _).trans (bind_assoc _ _ _)).trans ?_
  refine bind_congr fun closed => ?_
  cases closed with
  | true => rfl
  | false =>
    simp only [Bool.false_eq_true, if_false, bind_assoc]
    refine bind_congr fun name => ?_
    cases earlier.contains name with
    | true => rfl
    | false =>
      simp only [Bool.false_eq_true, if_false, bind_assoc]
      refine bind_congr fun comma => ?_
      cases comma with
      | false => rfl
      | true =>
        simp only [if_true, bind_assoc, pure_bind, Round.close]
        rfl

/-- A list of parameters in brackets. -/
def parameters : Unbounded (List String) := do
  expect .leftParen
  modify fun s => { s with nesting := s.nesting + 1 }
  modify State.dropGroupedNewlines
  let names ← parametersFrom []
  closeGroup .rightParen
  return names

/-- A function definition. -/
def functionDef (block : Unbounded (List Stmt)) : Unbounded Stmt := do
  expectKeyword .funcWord
  let name ← expectName "function name"
  let params ← parameters
  let body ← block
  return .function name params body

/-- A `return`, with or without a value. -/
def giveBack (action : Unbounded Action) : Unbounded Stmt := do
  expectKeyword .returnWord
  if ← atStatementEnd then return .giveBack none
  else return .giveBack (some (← action))

/-- A statement that an action starts. -/
def actionStatement (action : Unbounded Action) : Unbounded Stmt := do
  match ← action with
  | .expression (.index target place) =>
    if ← check .equals then
      advance
      return .assignAt target place (← action)
    else return .perform (.expression (.index target place))
  | a => return .perform a

/-- An assignment to a variable; the current token is its name. -/
def assignment (action : Unbounded Action) (name : String) : Unbounded Stmt := do
  advance
  advance
  return .assign name (← action)

/-- A statement that takes one line. -/
def lineStatement (action : Unbounded Action) : Unbounded Stmt := do
  match ← current with
  | .keyword .returnWord => giveBack action
  | .identifier name =>
    match ← peek? with
    | some (.symbol .equals) => assignment action name
    | _ => actionStatement action
  | _ => actionStatement action

/-- A statement that takes one line, and its end. -/
def simpleStatement (action : Unbounded Action) : Unbounded Stmt := do
  let s ← lineStatement action
  expectStatementEnd
  return s

/-- Statements up to the brace that closes their block. -/
def blockFrom (statement : Unbounded Stmt) : Unbounded (List Stmt) :=
  iterate (fun () => do
    skipSeparators
    if ← check .rightBrace then return .done []
    else if (← current).isEnd then unexpected (quoted Symbol.rightBrace.text)
    else
      let s ← statement
      return .again () (s :: ·)) ()

theorem blockFrom_eq (statement : Unbounded Stmt) :
    blockFrom statement = (do
      skipSeparators
      if ← check .rightBrace then return []
      else if (← current).isEnd then unexpected (quoted Symbol.rightBrace.text)
      else
        let s ← statement
        let ss ← blockFrom statement
        return s :: ss) := by
  refine ((iterate_eq _ _).trans (bind_assoc _ _ _)).trans ?_
  refine bind_congr fun _ => ?_
  rw [bind_assoc]
  refine bind_congr fun closed => ?_
  cases closed with
  | true => rfl
  | false =>
    simp only [Bool.false_eq_true, if_false, bind_assoc]
    refine bind_congr fun t => ?_
    cases t.isEnd with
    | true => rfl
    | false =>
      simp only [Bool.false_eq_true, if_false, bind_assoc, pure_bind, Round.close]
      rfl

/-- A block in braces. -/
def blockOf (statement : Unbounded Stmt) : Unbounded (List Stmt) := do
  expect .leftBrace
  modify fun s => { s with blockDepth := s.blockDepth + 1 }
  let body ← blockFrom statement
  modify fun s => { s with blockDepth := s.blockDepth - 1 }
  expect .rightBrace
  return body

/-- A statement over the given expressions, actions and blocks. -/
def statementOf (expr : Unbounded Expr) (action : Unbounded Action)
    (block : Unbounded (List Stmt)) : Unbounded Stmt := do
  match ← current with
  | .keyword .ifWord => conditional expr block
  | .keyword .forWord => loop expr block
  | .keyword .funcWord => functionDef block
  | .symbol .leftBrace => return .block (← block)
  | _ => simpleStatement action

/-- A statement, where the given number of levels may still be opened. -/
def statement (commands : CommandSet) : (levels : Nat) → Unbounded Stmt
  | 0 =>
    let expr := expression 0
    statementOf expr (action commands expr) (tooDeep : Parser (List Stmt))
  | levels + 1 =>
    let expr := expression (levels + 1)
    statementOf expr (action commands expr) (nested (blockOf (statement commands levels)))

/-- Statements to the end of the text. -/
def programFrom (statement : Unbounded Stmt) : Unbounded Program :=
  iterate (fun () => do
    skipSeparators
    let t ← current
    if t.isEnd then return .done []
    else if t.isSymbol .rightBrace then unexpected "statement"
    else
      let s ← statement
      return .again () (s :: ·)) ()

theorem programFrom_eq (statement : Unbounded Stmt) :
    programFrom statement = (do
      skipSeparators
      let t ← current
      if t.isEnd then return []
      else if t.isSymbol .rightBrace then unexpected "statement"
      else
        let s ← statement
        let ss ← programFrom statement
        return s :: ss) := by
  refine ((iterate_eq _ _).trans (bind_assoc _ _ _)).trans ?_
  refine bind_congr fun _ => ?_
  rw [bind_assoc]
  refine bind_congr fun t => ?_
  cases t.isEnd with
  | true => rfl
  | false =>
    cases t.isSymbol .rightBrace with
    | true => rfl
    | false =>
      simp only [Bool.false_eq_true, if_false, bind_assoc, pure_bind, Round.close]
      rfl

end

end Unbounded

/-- Read a text as a program with loops that have no bound. -/
noncomputable def parseUnbounded (commands : CommandSet) (source : String) :
    Option (Except Error Program) :=
  match start source.toList with
  | .error e => some (.error e)
  | .ok s => (Unbounded.programFrom (Unbounded.statement commands maxDepth) s).map (·.1)

end Parser

end CommandScript
