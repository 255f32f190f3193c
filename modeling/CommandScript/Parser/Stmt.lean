import CommandScript.Parser.Expr
import CommandScript.Shell.CommandSet
import CommandScript.Shell.Line

/-!
# Parser/Stmt — the grammar of statements

Where a statement needs a value, a line may be an expression or a command (`action`). A line that starts
with the name of a known command is one; if it can be read as an expression too, that reading is kept
beside it. Any other line is first tried as an expression. If that fails and the line could be a
command, it is read again from its first token, word by word.
-/

namespace CommandScript

namespace Parser

/-- The words of the command line at `origin`; the token behind the line becomes the current one. The
span is that of the first token of the line, where a line without words is reported. -/
def commandFrom (origin : Cursor) (span : Span) : Parser (List (List Part)) := fun s =>
  match origin.commandLine (0 < s.blockDepth) with
  | .error e => .error e s
  | .ok (words, c) =>
    let parts := words.filterMap fun w =>
      match w.token with
      | .word parts => some parts
      | _ => none
    if parts.isEmpty then .error (.parse .noCommand span) s
    else match s.readFrom (0 < s.nesting) c with
      | .ok t => .ok parts t
      | .error e => .error e s

/-- Run a parser and give back what it ends with, a failure included. -/
def attempt {α : Type} (p : Parser α) : Parser (Except Error α) := fun s =>
  match p s with
  | .ok a t => .ok (.ok a) t
  | .error e t => .ok (.error e) t

/-- Whether what follows a leading name shows that it is no command but a variable. -/
def marksVariable : Option Token → Bool
  | some (.symbol .equals) | some (.symbol .leftParen) => true
  | some (.symbol .dot) | some (.symbol .leftBracket) => true
  | _ => false

/-- Whether a command line may start with the token, known or not. -/
def mayStartCommand : Token → Bool
  | .identifier _ | .stray _ => true
  | .symbol .dot | .symbol .slash => true
  | _ => false

/-- The known command that a line starts with. -/
def knownCommand? (commands : CommandSet) : Parser (Option String) := do
  match ← current with
  | .identifier name =>
    if commands.contains name then
      if marksVariable (← peek?) then return none else return some name
    else return none
  | _ => return none

/-- Whether an expression just read fills its line. An element may also be assigned to. -/
def isComplete : Expr → Parser Bool
  | .index _ _ => do return (← atStatementEnd) || (← check .equals)
  | _ => atStatementEnd

/-- Read a line as a command, from the state `begin` at its first token on. Of the groups that an
expression left open none stays open. -/
def commandAt (begin : State) (reading : Option Reading) : Parser Action := do
  modify fun s => { s with nesting := begin.nesting }
  let words ← commandFrom begin.origin begin.current.span
  return .command ⟨words, reading⟩

/-- The other reading of a line that a command leads. A command line runs to the end of its line, past
any semicolon, so an expression that a semicolon ends is none. -/
def readingOf (name : String) (result : Except Error Expr) (complete : Bool) :
    Parser (Option Reading) := do
  match result with
  | .error _ => return none
  | .ok e => if complete && !(← check .semicolon) then return some ⟨name, e⟩ else return none

/-- The value of a statement: an expression or a command line. -/
def action (commands : CommandSet) (expr : Parser Expr) : Parser Action := do
  let begin ← get
  let known ← knownCommand? commands
  let result ← attempt expr
  let complete ← match result with
    | .ok e => isComplete e
    | .error _ => pure false
  match known, result, complete with
  | some name, _, _ => commandAt begin (← readingOf name result complete)
  | none, .ok e, true => return .expression e
  | none, _, _ =>
    if mayStartCommand begin.current.token then commandAt begin none
    else match result with
      | .error e => throw e
      | .ok _ => unexpected "end of statement"

/-- Require the end of a simple statement, and move past one separator. -/
def expectStatementEnd : Parser Unit := do
  unless ← atStatementEnd do unexpected "end of statement"
  if ← atSeparator then advance

/-- Move past line ends if they are followed by `else`; say whether it follows. -/
def skipToElse : Parser Bool := fun s =>
  if s.current.token.isKeyword .elseWord then .ok true s
  else if s.current.token.isNewline then
    match s.readFrom true s.cursor with
    | .error e => .error e s
    | .ok t => if t.current.token.isKeyword .elseWord then .ok true t else .ok false s
  else .ok false s

/-- What follows the block of a conditional. -/
def otherwiseFrom (expr : Parser Expr) (block : Parser (List Stmt)) :
    (size : Nat) → Parser Otherwise
  | 0 => pure .nothing
  | size + 1 => do
    if ← skipToElse then
      expectKeyword .elseWord
      if (← current).isKeyword .ifWord then
        advance
        let test ← expr
        let body ← block
        let rest ← otherwiseFrom expr block size
        return .orIf test body rest
      else return .orElse (← block)
    else return .nothing

/-- A conditional. -/
def conditional (size : Nat) (expr : Parser Expr) (block : Parser (List Stmt)) : Parser Stmt := do
  expectKeyword .ifWord
  let test ← expr
  let body ← block
  let rest ← otherwiseFrom expr block size
  return .choose test body rest

/-- A loop. -/
def loop (expr : Parser Expr) (block : Parser (List Stmt)) : Parser Stmt := do
  expectKeyword .forWord
  let name ← expectName "loop variable"
  expectKeyword .inWord
  let items ← expr
  let body ← block
  return .forEach name items body

/-- Parameter names up to a closing bracket, none of them twice; `earlier` are those already read. -/
def parametersFrom : (size : Nat) → (earlier : List String) → Parser (List String)
  | 0, _ => pure []
  | size + 1, earlier => do
    if ← check .rightParen then return []
    else
      let name ← expectName "parameter name"
      if earlier.contains name then
        throw (.parse (.duplicateParameter name) (← currentSpan))
      else if ← check .comma then
        advance
        let names ← parametersFrom size (name :: earlier)
        return name :: names
      else return [name]

/-- A list of parameters in brackets. What follows the opening bracket is read before the group is open, so
a line end there is given up only then. -/
def parameters (size : Nat) : Parser (List String) := do
  expect .leftParen
  modify fun s => { s with nesting := s.nesting + 1 }
  modify State.dropGroupedNewlines
  let names ← parametersFrom size []
  closeGroup .rightParen
  return names

/-- A function definition. -/
def functionDef (size : Nat) (block : Parser (List Stmt)) : Parser Stmt := do
  expectKeyword .funcWord
  let name ← expectName "function name"
  let params ← parameters size
  let body ← block
  return .function name params body

/-- A `return`, with or without a value. -/
def giveBack (action : Parser Action) : Parser Stmt := do
  expectKeyword .returnWord
  if ← atStatementEnd then return .giveBack none
  else return .giveBack (some (← action))

/-- A statement that an action starts: the action alone, or an assignment to an element. -/
def actionStatement (action : Parser Action) : Parser Stmt := do
  match ← action with
  | .expression (.index target place) =>
    if ← check .equals then
      advance
      return .assignAt target place (← action)
    else return .perform (.expression (.index target place))
  | a => return .perform a

/-- An assignment to a variable; the current token is its name. -/
def assignment (action : Parser Action) (name : String) : Parser Stmt := do
  advance
  advance
  return .assign name (← action)

/-- A statement that takes one line: a `return`, an assignment or an action. -/
def lineStatement (action : Parser Action) : Parser Stmt := do
  match ← current with
  | .keyword .returnWord => giveBack action
  | .identifier name =>
    match ← peek? with
    | some (.symbol .equals) => assignment action name
    | _ => actionStatement action
  | _ => actionStatement action

/-- A statement that takes one line, and its end. -/
def simpleStatement (action : Parser Action) : Parser Stmt := do
  let s ← lineStatement action
  expectStatementEnd
  return s

/-- Statements up to the brace that closes their block. -/
def blockFrom (bound : Nat) (statement : Parser Stmt) : (size : Nat) → Parser (List Stmt)
  | 0 => pure []
  | size + 1 => do
    skipSeparators bound
    if ← check .rightBrace then return []
    else if (← current).isEnd then unexpected (quoted Symbol.rightBrace.text)
    else
      let s ← statement
      let ss ← blockFrom bound statement size
      return s :: ss

/-- A block in braces. -/
def blockOf (size : Nat) (statement : Parser Stmt) : Parser (List Stmt) := do
  expect .leftBrace
  modify fun s => { s with blockDepth := s.blockDepth + 1 }
  let body ← blockFrom size statement size
  modify fun s => { s with blockDepth := s.blockDepth - 1 }
  expect .rightBrace
  return body

/-- A statement over the given expressions, actions and blocks. -/
def statementOf (size : Nat) (expr : Parser Expr) (action : Parser Action)
    (block : Parser (List Stmt)) : Parser Stmt := do
  match ← current with
  | .keyword .ifWord => conditional size expr block
  | .keyword .forWord => loop expr block
  | .keyword .funcWord => functionDef size block
  | .symbol .leftBrace => return .block (← block)
  | _ => simpleStatement action

/-- A statement, where the given number of levels may still be opened. A block opens one. -/
def statement (commands : CommandSet) (size : Nat) : (levels : Nat) → Parser Stmt
  | 0 =>
    let expr := expression size 0
    statementOf size expr (action commands expr) tooDeep
  | levels + 1 =>
    let expr := expression size (levels + 1)
    statementOf size expr (action commands expr)
      (nested (blockOf size (statement commands size levels)))

/-- Statements to the end of the text. -/
def programFrom (bound : Nat) (statement : Parser Stmt) : (size : Nat) → Parser Program
  | 0 => pure []
  | size + 1 => do
    skipSeparators bound
    let t ← current
    if t.isEnd then return []
    else if t.isSymbol .rightBrace then unexpected "statement"
    else
      let s ← statement
      let ss ← programFrom bound statement size
      return s :: ss

end Parser

/-- Read a text as a program, given the names of the known commands. -/
def parseProgram (commands : CommandSet) (source : String) : Except Error Program :=
  let cs := source.toList
  let size := cs.length + 1
  match Parser.start cs with
  | .error e => .error e
  | .ok s =>
    match Parser.programFrom size (Parser.statement commands size maxDepth) size s with
    | .ok p _ => .ok p
    | .error e _ => .error e

/-- Read up to `count` statements from the start of a text, one after the other without skipping
separators, and stop at the first error. -/
def parseStatements (commands : CommandSet) (source : String) (count : Nat) :
    List (Except Error Stmt) :=
  let cs := source.toList
  match Parser.start cs with
  | .error e => [.error e]
  | .ok s => next (Parser.statement commands (cs.length + 1) maxDepth) count s
where
  /-- Read up to `n` statements from a state. -/
  next (statement : Parser Stmt) : Nat → Parser.State → List (Except Error Stmt)
    | 0, _ => []
    | n + 1, s =>
      match statement s with
      | .ok stmt t => .ok stmt :: next statement n t
      | .error e _ => [.error e]

/-- Read the first statement of a text; the rest of the text is not looked at. -/
def parseStatement (commands : CommandSet) (source : String) : Except Error Stmt :=
  let cs := source.toList
  match Parser.start cs with
  | .error e => .error e
  | .ok s =>
    match Parser.statement commands (cs.length + 1) maxDepth s with
    | .ok stmt _ => .ok stmt
    | .error e _ => .error e

end CommandScript
