import CommandScript.Program.Basic
import CommandScript.Token.Stream

/-!
# Parser/Basic — the state of a parser, and its steps

A parser holds the current token with the cursors before and behind it, and counts what is open: groups
in round or square brackets (`nesting`), blocks (`blockDepth`) and levels of nested grammar (`depth`).
Inside a group line ends mean nothing. A parser that fails keeps the state it failed in.

The grammar recurses only through levels, of which at most `maxDepth` may be open. `nested` opens one; its
caller has one level less to spend, and with none left the text is refused (`tooDeep`).
-/

namespace CommandScript

/-- How many levels of groups, operators before an operand and blocks may be open. -/
def maxDepth : Nat := 256

namespace Parser

/-- The state of a parser. -/
structure State where
  current : Located
  /-- The place of the current token. -/
  origin : Cursor
  /-- The place behind the current token. -/
  cursor : Cursor
  nesting : Nat
  blockDepth : Nat
  depth : Nat

/-- What a parser sees of the tokens that it holds: the first, or the end of the text, at no place, if it
holds none. -/
def front (held : List Located) : Located := held.head?.getD ⟨.endOfInput, Span.unset⟩

/-- Give up the line ends that are held inside a group. Only the current token is held, and none is read in
its place. -/
def State.dropGroupedNewlines (s : State) : State :=
  if 0 < s.nesting then { s with current := front ([s.current].dropWhile (·.token.isNewline)) } else s

end Parser

/-- Parsers: they fail with an error, and the state is kept either way. -/
abbrev Parser := EStateM Error Parser.State

namespace Parser

/-- The current token. -/
def current : Parser Token := fun s => .ok s.current.token s

/-- Where the current token stands. -/
def currentSpan : Parser Span := fun s => .ok s.current.span s

/-- Whether the current token is the given symbol. -/
def check (sign : Symbol) : Parser Bool := fun s => .ok (s.current.token.isSymbol sign) s

/-- The token behind the current one, unless it cannot be read. -/
def peek? : Parser (Option Token) := fun s =>
  match s.cursor.next (0 < s.nesting) with
  | .ok (t, _) => .ok (some t.token) s
  | .error _ => .ok none s

/-- The state at the first token behind a cursor. With `acrossLines` it is the first one that ends no
line. -/
def State.readFrom (s : State) (acrossLines : Bool) (c : Cursor) : Except Error State :=
  match c.next acrossLines with
  | .ok (t, d) => .ok { s with current := t, origin := c.toToken acrossLines, cursor := d }
  | .error e => .error e

/-- Move on to the next token. -/
def advance : Parser Unit := fun s =>
  match s.readFrom (0 < s.nesting) s.cursor with
  | .ok t => .ok () t
  | .error e => .error e s

/-- Refuse the current token. -/
def unexpected {α : Type} (wanted : String) : Parser α := fun s =>
  .error (.parse (.expected wanted s.current.token.text) s.current.span) s

/-- A symbol in quotes. -/
def quoted (text : String) : String := "'" ++ text ++ "'"

/-- Move past the given symbol. -/
def expect (sign : Symbol) : Parser Unit := do
  if ← check sign then advance else unexpected (quoted sign.text)

/-- Move past the given keyword. -/
def expectKeyword (word : Keyword) : Parser Unit := do
  if (← current).isKeyword word then advance else unexpected (quoted word.text)

/-- Move past a name. -/
def expectName (wanted : String) : Parser String := do
  match ← current with
  | .identifier name =>
    advance
    return name
  | _ => unexpected wanted

/-- Open a group at the current token. -/
def openGroup : Parser Unit := do
  modify fun s => { s with nesting := s.nesting + 1 }
  advance

/-- Close a group at the given symbol. -/
def closeGroup (sign : Symbol) : Parser Unit := do
  if ← check sign then
    modify fun s => { s with nesting := s.nesting - 1 }
    advance
  else unexpected (quoted sign.text)

/-- Refuse a text that nests too deeply. -/
def tooDeep {α : Type} : Parser α := fun s => .error (.parse (.tooDeep maxDepth) s.current.span) s

/-- Run a parser one level deeper. The level is closed again also if the parser fails. -/
def nested {α : Type} (p : Parser α) : Parser α := fun s =>
  match p { s with depth := s.depth + 1 } with
  | .ok a t => .ok a { t with depth := t.depth - 1 }
  | .error e t => .error e { t with depth := t.depth - 1 }

/-- Whether the current token separates statements. -/
def atSeparator : Parser Bool := do
  let t ← current
  return t.isNewline || t.isSymbol .semicolon

/-- Move past separators, at most `n` of them. -/
def skipSeparators : (n : Nat) → Parser Unit
  | 0 => pure ()
  | n + 1 => do
    if ← atSeparator then
      advance
      skipSeparators n

/-- Whether the current token can end a simple statement. Inside a block a closing brace does. -/
def atStatementEnd : Parser Bool := fun s =>
  let t := s.current.token
  .ok (t.isNewline || t.isSymbol .semicolon || t.isEnd
    || (t.isSymbol .rightBrace && 0 < s.blockDepth)) s

/-- Read a text from its first token. -/
def start (source : List Char) : Except Error State :=
  let c := Cursor.start source
  State.readFrom ⟨front [], c, c, 0, 0, 0⟩ false c

end Parser

end CommandScript
