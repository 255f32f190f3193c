import CommandScript.Token.Stream

/-!
# Shell/Line — command lines in source text

The rest of a line can be read as words of a command instead of tokens. Quotes and backslashes stay in
the text of a word, for the shell to interpret; only names to fill in are marked. `wordFrom` reads one
word, `Cursor.commandLine` all words up to the end of the line, or, inside a block, up to the brace
that closes it.
-/

namespace CommandScript

namespace Scan

/-- An open quote: its character, and how many characters of the word came before it. -/
structure OpenQuote where
  char : Char
  position : Nat
deriving DecidableEq

/-- Whether an unquoted character ends a word. Inside a block a closing brace does. -/
def endsWord (inBlock : Bool) (c : Char) : Bool :=
  Text.isBlank c || c == '\n' || (inBlock && c == '\x7d')

/-- What a character does to the open quote: a quote character opens one if none is open, and closes
one of its own kind. -/
def quoteAfter (quote : Option OpenQuote) (c : Char) (position : Nat) : Option OpenQuote :=
  match quote with
  | none => if c = '\'' || c = '"' then some ⟨c, position⟩ else none
  | some q => if c = q.char then none else some q

/-- Whether a character opens or closes a quote. -/
def isQuoting (quote : Option OpenQuote) (c : Char) : Bool :=
  match quote with
  | none => c == '\'' || c == '"'
  | some q => c == q.char

/-- The parts of a word and how many characters it takes from here on; `position` characters of it came
before, and the first `skip` characters ahead are already accounted for. The fault is the place of a
quote that is never closed. -/
def wordFrom (inBlock : Bool) :
    (quote : Option OpenQuote) → (position skip : Nat) → List Char → Except Nat (List Part × Nat)
  | none, _, _, [] => .ok ([], 0)
  | some q, _, _, [] => .error q.position
  | quote, position, skip + 1, _ :: cs => do
    let (parts, n) ← wordFrom inBlock quote (position + 1) skip cs
    return (parts, n + 1)
  | quote, position, 0, c :: cs =>
    if quote.isNone && endsWord inBlock c then .ok ([], 0)
    else if isQuoting quote c then do
      let (parts, n) ← wordFrom inBlock (quoteAfter quote c position) (position + 1) 0 cs
      return (Part.cons c parts, n + 1)
    else if c = '\\' then
      match cs.head? with
      | none => do
        let (parts, n) ← wordFrom inBlock quote (position + 1) 0 cs
        return (Part.cons c parts, n + 1)
      | some next => do
        let (parts, n) ← wordFrom inBlock quote (position + 1) 1 cs
        return (Part.cons c (Part.cons next parts), n + 1)
    else if c = '$' then
      match holeAt? cs with
      | some (name, width) => do
        let (parts, n) ← wordFrom inBlock quote (position + 1) (width - 1) cs
        return (.hole name :: parts, n + 1)
      | none => do
        let (parts, n) ← wordFrom inBlock quote (position + 1) 0 cs
        return (Part.cons c parts, n + 1)
    else do
      let (parts, n) ← wordFrom inBlock quote (position + 1) 0 cs
      return (Part.cons c parts, n + 1)

end Scan

namespace Cursor

/-- Past the blanks ahead. -/
def pastBlanks (c : Cursor) : Cursor := c.skip (c.rest.takeWhile Text.isBlank).length

/-- Read at most `n` words of a command line. -/
def wordsFrom (inBlock : Bool) : Nat → Cursor → Except Error (List Located × Cursor)
  | 0, c => .ok ([], c)
  | n + 1, c => do
    let c := c.pastBlanks
    match c.rest with
    | [] => return ([], c)
    | ch :: _ =>
      if ch = '#' then return ([], c.toToken false)
      else if Scan.endsWord inBlock ch then return ([], c)
      else
        match Scan.wordFrom inBlock none 0 0 c.rest with
        | .error position => .error (.lex .openQuote (c.skip position).here)
        | .ok (parts, width) =>
          let d := c.skip width
          let (words, e) ← wordsFrom inBlock n d
          return (⟨.word parts, c.spanTo d⟩ :: words, e)

/-- The words of the command line ahead, and the cursor behind it. A comment ends the line; the line
end itself is left. Every word takes a character, so there are no more words than characters. -/
def commandLine (inBlock : Bool) (c : Cursor) : Except Error (List Located × Cursor) :=
  wordsFrom inBlock (c.rest.length + 1) c

end Cursor

end CommandScript
