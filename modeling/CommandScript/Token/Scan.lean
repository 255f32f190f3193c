import CommandScript.Token.Basic

/-!
# Token/Scan — the token at the start of a text

`scan` reads the token a text starts with and says how many characters it takes; it knows nothing of
places. Blanks and comments before a token are counted by `trivia`. A name to fill in is read by
`holeAt?`, which template strings share with command lines.

Readers that may jump ahead (an escape, a name in a template) carry the number of characters already
accounted for, so that each of them walks the text once, character by character.
-/

namespace CommandScript

/-- Why a text starts with no token. -/
inductive ScanFault
  /-- A quoted string without its closing quote. -/
  | openString
  /-- A number run into something else; the text read so far. -/
  | badNumber (text : String)
  /-- A quote in a command line without its closing quote. -/
  | openQuote
  /-- A fault in the reporter's own words. -/
  | other (message : String)
deriving DecidableEq

/-- What is said of the fault. -/
def ScanFault.message : ScanFault → String
  | openString => "unterminated string literal"
  | badNumber text => "invalid numeric literal '" ++ text ++ "'"
  | openQuote => "unterminated quote in shell command"
  | other message => message

namespace Scan

/-- Characters that start a name. -/
def isNameStart (c : Char) : Bool := c.isAlpha || c == '_'

/-- Characters of a name. -/
def isNameChar (c : Char) : Bool := c.isAlphanum || c == '_'

/-- Whether a text is a name: an identifier or a keyword. -/
def isName (s : String) : Bool :=
  match s.toList with
  | [] => false
  | c :: cs => isNameStart c && cs.all isNameChar

/-- How many blanks and characters of comments the text starts with. A comment runs up to the end of
its line. Where line ends mean nothing (`acrossLines`), they are skipped like blanks. -/
def trivia (acrossLines : Bool) : (inComment : Bool) → List Char → Nat
  | _, [] => 0
  | inComment, c :: cs =>
    if c = '\n' then if acrossLines then trivia acrossLines false cs + 1 else 0
    else if inComment || c = '#' then trivia acrossLines true cs + 1
    else if Text.isBlank c then trivia acrossLines false cs + 1
    else 0

/-- The name to fill in at a dollar sign, given the text behind the sign, and how many characters it
takes, the sign included. A name may stand in braces. -/
def holeAt? (cs : List Char) : Option (String × Nat) :=
  match cs with
  | c :: rest =>
    if isNameStart c then
      let name := cs.takeWhile isNameChar
      some (String.ofList name, name.length + 1)
    else if c = '\x7b' then
      let name := rest.takeWhile isNameChar
      match name, rest.drop name.length with
      | first :: _, '\x7d' :: _ =>
        if isNameStart first then some (String.ofList name, name.length + 3) else none
      | _, _ => none
    else none
  | [] => none

/-- What a backslash and the given character stand for in a template string. -/
def escaped? (c : Char) : Option Char :=
  if c = '"' || c = '\\' || c = '$' then some c
  else if c = 'n' then some '\n'
  else if c = 't' then some '\t'
  else none

/-- The parts of a template string and how many characters it takes, given the text behind its opening
quote; the first `skip` characters are already accounted for. A backslash that escapes nothing and a
dollar sign without a name stand for themselves. -/
def templateFrom : (skip : Nat) → List Char → Option (List Part × Nat)
  | _, [] => none
  | skip + 1, _ :: cs => (templateFrom skip cs).map fun (parts, n) => (parts, n + 1)
  | 0, c :: cs =>
    if c = '"' then some ([], 1)
    else if c = '\\' then
      match cs.head?.bind escaped? with
      | some e => (templateFrom 1 cs).map fun (parts, n) => (Part.cons e parts, n + 1)
      | none => (templateFrom 0 cs).map fun (parts, n) => (Part.cons c parts, n + 1)
    else if c = '$' then
      match holeAt? cs with
      | some (name, width) =>
        (templateFrom (width - 1) cs).map fun (parts, n) => (.hole name :: parts, n + 1)
      | none => (templateFrom 0 cs).map fun (parts, n) => (Part.cons c parts, n + 1)
    else (templateFrom 0 cs).map fun (parts, n) => (Part.cons c parts, n + 1)

/-- The number a text of digits starts with. Behind the digits a point needs a further digit, unless a
second point makes it the sign of a range; a letter may not follow. -/
def number (cs : List Char) : Except ScanFault (Token × Nat) :=
  let whole := cs.takeWhile Char.isDigit
  let rest := cs.drop whole.length
  match rest with
  | '.' :: '.' :: _ => .ok (.number (Number.ofLiteral whole []), whole.length)
  | '.' :: next =>
    let fraction := next.takeWhile Char.isDigit
    if fraction.isEmpty then .error (.badNumber (String.ofList (whole ++ ['.'])))
    else finish whole fraction (whole ++ '.' :: fraction) (next.drop fraction.length)
  | _ => finish whole [] whole rest
where
  /-- The number, unless a letter follows its text. -/
  finish (whole fraction text rest : List Char) : Except ScanFault (Token × Nat) :=
    match rest.head?.filter isNameStart with
    | some c => .error (.badNumber (String.ofList (text ++ [c])))
    | none => .ok (.number (Number.ofLiteral whole fraction), text.length)

/-- The name or keyword a text starts with. -/
def name (cs : List Char) : Token × Nat :=
  let letters := cs.takeWhile isNameChar
  let word := String.ofList letters
  (match Keyword.of? word with
    | some k => .keyword k
    | none => .identifier word, letters.length)

/-- The raw string a text starts with, given the text behind its opening quote. -/
def rawString (cs : List Char) : Except ScanFault (Token × Nat) :=
  let body := cs.takeWhile (· != '\'')
  if body.length < cs.length then .ok (.string (String.ofList body), body.length + 2)
  else .error .openString

/-- The longer token if the next character is the given one, else the shorter one. -/
def pair (cs : List Char) (second : Char) (long short : Token) : Token × Nat :=
  if cs.head? = some second then (long, 2) else (short, 1)

/-- The token of a character that starts no longer one. -/
def single (c : Char) : Token :=
  match c with
  | '\n' => .newline
  | '+' => .symbol .plus
  | '-' => .symbol .minus
  | '*' => .symbol .star
  | '/' => .symbol .slash
  | '^' => .symbol .caret
  | '(' => .symbol .leftParen
  | ')' => .symbol .rightParen
  | '\x7b' => .symbol .leftBrace
  | '\x7d' => .symbol .rightBrace
  | '[' => .symbol .leftBracket
  | ']' => .symbol .rightBracket
  | ',' => .symbol .comma
  | ';' => .symbol .semicolon
  | _ => .stray c

/-- The token of a symbol or a character without meaning, given the text behind it. -/
def sign (c : Char) (cs : List Char) : Token × Nat :=
  match c with
  | '=' => pair cs '=' (.symbol .equalEqual) (.symbol .equals)
  | '!' => pair cs '=' (.symbol .notEqual) (.symbol .bang)
  | '<' => pair cs '=' (.symbol .lessEqual) (.symbol .less)
  | '>' => pair cs '=' (.symbol .greaterEqual) (.symbol .greater)
  | '|' => pair cs '|' (.symbol .orOr) (.stray '|')
  | '&' => pair cs '&' (.symbol .andAnd) (.stray '&')
  | '.' => pair cs '.' (.symbol .dotDot) (.symbol .dot)
  | _ => (single c, 1)

end Scan

/-- The token a text starts with, and how many characters it takes. -/
def Token.scan (cs : List Char) : Except ScanFault (Token × Nat) :=
  match cs with
  | [] => .ok (.endOfInput, 0)
  | c :: rest =>
    if c.isDigit then Scan.number cs
    else if Scan.isNameStart c then .ok (Scan.name cs)
    else if c = '\'' then Scan.rawString rest
    else if c = '"' then
      match Scan.templateFrom 0 rest with
      | some (parts, n) => .ok (.template parts, n + 1)
      | none => .error .openString
    else .ok (Scan.sign c rest)

end CommandScript
