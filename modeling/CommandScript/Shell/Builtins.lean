import CommandScript.Shell.Launcher

/-!
# Shell/Builtins — a shell of built-in commands

`Launcher.builtins` runs command lines that need no other program: `echo`, `printf`, `exit`, `kill`, `true`,
`false` and `:`, joined by `;`, `&&` and `||`. A line is cut into words and operators (`Builtins.lexemes`),
the words are expanded, and the commands run in order until one of them ends the shell. This is as much of
another program as it takes to run scripts without one; no result rests on it, for they hold for every
launcher.
-/

namespace CommandScript

namespace Builtins

/-! ## Words and operators -/

/-- A piece of a word. -/
inductive Segment
  | text (s : String)
  /-- The status of the command before. -/
  | status
  /-- The number of the shell's own process. -/
  | self
deriving DecidableEq

/-- A word. Quoted words stay even if nothing is in them. -/
structure Word where
  segments : List Segment
  quoted : Bool
deriving DecidableEq

/-- What commands are joined by. -/
inductive Joint
  | thenAlways | thenIfDone | thenIfFailed
deriving DecidableEq

/-- What a line consists of. -/
inductive Lexeme
  | word (w : Word)
  | joint (j : Joint)
  /-- The next word takes the output; `false` if it takes only error messages. -/
  | redirect (output : Bool)
  /-- Nothing this shell can do. -/
  | unsupported
deriving DecidableEq

/-- What the characters stand in. -/
inductive Quoting
  | bare | single | double | comment
deriving DecidableEq

/-- Put a character behind a word. -/
def Word.push (w : Option Word) (c : Char) : Word :=
  match w with
  | none => ⟨[.text (String.singleton c)], false⟩
  | some ⟨segments, quoted⟩ =>
    match segments.reverse with
    | .text s :: before => ⟨(Segment.text (s.push c) :: before).reverse, quoted⟩
    | _ => ⟨segments ++ [.text (String.singleton c)], quoted⟩

/-- Put a segment behind a word. -/
def Word.extend (w : Option Word) (s : Segment) : Word :=
  let w := w.getD ⟨[], false⟩
  { w with segments := w.segments ++ [s] }

/-- The word, now with a quoted part. -/
def Word.quote (w : Option Word) : Word := { w.getD ⟨[], false⟩ with quoted := true }

/-- The word as a lexeme, if one was begun. -/
def finish (w : Option Word) : List Lexeme := (w.map Lexeme.word).toList

/-- Which output a redirection takes, by the number before it: none or 1 is the output. -/
def redirected (w : Option Word) : List Lexeme × Bool :=
  match w with
  | none => ([], true)
  | some ⟨[.text s], false⟩ => if s.all Char.isDigit then ([], s == "1") else (finish w, true)
  | some _ => (finish w, true)

/-- Cut characters into lexemes; `skip` characters are already taken, and `w` is the word begun. A quote
that is never closed gives none. -/
def lexemesFrom : (skip : Nat) → Quoting → (w : Option Word) → List Char → Option (List Lexeme)
  | _, .single, _, [] | _, .double, _, [] => none
  | _, _, w, [] => some (finish w)
  | n + 1, q, w, _ :: cs => lexemesFrom n q w cs
  | 0, .comment, w, c :: cs =>
    if c = '\n' then (Lexeme.joint .thenAlways :: ·) <$> lexemesFrom 0 .bare w cs
    else lexemesFrom 0 .comment w cs
  | 0, .single, w, c :: cs =>
    if c = '\'' then lexemesFrom 0 .bare w cs else lexemesFrom 0 .single (some (Word.push w c)) cs
  | 0, .double, w, c :: cs =>
    if c = '"' then lexemesFrom 0 .bare w cs
    else match c, cs with
      | '\\', d :: _ =>
        if d = '\n' then lexemesFrom 1 .double w cs
        else if d = '$' || d = '"' || d = '\\' || d.toNat = 0x60 then
          lexemesFrom 1 .double (some (Word.push w d)) cs
        else lexemesFrom 0 .double (some (Word.push w c)) cs
      | '$', '$' :: _ => lexemesFrom 1 .double (some (Word.extend w .self)) cs
      | '$', '?' :: _ => lexemesFrom 1 .double (some (Word.extend w .status)) cs
      | _, _ => lexemesFrom 0 .double (some (Word.push w c)) cs
  | 0, .bare, w, c :: cs =>
    if c = ' ' || c = '\t' then (finish w ++ ·) <$> lexemesFrom 0 .bare none cs
    else if c = '\n' || c = ';' then
      (finish w ++ Lexeme.joint .thenAlways :: ·) <$> lexemesFrom 0 .bare none cs
    else if c = '#' && w.isNone then lexemesFrom 0 .comment none cs
    else if c = '\'' then lexemesFrom 0 .single (some (Word.quote w)) cs
    else if c = '"' then lexemesFrom 0 .double (some (Word.quote w)) cs
    else if c = '(' || c = ')' || c = '<' || c.toNat = 0x60 then
      (finish w ++ Lexeme.unsupported :: ·) <$> lexemesFrom 0 .bare none cs
    else match c, cs with
      | '&', '&' :: _ =>
        (finish w ++ Lexeme.joint .thenIfDone :: ·) <$> lexemesFrom 1 .bare none cs
      | '|', '|' :: _ =>
        (finish w ++ Lexeme.joint .thenIfFailed :: ·) <$> lexemesFrom 1 .bare none cs
      | '&', _ | '|', _ => (finish w ++ Lexeme.unsupported :: ·) <$> lexemesFrom 0 .bare none cs
      | '>', d :: _ =>
        let (before, output) := redirected w
        (before ++ Lexeme.redirect output :: ·) <$>
          lexemesFrom (if d = '>' || d = '&' then 1 else 0) .bare none cs
      | '>', [] => none
      | '\\', d :: _ =>
        lexemesFrom 1 .bare (if d = '\n' then w else some (Word.quote (some (Word.push w d)))) cs
      | '$', '$' :: _ => lexemesFrom 1 .bare (some (Word.extend w .self)) cs
      | '$', '?' :: _ => lexemesFrom 1 .bare (some (Word.extend w .status)) cs
      | _, _ => lexemesFrom 0 .bare (some (Word.push w c)) cs

/-- The words and operators of a line. -/
def lexemes (line : String) : Option (List Lexeme) := lexemesFrom 0 .bare none line.toList

/-! ## Commands -/

/-- The number under which the shell knows its own process. -/
def processNumber : String := "1"

/-- A command: its words, and whether its output is kept. -/
structure Simple where
  words : List Word
  keepsOutput : Bool
deriving DecidableEq

/-- Read commands, each with what joins it to the one before. -/
def commandsFrom (before : Joint) (current : Simple) : List Lexeme → Option (List (Joint × Simple))
  | [] => some [(before, current)]
  | .unsupported :: _ => none
  | .word w :: rest => commandsFrom before { current with words := current.words ++ [w] } rest
  | .joint j :: rest => do
    let commands ← commandsFrom j ⟨[], true⟩ rest
    return (before, current) :: commands
  | .redirect output :: .word _ :: rest =>
    commandsFrom before { current with keepsOutput := current.keepsOutput && !output } rest
  | .redirect _ :: _ => none

/-- The text of a word. -/
def Word.text (status : Nat) (w : Word) : String :=
  String.join <| w.segments.map fun
    | .text s => s
    | .status => toString status
    | .self => processNumber

/-- The arguments that words stand for. -/
def arguments (status : Nat) (words : List Word) : List String :=
  words.filterMap fun w =>
    let s := w.text status
    if s.isEmpty && !w.quoted then none else some s

/-- The character that a backslash and a letter stand for. -/
def escape? : Char → Option Char
  | 'n' => some '\n'
  | 't' => some '\t'
  | 'r' => some '\r'
  | 'a' => some '\x07'
  | 'b' => some '\x08'
  | 'f' => some '\x0c'
  | 'v' => some '\x0b'
  | '\\' => some '\\'
  | _ => none

/-- The value of up to `digits` octal digits, and how many there are. -/
def octal : (digits : Nat) → (value count : Nat) → List Char → Nat × Nat
  | digits + 1, value, count, c :: cs =>
    if '0' ≤ c && c ≤ '7' then octal digits (8 * value + (c.toNat - '0'.toNat)) (count + 1) cs
    else (value, count)
  | _, value, count, _ => (value, count)

/-- The bytes of a character. -/
def bytesOf (c : Char) : List UInt8 := (String.singleton c).toUTF8.toList

/-- The bytes of a text. -/
def textBytes (s : String) : List UInt8 := s.toUTF8.toList

/-- The bytes of a text in which backslashes have meaning, and whether the text asked to stop there. With
`leadingZero` an octal number is written behind a zero. -/
def unescape (leadingZero : Bool) : (skip : Nat) → List Char → List UInt8 × Bool
  | _, [] => ([], false)
  | n + 1, _ :: cs => unescape leadingZero n cs
  | 0, '\\' :: cs =>
    match cs with
    | [] => ([0x5c], false)
    | d :: ds =>
      if d = 'c' && leadingZero then ([], true)
      else match escape? d with
        | some e => prepend (bytesOf e) (unescape leadingZero 1 cs)
        | none =>
          if leadingZero && d = '0' then
            let (value, count) := octal 3 0 0 ds
            prepend [UInt8.ofNat value] (unescape leadingZero (1 + count) cs)
          else
            let (value, count) := octal 3 0 0 cs
            if !leadingZero && count != 0 then
              prepend [UInt8.ofNat value] (unescape leadingZero count cs)
            else prepend [0x5c] (unescape leadingZero 0 cs)
  | 0, c :: cs => prepend (bytesOf c) (unescape leadingZero 0 cs)
where
  /-- Put bytes in front. -/
  prepend (bytes : List UInt8) (rest : List UInt8 × Bool) : List UInt8 × Bool :=
    (bytes ++ rest.1, rest.2)

/-- A piece of a `printf` format. -/
inductive Directive
  | bytes (b : List UInt8)
  | string | number | escaped
deriving DecidableEq

/-- The pieces of a format. An unknown directive gives none. -/
def directives : (skip : Nat) → List Char → Option (List Directive)
  | _, [] => some []
  | n + 1, _ :: cs => directives n cs
  | 0, '%' :: cs =>
    match cs with
    | '%' :: _ => (Directive.bytes [0x25] :: ·) <$> directives 1 cs
    | 's' :: _ => (Directive.string :: ·) <$> directives 1 cs
    | 'd' :: _ | 'i' :: _ => (Directive.number :: ·) <$> directives 1 cs
    | 'b' :: _ => (Directive.escaped :: ·) <$> directives 1 cs
    | _ => none
  | 0, '\\' :: cs =>
    match cs with
    | [] => some [.bytes [0x5c]]
    | d :: _ =>
      match escape? d with
      | some e => (Directive.bytes (bytesOf e) :: ·) <$> directives 1 cs
      | none =>
        let (value, count) := octal 3 0 0 cs
        if count = 0 then (Directive.bytes [0x5c] :: ·) <$> directives 0 cs
        else (Directive.bytes [UInt8.ofNat value] :: ·) <$> directives count cs
  | 0, c :: cs => (Directive.bytes (bytesOf c) :: ·) <$> directives 0 cs

/-- One pass over a format: what it writes, the arguments left, and whether all numbers were numbers. -/
def format : List Directive → List String → List UInt8 × List String × Bool
  | [], args => ([], args, true)
  | .bytes b :: ds, args =>
    let (out, rest, fine) := format ds args
    (b ++ out, rest, fine)
  | .string :: ds, args =>
    let (out, rest, fine) := format ds args.tail
    (textBytes (args.headD "") ++ out, rest, fine)
  | .escaped :: ds, args =>
    let (out, rest, fine) := format ds args.tail
    ((unescape true 0 (args.headD "").toList).1 ++ out, rest, fine)
  | .number :: ds, args =>
    let (out, rest, fine) := format ds args.tail
    let text := args.headD "0"
    if text.isInt then (textBytes (toString (text.toInt?.getD 0)) ++ out, rest, fine)
    else (textBytes "0" ++ out, rest, false)

/-- A format is used again while arguments are left, if it takes any. -/
def formatAll (ds : List Directive) : (rounds : Nat) → List String → List UInt8 × Bool
  | 0, _ => ([], true)
  | rounds + 1, args =>
    let (out, rest, fine) := format ds args
    if rest.isEmpty || rest.length = args.length then (out, fine)
    else
      let (more, fine') := formatAll ds rounds rest
      (out ++ more, fine && fine')

/-- What a command does: it writes and ends with a status, or it ends the shell with a status or, without
one, by a signal. -/
inductive Effect
  | done (output : List UInt8) (status : Nat)
  | leave (status : Option Nat)
deriving DecidableEq

/-- `echo`: the arguments with blanks between them; `-n` leaves out the end of the line. -/
def echo : List String → Effect
  | "-n" :: args => .done (unescape true 0 (" ".intercalate args).toList).1 0
  | args =>
    let (out, stopped) := unescape true 0 (" ".intercalate args).toList
    .done (if stopped then out else out ++ [0x0a]) 0

/-- `printf`: a format and its arguments. -/
def printf : List String → Effect
  | [] => .done [] 2
  | text :: args =>
    match directives 0 text.toList with
    | none => .done [] 2
    | some ds =>
      let (out, fine) := formatAll ds (args.length + 1) args
      .done out (if fine then 0 else 1)

/-- `exit`: statuses are counted modulo 256. -/
def exit (status : Nat) : List String → Effect
  | [] => .leave (some status)
  | text :: _ =>
    if !text.isEmpty && text.all Char.isDigit then .leave (some (text.toNat?.getD 0 % 256))
    else .leave (some 2)

/-- `kill`: a signal to the shell itself ends it, unless it is the empty signal. -/
def kill (args : List String) : Effect :=
  match args with
  | ["-0", target] => if target = processNumber then .done [] 0 else .done [] 1
  | [_, target] | [target] => if target = processNumber then .leave none else .done [] 1
  | _ => .done [] 2

/-- Whether a word in front of a command gives a variable a value. -/
def isAssignment (word : String) : Bool :=
  let name := word.toList.takeWhile (· != '=')
  name.length < word.length && !name.isEmpty && !(name.headD '0').isDigit
    && name.all fun c => c.isAlphanum || c = '_'

/-- Run one command. A name that is no built-in command gives status 127. -/
def perform (status : Nat) (args : List String) : Effect :=
  match args.dropWhile isAssignment with
  | [] => .done [] 0
  | "echo" :: rest => echo rest
  | "printf" :: rest => printf rest
  | "exit" :: rest => exit status rest
  | "kill" :: rest => kill rest
  | ":" :: _ | "true" :: _ => .done [] 0
  | "false" :: _ => .done [] 1
  | _ => .done [] 127

/-- Whether a command runs after one with the given status. -/
def Joint.allows (j : Joint) (status : Nat) : Bool :=
  match j with
  | .thenAlways => true
  | .thenIfDone => status = 0
  | .thenIfFailed => status ≠ 0

/-- Run commands in order. An empty command changes nothing. -/
def runAll : (status : Nat) → List (Joint × Simple) → List UInt8 × Option Nat
  | status, [] => ([], some status)
  | status, (joint, command) :: rest =>
    if command.words.isEmpty || !joint.allows status then runAll status rest
    else match perform status (arguments status command.words) with
      | .leave status => ([], status)
      | .done output status =>
        let (more, last) := runAll status rest
        ((if command.keepsOutput then output else []) ++ more, last)

/-- What comes of a line. One that cannot be read ends with status 2. -/
def launch (line : String) : Launch :=
  match lexemes line >>= commandsFrom .thenAlways ⟨[], true⟩ with
  | none => .finished ByteArray.empty (some 2)
  | some commands =>
    let (output, status) := runAll 0 commands
    .finished ⟨output.toArray⟩ (status.map Int.ofNat)

/-- The commands that the shell has. -/
def names : List String := ["echo", "printf", "exit", "kill", "true", "false"]

end Builtins

/-- The launcher that knows built-in commands only. -/
def Launcher.builtins : Launcher := ⟨fun _ line => Builtins.launch line⟩

end CommandScript
