import CommandScript.Repl.Help
import CommandScript.Session

/-!
# Repl/Basic — entries of an interactive session

An entry is a meta command, recognised by its name alone, or a program. `Repl.enter` handles one entry and
says whether the session goes on; `Repl.readLine` collects lines until an entry is complete. An entry goes
on in the next line while more brackets are open than closed, outside quotes and comments.
-/

namespace CommandScript

namespace Continuation

/-- What the characters belong to. -/
inductive Mode
  | code
  | quoted (quote : Char)
  | comment
deriving DecidableEq

/-- What a bracket adds to the number of open brackets. -/
def weight (c : Char) : Int :=
  if c = '(' || c = '[' || c = '\x7b' then 1
  else if c = ')' || c = ']' || c = '\x7d' then -1
  else 0

/-- Whether a backslash hides the character behind it: not between single quotes, nor in a comment. -/
def hidesNext : Mode → Char → Bool
  | .code, c => c == '\\'
  | .quoted q, c => c == '\\' && q == '"'
  | .comment, _ => false

/-- What the characters behind `c` belong to. -/
def modeAfter : Mode → Char → Mode
  | .code, c => if c = '\'' || c = '"' then .quoted c else if c = '#' then .comment else .code
  | .quoted q, c => if c = q then .code else .quoted q
  | .comment, c => if c = '\n' then .code else .comment

/-- Open less closed brackets; the first character is skipped if it is hidden. -/
def balance : (hidden : Bool) → Mode → List Char → Int
  | _, _, [] => 0
  | true, mode, _ :: cs => balance false mode cs
  | false, mode, c :: cs =>
    if hidesNext mode c then balance true mode cs
    else (if mode = .code then weight c else 0) + balance false (modeAfter mode c) cs

end Continuation

/-- Whether more brackets are open than closed. -/
def needsContinuation (source : String) : Bool :=
  0 < Continuation.balance false .code source.toList

/-- Commands to the session itself. -/
inductive MetaCommand
  | reset | help | quit | exit | vars
deriving DecidableEq

namespace MetaCommand

/-- How the command is entered. -/
def text : MetaCommand → String
  | reset => ":reset"
  | help => "help"
  | quit => "quit"
  | exit => "exit"
  | vars => "vars"

/-- Every command, longer names first. -/
def all : List MetaCommand := [reset, help, quit, exit, vars]

/-- The command that an entry is, white space around it aside. -/
def of? (entry : String) : Option MetaCommand := all.find? fun c => c.text == Text.trim entry

end MetaCommand

/-- What came of an entry taken as a meta command. -/
inductive MetaResult
  | done
  | message (text : String)
  | leave
  | notACommand
deriving DecidableEq

/-- What surrounds an interactive session. -/
structure Repl where
  host : Host
  commands : CommandSet
  paint : Paint

namespace Repl

/-- The value of a variable in the list of variables: strings stand in quotes. -/
def describe (s : Store) : Value → String
  | .string r => "'" ++ s.string r ++ "'"
  | v => s.display v

/-- The list of variables. -/
def listVariables (repl : Repl) (m : Machine) : String :=
  if m.bindings.isEmpty then "No variables defined"
  else "\n".intercalate <| m.bindings.map fun (name, v) =>
    "  " ++ repl.paint.apply (.plain .cyan) name ++ " = " ++ describe m.store v

/-- Carry out an entry if it is a meta command. -/
def runMeta (repl : Repl) (entry : String) : Exec MetaResult := do
  match MetaCommand.of? entry with
  | none => return .notACommand
  | some .help =>
    (Help.lines repl.paint).forM Exec.printLine
    return .done
  | some .vars => return .message (repl.listVariables (← get))
  | some .reset =>
    Exec.reset repl.host
    return .message (repl.paint.apply (.plain .brightGreen) "Environment cleared")
  | some .quit | some .exit => return .leave

/-- Say goodbye. -/
def farewell (repl : Repl) : Exec Unit :=
  Exec.printLine (repl.paint.apply (.plain .brightCyan) "Goodbye!")

/-- Report an error of running. -/
def report (repl : Repl) (e : Error) : Exec Unit :=
  Exec.printLine (repl.paint.apply (.strong .brightRed) "Error:" ++ " "
    ++ repl.paint.apply (.plain .red) e.message)

/-- Run an entry as a program and print its value, unless it is `none`. -/
def evaluate (repl : Repl) (entry : String) : Exec Unit := do
  match parseProgram repl.commands entry with
  | .error e =>
    Exec.printLine (repl.paint.apply (.plain .red) (e.render repl.paint entry))
  | .ok p =>
    match ← attempt (p.run repl.host) with
    | .error e => repl.report e
    | .ok none | .ok (some .none) => return ()
    | .ok (some v) => Exec.printLine (← Exec.display v)
where
  /-- Run a computation and give back what it ends with, a failure included. -/
  attempt (x : Exec (Option Value)) : Exec (Except Error (Option Value)) := fun m =>
    match x m with
    | .ok v m => .ok (.ok v) m
    | .error e m => .ok (.error e) m

/-- Handle an entry; say whether the session goes on. -/
def enter (repl : Repl) (entry : String) : Exec Bool := do
  match ← repl.runMeta entry with
  | .done => return true
  | .message text =>
    Exec.printLine text
    return true
  | .leave =>
    repl.farewell
    return false
  | .notACommand =>
    repl.evaluate entry
    return true

/-- What is printed first. -/
def banner (repl : Repl) : Exec Unit := do
  Exec.printLine (repl.paint.apply (.strong .brightCyan) "Orca REPL")
  Exec.printLine ("Type " ++ repl.paint.apply (.plain .brightGreen) "help" ++ " for help, "
    ++ repl.paint.apply (.plain .brightRed) "quit" ++ " to exit.")

/-- Asks for a line: the first of an entry, or a further one. -/
def prompt (pending : String) : String := if pending.isEmpty then "orca> " else "  ... "

/-- Take one more line: either the entry goes on, or it is handled. Gives the lines of an entry that goes
on, or nothing if the session is over. -/
def readLine (repl : Repl) (pending line : String) : Exec (Option String) := do
  let entry := if pending.isEmpty then line else pending ++ "\n" ++ line
  if needsContinuation entry then return some entry
  else if (Text.trim entry).isEmpty then return some ""
  else if ← repl.enter entry then return some ""
  else return none

/-- Take lines until the session is over or there are no more. A prompt stands before every line, also
before the end. -/
def readLines (repl : Repl) : (pending : String) → List String → Exec Unit
  | pending, [] => do
    Exec.print (prompt pending)
    repl.farewell
  | pending, line :: lines => do
    Exec.print (prompt pending)
    match ← repl.readLine pending line with
    | some pending => repl.readLines pending lines
    | none => return ()

/-- A line as it was meant: a backspace takes back the character before it. -/
def typed (line : String) : String :=
  String.ofList (line.toList.foldl (fun back c => if c = '\x08' then back.tail else c :: back) []).reverse

/-- The lines of an input as they were meant. -/
def typedLines (input : String) : List String := (Text.lines input).map typed

/-- A session over the given lines. -/
def session (repl : Repl) (lines : List String) : Exec Unit := do
  repl.banner
  repl.readLines "" lines

end Repl

end CommandScript
