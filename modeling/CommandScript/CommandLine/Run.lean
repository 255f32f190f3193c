import CommandScript.CommandLine.Folder
import CommandScript.CommandLine.Options
import CommandScript.Program.Printer
import CommandScript.Repl.Basic

/-!
# CommandLine/Run — what the program does with its arguments

`CommandLine.run` reads the arguments and runs a text, a script or an interactive session. Everything it
looks at is in `Surroundings`, and everything it leaves is in `Outcome`.
-/

namespace CommandScript

namespace CommandLine

/-- What the program finds when it starts. -/
structure Surroundings where
  /-- The launcher of a program called with a flag. -/
  launcher : (program flag : String) → Launcher
  /-- The program that launches command lines unless an option names one. -/
  shell : String
  /-- The text of a file. -/
  readFile : String → Except String String
  commands : CommandSet
  /-- What can be read from the standard input. -/
  input : String

/-- What the program leaves when it ends. -/
structure Outcome where
  code : Nat
  output : ByteArray
  errors : String

namespace Outcome

/-- Success with some output. -/
def success (output : ByteArray) : Outcome := ⟨0, output, ""⟩

/-- Failure with a message, after some output. -/
def failure (output : ByteArray) (message : String) : Outcome := ⟨1, output, message ++ "\n"⟩

/-- The arguments make no sense. -/
def usage : Outcome := ⟨2, ByteArray.empty, "Error: invalid arguments\n\nFor more information, try '--help'.\n"⟩

end Outcome

/-- The flag that stands before a command line unless an option names one. -/
def defaultFlag : String := "-c"

/-- The program with its version. -/
def versionText : String := "orca 0.1.0\n"

/-- How the program is called. -/
def helpText : String :=
  "Usage: orca [OPTIONS] [SCRIPT] [ARGS]...\n\nOptions:\n"
    ++ "  -c, --command <SOURCE>   Run SOURCE and exit\n"
    ++ "      --shell <PROGRAM>    Program that launches command lines\n"
    ++ "      --shell-flag <FLAG>  Flag passed to the launcher before the command line\n"
    ++ "      --dump-ast           Print the parsed program instead of running it\n"
    ++ "  -v, --verbose...         Raise the log level\n"
    ++ "  -h, --help               Print help\n"
    ++ "  -V, --version            Print version\n"

/-- The host of a run. -/
def Surroundings.host (w : Surroundings) (o : Options) (argv : List String) : Host :=
  ⟨w.launcher (o.shell.getD w.shell) (o.shellFlag.getD defaultFlag), argv, defaultCallDepth⟩

/-- Run a text. With `showsValue` its value is printed, unless it is `none`. -/
def runText (w : Surroundings) (o : Options) (argv : List String) (showsValue : Bool) (source : String) :
    Outcome :=
  match parseProgram w.commands source with
  | .error e => .failure ByteArray.empty (e.render .off source)
  | .ok p =>
    if o.dumpProgram then .success p.text.toUTF8
    else
      let host := w.host o argv
      match p.run host (Machine.start host) with
      | .error e m => .failure m.output (e.render .off source)
      | .ok none m | .ok (some .none) m => .success m.output
      | .ok (some v) m =>
        .success (if showsValue then m.output ++ (m.store.display v ++ "\n").toUTF8 else m.output)

/-- A script that cannot be read. -/
def unreadable (path reason : String) : Outcome :=
  .failure ByteArray.empty
    ("Error: Failed to read script: " ++ path ++ "\n\nCaused by:\n    " ++ reason)

/-- An interactive session. -/
def Surroundings.repl (w : Surroundings) (o : Options) : Repl := ⟨w.host o [], w.commands, .off⟩

/-- Do what the options ask for. A text comes before a script, whose name is then the first argument. -/
def runOptions (w : Surroundings) (o : Options) : Outcome :=
  match o.command, o.script with
  | some source, script => runText w o (script.toList ++ o.args) true source
  | none, some path =>
    match w.readFile path with
    | .error reason => unreadable path reason
    | .ok source => runText w o o.args false source
  | none, none =>
    let repl := w.repl o
    .success ((Machine.start repl.host).after (repl.session (Repl.typedLines w.input))).output

/-- Run the program with the given arguments. -/
def run (w : Surroundings) (args : List String) : Outcome :=
  match Options.read args with
  | none => .usage
  | some .help => .success helpText.toUTF8
  | some .version => .success versionText.toUTF8
  | some (.run o) => runOptions w o

end CommandLine

end CommandScript
