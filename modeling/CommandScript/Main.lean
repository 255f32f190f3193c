import CommandScript.CommandLine.Run
import CommandScript.Shell.Builtins

/-!
# Main — the command line

Reads arguments, files and lines, hands them to `CommandLine.run` or to the steps of a session, and writes
what comes of it. Command lines are launched by the built-in shell, so no other program is ever started.
-/

namespace CommandScript

/-- The launcher of a program: only `sh` is known. -/
def builtinLauncher (program _flag : String) : Launcher :=
  if program = "sh" then .builtins else .missing

/-- Write what a computation printed and forget it. -/
def flushOutput (m : Machine) : IO Machine := do
  (← IO.getStdout).write m.output
  (← IO.getStdout).flush
  return { m with output := ByteArray.empty }

/-- Run steps of a session until it is over. -/
partial def interact (repl : Repl) (pending : String) (m : Machine) : IO Unit := do
  let m ← flushOutput (m.after (Exec.print (Repl.prompt pending)))
  let line ← (← IO.getStdin).getLine
  if line.isEmpty then
    let _ ← flushOutput (m.after repl.farewell)
  else
    let typed := (Repl.typedLines line).headD ""
    match repl.readLine pending typed m with
    | .ok (some pending) m => interact repl pending (← flushOutput m)
    | .ok none m | .error _ m =>
      let _ ← flushOutput m

/-- Read a script, if one is to be run. -/
def readScript (args : List String) : IO (Except String String) := do
  match Options.read args with
  | some (.run ⟨none, _, _, _, _, some path, _⟩) =>
    try
      return .ok (← IO.FS.readFile path)
    catch e =>
      return .error (toString e)
  | _ => return .error ReadFault.missing.message

/-- Whether the arguments ask for an interactive session. -/
def interactive? (args : List String) : Option Options :=
  match Options.read args with
  | some (.run o) => if o.command.isNone && o.script.isNone then some o else none
  | _ => none

/-- What the program finds when it starts. -/
def findSurroundings (args : List String) : IO CommandLine.Surroundings := do
  let script ← readScript args
  let shell := (← IO.getEnv "ORCA_SHELL").getD "sh"
  return ⟨builtinLauncher, shell, fun _ => script, CommandSet.ofList Builtins.names, ""⟩

end CommandScript

open CommandScript in
/-- The program. -/
def main (args : List String) : IO UInt32 := do
  let w ← findSurroundings args
  match interactive? args with
  | some o =>
    let repl := w.repl o
    interact repl "" ((Machine.start repl.host).after repl.banner)
    return 0
  | none =>
    let outcome := CommandLine.run w args
    (← IO.getStdout).write outcome.output
    (← IO.getStdout).flush
    (← IO.getStderr).putStr outcome.errors
    return outcome.code.toUInt32
