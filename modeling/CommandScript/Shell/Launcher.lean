import CommandScript.Error
import CommandScript.Text.Utf8

/-!
# Shell/Launcher — running command lines

A launcher takes a command line and says what came of it: it could not be started, or it wrote bytes and
ended with a status. Commands leave traces, so this may depend on the lines that were started before.
`Launch.capture` wants the output as text, `Launch.stream` passes it on.
-/

namespace CommandScript

/-- What came of a command line. Without a status it was ended by a signal. -/
inductive Launch
  | failed (reason : String)
  | finished (output : ByteArray) (status : Option Int)

/-- Something that runs command lines. What comes of a line may depend on those before it, of which the
last stands first. -/
structure Launcher where
  start : (earlier : List String) → (line : String) → Launch

namespace Launcher

/-- The launcher of a program that does not exist. -/
def missing : Launcher := ⟨fun _ _ => .failed "No such file or directory (os error 2)"⟩

/-- Hand a line to the launcher; it is one of the lines before the next. A line with a NUL character cannot
be handed to any program. -/
def launch (l : Launcher) (earlier : List String) (line : String) : Launch × List String :=
  if line.toList.contains '\x00' then (.failed "nul byte found in provided data", earlier)
  else (l.start earlier line, line :: earlier)

end Launcher

namespace Launch

/-- Whether a status means success. -/
def succeeded (status : Option Int) : Bool := status == some 0

/-- Drop one line feed at the end, with a carriage return before it. -/
def dropLineEnd (text : String) : String :=
  match text.toList.reverse with
  | '\n' :: '\r' :: rest => String.ofList rest.reverse
  | '\n' :: rest => String.ofList rest.reverse
  | _ => text

/-- The output of a command as text, without the end of its last line. -/
def capture (line : String) : Launch → Except Error String
  | .failed reason => .error (.notLaunched line reason)
  | .finished output status =>
    if succeeded status then .ok (dropLineEnd (Utf8.decode output))
    else .error (.commandFailed line status)

/-- The output of a command as it is, and whether the command failed. -/
def stream (line : String) : Launch → ByteArray × Except Error Unit
  | .failed reason => (ByteArray.empty, .error (.notLaunched line reason))
  | .finished output status =>
    (output, if succeeded status then .ok () else .error (.commandFailed line status))

end Launch

end CommandScript
