import CommandScript.Shell.Launcher

/-!
# Shell/Rehearsal — a launcher that runs nothing

A rehearsal shows each command line between angle brackets instead of running it, so that a script can be
tried without touching anything. A few lines act out what commands do: print bytes, stay silent, end with a
status or by a signal. It stands in for programs that are not part of this development, and no result rests
on it: they hold for every launcher.
-/

namespace CommandScript

namespace Rehearsal

/-- The value of a hexadecimal digit. -/
def hexDigit? (c : Char) : Option Nat :=
  if '0' ≤ c && c ≤ '9' then some (c.toNat - '0'.toNat)
  else if 'a' ≤ c && c ≤ 'f' then some (c.toNat - 'a'.toNat + 10)
  else if 'A' ≤ c && c ≤ 'F' then some (c.toNat - 'A'.toNat + 10)
  else none

/-- The bytes spelled by pairs of hexadecimal digits. -/
def hexBytes? : List Char → Option (List UInt8)
  | [] => some []
  | [_] => none
  | a :: b :: rest => do
    let high ← hexDigit? a
    let low ← hexDigit? b
    return UInt8.ofNat (16 * high + low) :: (← hexBytes? rest)

/-- A status is written in decimal digits and is at most 255. -/
def status? (text : List Char) : Option Nat :=
  if text.isEmpty || !text.all Char.isDigit then none
  else
    let n := text.foldl (fun n c => 10 * n + (c.toNat - '0'.toNat)) 0
    if n ≤ 255 then some n else none

/-- What follows a first word and one blank. -/
def behind? (word line : String) : Option (List Char) :=
  let start := word.toList ++ [' ']
  if start.isPrefixOf line.toList then some (line.toList.drop start.length) else none

/-- The line between angle brackets. Lines that start with `fail` end with status 9. -/
def shown (line : String) : Launch :=
  .finished ("<" ++ line ++ ">\n").toUTF8 (some (if "fail".toList.isPrefixOf line.toList then 9 else 0))

/-- What comes of a line, given the flag that stands before it. -/
def launch (flag line : String) : Launch :=
  if line = "showflag" then .finished (flag ++ "\n").toUTF8 (some 0)
  else if line = "silent" then .finished ByteArray.empty (some 0)
  else if line = "die" then .finished ByteArray.empty none
  else match behind? "exit" line >>= status? with
    | some n => .finished ByteArray.empty (some n)
    | none => match behind? "raw" line >>= hexBytes? with
      | some bytes => .finished ⟨bytes.toArray⟩ (some 0)
      | none => shown line

end Rehearsal

/-- The launcher that rehearses command lines, called with the given flag. -/
def Launcher.rehearsal (flag : String) : Launcher := ⟨fun _ line => Rehearsal.launch flag line⟩

end CommandScript
