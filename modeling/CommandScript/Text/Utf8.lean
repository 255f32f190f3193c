/-!
# Text/Utf8 — bytes read as text

`decode` reads bytes as UTF-8 and never fails: where they are not well formed, the longest start of a
character that is well formed so far, or else the single byte, becomes one replacement character.
-/

namespace CommandScript

namespace Utf8

/-- An inclusive run of byte values. -/
structure ByteRun where
  first : UInt8
  last : UInt8

/-- Whether the run holds the byte. -/
def ByteRun.has (r : ByteRun) (b : UInt8) : Bool := r.first ≤ b && b ≤ r.last

/-- Any continuation byte. -/
def continuation : ByteRun := ⟨0x80, 0xbf⟩

/-- The runs in which the bytes after a leading byte must lie, or `none` if no character starts with
it. The first run after `E0`, `ED`, `F0` and `F4` is narrower: it keeps out overlong forms,
surrogates and values beyond the last code point. -/
def following (lead : UInt8) : Option (List ByteRun) :=
  if lead < 0x80 then some []
  else if lead < 0xc2 then none
  else if lead < 0xe0 then some [continuation]
  else if lead == 0xe0 then some [⟨0xa0, 0xbf⟩, continuation]
  else if lead == 0xed then some [⟨0x80, 0x9f⟩, continuation]
  else if lead < 0xf0 then some [continuation, continuation]
  else if lead == 0xf0 then some [⟨0x90, 0xbf⟩, continuation, continuation]
  else if lead < 0xf4 then some [continuation, continuation, continuation]
  else if lead == 0xf4 then some [⟨0x80, 0x8f⟩, continuation, continuation]
  else none

/-- How many bytes in front lie in the given runs, one after the other. -/
def matching : List ByteRun → List UInt8 → Nat
  | r :: rs, b :: bs => if r.has b then matching rs bs + 1 else 0
  | _, _ => 0

/-- The payload of a leading byte that `n` bytes follow. -/
def leadBits (lead : UInt8) (n : Nat) : Nat :=
  if n = 0 then lead.toNat else lead.toNat % Nat.pow 2 (6 - n)

/-- The character a leading byte and its continuation bytes spell. -/
def assemble (lead : UInt8) (rest : List UInt8) : Char :=
  Char.ofNat (rest.foldl (fun n b => n * 64 + b.toNat % 64) (leadBits lead rest.length))

/-- What stands for bytes that are no character. -/
def replacement : Char := Char.ofNat 0xfffd

/-- Read bytes as text; the first `skip` of them are part of a character already read. -/
def decodeFrom : (skip : Nat) → List UInt8 → List Char
  | _, [] => []
  | skip + 1, _ :: bs => decodeFrom skip bs
  | 0, b :: bs =>
    match following b with
    | none => replacement :: decodeFrom 0 bs
    | some runs =>
      let n := matching runs bs
      if n = runs.length then assemble b (bs.take n) :: decodeFrom n bs
      else replacement :: decodeFrom n bs

/-- The text that bytes spell, with a replacement character for every ill-formed piece. -/
def decode (bytes : ByteArray) : String := String.ofList (decodeFrom 0 bytes.toList)

end Utf8

end CommandScript
