/-!
# Number/Exact — the value a finite double stands for

A finite double is a sign and a natural number times a power of two. `Exact.of?` reads the three off
the bits; `wholeNumber?` and `ceiling` then answer in natural numbers what indexing and counting ask
of a number, with no rounding in between.
-/

namespace CommandScript

/-- A finite number as `± mantissa · 2 ^ exponent`. -/
structure Exact where
  negative : Bool
  mantissa : Nat
  exponent : Int
deriving DecidableEq

namespace Exact

/-- Read sign, mantissa and exponent off the bits; infinities and the undefined number have none. -/
def of? (x : Float) : Option Exact :=
  let bits := x.toBits.toNat
  let negative := decide (Nat.pow 2 63 ≤ bits)
  let field : Nat := bits / Nat.pow 2 52 % Nat.pow 2 11
  let fraction : Nat := bits % Nat.pow 2 52
  if field = Nat.pow 2 11 - 1 then none
  else if field = 0 then some ⟨negative, fraction, -1074⟩
  else some ⟨negative, Nat.pow 2 52 + fraction, (field : Int) - 1075⟩

/-- The magnitude is `numerator / denominator`. -/
def numerator (x : Exact) : Nat := x.mantissa * Nat.pow 2 x.exponent.toNat

/-- A power of two. -/
def denominator (x : Exact) : Nat := Nat.pow 2 (-x.exponent).toNat

/-- The natural number that equals `x`, if there is one; zero of either sign is `0`. -/
def wholeNumber? (x : Exact) : Option Nat :=
  if x.negative && x.mantissa != 0 then none
  else if x.numerator % x.denominator = 0 then some (x.numerator / x.denominator)
  else none

/-- The least natural number that is not below `x`. -/
def ceiling (x : Exact) : Nat :=
  if x.negative then 0 else (x.numerator + x.denominator - 1) / x.denominator

end Exact

namespace Number

/-- The natural number a double equals, if there is one. -/
def wholeNumber? (x : Float) : Option Nat := (Exact.of? x).bind Exact.wholeNumber?

/-- The least natural number not below `x`, cut off at the largest 64-bit count. Infinity is cut off
too; what is not a positive number counts nothing. -/
def count (x : Float) : Nat :=
  if x ≤ 0 then 0
  else match Exact.of? x with
    | some e => min e.ceiling (Nat.pow 2 64 - 1)
    | none => if x.isNaN then 0 else Nat.pow 2 64 - 1

end Number

end CommandScript
