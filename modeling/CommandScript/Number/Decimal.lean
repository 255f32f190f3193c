import CommandScript.Number.Exact

/-!
# Number/Decimal — decimal text of a number, and back

A number is written with the fewest digits that read back as the same number, always positionally
and never with an exponent: `0.1`, `1000000000000000000000`, `0.0000001`. `Decimal.read` turns digits
into the nearest number; `Decimal.shortest` looks for the first grid of decimals, one digit after the
other, on which one of the two neighbours of the number reads back. Of two such neighbours the nearer
one is taken, and of two equally near ones the upper.
-/

namespace CommandScript

/-- The non-negative decimal `digits · 10 ^ power`. -/
structure Decimal where
  digits : Nat
  power : Int
deriving DecidableEq

namespace Decimal

/-- The nearest number; a decimal halfway between two goes to the one with the even mantissa. -/
def read (d : Decimal) : Float :=
  Float.ofScientific d.digits (decide (d.power < 0)) d.power.natAbs

/-- Positional text: zeros fill up to the units, and what lies below them follows a point. -/
def text (d : Decimal) : String :=
  let digits := Nat.toDigits 10 d.digits
  if 0 ≤ d.power then String.ofList (digits ++ List.replicate d.power.toNat '0')
  else
    let places := d.power.natAbs
    let padded := List.replicate (places + 1 - digits.length) '0' ++ digits
    let units := padded.length - places
    String.ofList (padded.take units ++ '.' :: padded.drop units)

/-- Drop up to `n` trailing zeros of the digits. -/
def normalize : Nat → Decimal → Decimal
  | 0, d => d
  | n + 1, d =>
    if d.digits % 10 = 0 && d.digits != 0 then normalize n ⟨d.digits / 10, d.power + 1⟩ else d

/-- How many decimal places make the magnitude of `x` a number of at least eighteen digits: a
magnitude of at least `2 ^ 59` needs none. -/
def scale (x : Exact) : Nat :=
  let size := (Nat.log2 x.mantissa : Int) + 1 + x.exponent
  if 60 ≤ size then 0 else (60 - size).toNat * 30103 / 100000 + 1

/-- Whether `x` lies at least as near to `(digits + 1) · 10 ^ power` as to `digits · 10 ^ power`. -/
def upperIsNear (x : Exact) (d : Decimal) : Bool :=
  (2 * d.digits + 1) * Nat.pow 10 d.power.toNat * x.denominator
    ≤ 2 * x.numerator * Nat.pow 10 (-d.power).toNat

/-- The neighbour of `x` on the grid that reads back as `target`, given the lower neighbour. -/
def candidate? (x : Exact) (target : Float) (lower : Decimal) : Option Decimal :=
  let upper : Decimal := ⟨lower.digits + 1, lower.power⟩
  match lower.read == target, upper.read == target with
  | true, true => some (if upperIsNear x lower then upper else lower)
  | true, false => some lower
  | false, true => some upper
  | false, false => none

/-- The shortest decimal that reads back as the positive number `target`, whose exact value is `x`. -/
def shortest (x : Exact) (target : Float) : Decimal :=
  let places := scale x
  let scaled := x.numerator * Nat.pow 10 places / x.denominator
  let length := (Nat.toDigits 10 scaled).length
  let lower (n : Nat) : Decimal :=
    ⟨scaled / Nat.pow 10 (length - n), (length : Int) - (n : Int) - (places : Int)⟩
  let found := (List.range 17).findSome? fun n => candidate? x target (lower (n + 1))
  normalize 20 (found.getD (lower 17))

end Decimal

namespace Number

/-- Plain text of a number: sign, shortest digits, no exponent. Negative zero keeps its sign. -/
def text (x : Float) : String :=
  match Exact.of? x with
  | none => if x.isNaN then "NaN" else if x < 0 then "-inf" else "inf"
  | some e =>
    let sign := if e.negative then "-" else ""
    sign ++ if e.mantissa = 0 then "0" else (Decimal.shortest e x.abs).text

/-- Text of a number as a value: plain text, but every zero is `0`. -/
def display (x : Float) : String := if x == 0 then "0" else text x

/-- The natural number that a list of decimal digits spells. -/
def ofDigits (digits : List Char) : Nat :=
  digits.foldl (fun n c => 10 * n + (c.toNat - '0'.toNat)) 0

/-- The number written as `whole` and, behind a point, `fraction`. -/
def ofLiteral (whole fraction : List Char) : Float :=
  Decimal.read ⟨ofDigits (whole ++ fraction), -(fraction.length : Int)⟩

end Number

end CommandScript
