import CommandScript.Error

/-!
# Value/Range — half-open ranges of numbers

`Range.make` checks the three numbers and finds the missing step. The values of a range are
`start + i · step` for `i = 0, 1, …` as long as they lie before the end in the direction of the step;
each is computed from its index, so errors of rounding do not add up. An index has 64 bits, and the one
behind the last is the first again. So a range that has a value at every index has no end (`Range.Ends`),
as where the steps are too small to be seen beside its start.
-/

namespace CommandScript

/-- The range from `start` up to `stop`, without it, in steps of `step`. -/
structure Range where
  start : Float
  stop : Float
  step : Float

namespace Range

/-- Check the numbers of a range. Without a step it goes one by one from `start` towards `stop`. -/
def make (start stop : Float) (step : Option Float) : Except RangeFault Range :=
  if !(start.isFinite && stop.isFinite) then .error (.infiniteBounds start stop)
  else match step with
    | some step =>
      if step == 0 || !step.isFinite then .error (.badStep step)
      else if (stop > start && step < 0) || (stop < start && step > 0) then
        .error (.wrongDirection start stop step)
      else .ok ⟨start, stop, step⟩
    | none => .ok ⟨start, stop, if stop < start then -1 else 1⟩

/-- The value at an index, if the range reaches it. -/
def value? (r : Range) (i : UInt64) : Option Float :=
  let value := r.start + i.toFloat * r.step
  let within := if r.step > 0 then decide (value < r.stop) else decide (value > r.stop)
  if within then some value else none

/-- The values from an index on, at most `n` of them. -/
def valuesFrom (r : Range) (i : UInt64) : (n : Nat) → List Float
  | 0 => []
  | n + 1 =>
    match r.value? i with
    | some x => x :: r.valuesFrom (i + 1) n
    | none => []

/-- The first `n` values, or all if there are fewer. -/
def take (r : Range) (n : Nat) : List Float := r.valuesFrom 0 n

/-- The range does not reach every index, so that its values come to an end. -/
def Ends (r : Range) : Prop := ∃ i, r.value? i = none

/-- How many steps fit between the bounds. -/
def length (r : Range) : Nat := Number.count ((r.stop - r.start) / r.step)

/-- Whether no step fits. -/
def isEmpty (r : Range) : Bool := r.length == 0

/-- Whether the three numbers agree. -/
def equals (r s : Range) : Bool := r.start == s.start && r.stop == s.stop && r.step == s.step

/-- The text of a range; the step is always written. -/
def text (r : Range) : String :=
  Number.display r.start ++ ".." ++ Number.display r.stop ++ ".." ++ Number.display r.step

end Range

end CommandScript
