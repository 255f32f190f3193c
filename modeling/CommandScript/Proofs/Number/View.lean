import CommandScript.Number.Exact

/-!
# Proofs/Number/View — what a number is, apart from its bits

`Number.view` takes a number apart: undefined, infinite, zero or finite, with its sign. Arithmetic
and comparison look at nothing else. Comparison does not see the sign of a zero, so that a number
can be exchanged for the one that its display stands for (`Number.shown`).
-/

namespace CommandScript

open Float.Model (UnpackedFloat)
open Float.Model.UnpackedFloat (Sign)

namespace Number

/-- What the number is: undefined, infinite, zero or finite. -/
def view (x : Float) : UnpackedFloat := x.toModel.unpack

theorem lt_iff {x y : Float} : x < y ↔ (view x).compare (view y) = some .lt := by
  change decide (UnpackedFloat.lt (view x) (view y) = true) = true ↔ _
  simp [UnpackedFloat.lt]

theorem beq_iff {x y : Float} : (x == y) = true ↔ (view x).compare (view y) = some .eq := by
  change ((view x).compare (view y) == some .eq) = true ↔ _
  exact beq_iff_eq

theorem add_eq (x y : Float) : x + y = ⟨.pack (.add .binary64 (view x) (view y))⟩ := rfl

theorem mul_eq (x y : Float) : x * y = ⟨.pack (.mul .binary64 (view x) (view y))⟩ := rfl

theorem view_zero : view 0 = .zero .positive := rfl

/-! ## Comparison -/

variable {u : UnpackedFloat}

theorem compare_self (h : u.isFinite = true) : u.compare u = some .eq := by
  cases u with
  | infinity | notANumber => exact absurd h Bool.false_ne_true
  | zero s => rfl
  | finite s m e hm =>
    have hsame : (compare e e).then (compare m m) = .eq := by simp
    cases s with
    | negative => exact congrArg (some ·.swap) hsame
    | positive => exact congrArg some hsame

theorem compare_swap (u v : UnpackedFloat) :
    u.compare v = (v.compare u).map Ordering.swap := by
  have hmagnitude (e e' : Int) (m m' : Nat) : (compare e e').then (compare m m')
      = ((compare e' e).then (compare m' m)).swap := by
    rw [Ordering.swap_then, ← Std.OrientedCmp.eq_swap, ← Std.OrientedCmp.eq_swap]
  cases u with
  | notANumber => cases v <;> rfl
  | infinity s => cases v with
    | notANumber => cases s <;> rfl
    | infinity t | zero t | finite t m e hm => cases s <;> cases t <;> rfl
  | zero s => cases v with
    | notANumber => rfl
    | infinity t | zero t | finite t m e hm => cases t <;> rfl
  | finite s m e hm => cases v with
    | notANumber => cases s <;> rfl
    | infinity t | zero t => cases s <;> cases t <;> rfl
    | finite t m' e' hm' =>
      cases s <;> cases t
      · exact congrArg (some ·.swap) (hmagnitude e e' m m')
      · rfl
      · rfl
      · exact congrArg some (hmagnitude e e' m m')

theorem not_lt_of_lt {x y : Float} (h : x < y) : ¬ y < x := by
  rw [lt_iff] at h ⊢
  rw [compare_swap, h]
  decide

/-- Comparison does not see the sign of a zero. -/
theorem compare_zero_left (s s' : Sign) (u : UnpackedFloat) :
    UnpackedFloat.compare (.zero s) u = UnpackedFloat.compare (.zero s') u := by
  cases u with
  | infinity t | finite t m e hm => cases t <;> rfl
  | _ => rfl

theorem view_of_beq_zero {x : Float} (h : (x == 0) = true) : ∃ s, view x = .zero s := by
  rw [beq_iff, view_zero] at h
  cases hview : view x with
  | zero s => exact ⟨s, rfl⟩
  | notANumber =>
    rw [hview] at h
    cases h
  | infinity s | finite s m e hm =>
    rw [hview] at h
    cases s <;> cases h

/-- The number that the display of a number stands for: every zero is the one without a sign. -/
def shown (x : Float) : Float := if x == 0 then 0 else x

variable {x y : Float}

theorem compare_shown_left (x : Float) (u : UnpackedFloat) :
    (view (shown x)).compare u = (view x).compare u := by
  unfold shown
  split
  · next h =>
    obtain ⟨s, hs⟩ := view_of_beq_zero h
    rw [hs, view_zero, compare_zero_left]
  · rfl

theorem compare_shown (x y : Float) :
    (view (shown x)).compare (view (shown y)) = (view x).compare (view y) := by
  rw [compare_shown_left, compare_swap, compare_shown_left, ← compare_swap]

theorem shown_lt_iff : shown x < shown y ↔ x < y := by
  rw [lt_iff, lt_iff, compare_shown]

theorem isFinite_shown (h : x.isFinite = true) : (shown x).isFinite = true := by
  unfold shown
  split
  · rfl
  · exact h

theorem beq_shown (h : x.isFinite = true) : (x == shown x) = true := by
  rw [beq_iff, compare_swap, compare_shown_left, compare_self (u := view x) h]
  rfl

end Number

end CommandScript
