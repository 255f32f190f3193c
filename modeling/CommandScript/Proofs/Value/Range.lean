import CommandScript.Proofs.Number.View
import CommandScript.Value.Range

/-!
# Proofs/Value/Range — ranges are sound

A range that was made has finite numbers and a step that leads somewhere (`Range.IsSound`), and it
can be made again with its step written out.
-/

namespace CommandScript

namespace Range

open Number

/-- The numbers are finite, and the step is not zero and does not lead away from the end. -/
structure IsSound (r : Range) : Prop where
  start_finite : r.start.isFinite = true
  stop_finite : r.stop.isFinite = true
  step_finite : r.step.isFinite = true
  step_ne_zero : ¬ (r.step == 0) = true
  not_backwards : ¬ (r.start < r.stop ∧ r.step < 0)
  not_forwards : ¬ (r.stop < r.start ∧ 0 < r.step)

variable {r : Range}

theorem IsSound.make (h : r.IsSound) : make r.start r.stop (some r.step) = .ok r := by
  obtain ⟨hstart, hstop, hstep, hzero, hback, hforth⟩ := h
  simp [Range.make, hstart, hstop, hstep, hzero, hback, hforth]

/-- **What was made is sound**, with a step or without. -/
theorem isSound_of_make {start stop : Float} {step : Option Float}
    (h : Range.make start stop step = .ok r) : r.IsSound := by
  unfold Range.make at h
  split at h
  · exact absurd h nofun
  next hbounds =>
  simp only [Bool.not_eq_true', Bool.and_eq_false_iff, not_or, Bool.not_eq_false] at hbounds
  obtain ⟨hstart, hstop⟩ := hbounds
  split at h
  · next step =>
    split at h
    · exact absurd h nofun
    next hstep =>
    split at h
    · exact absurd h nofun
    next hdirection =>
    obtain rfl := Except.ok.inj h
    simp only [Bool.or_eq_true, Bool.not_eq_true', not_or, Bool.not_eq_false] at hstep
    simp only [Bool.or_eq_true, Bool.and_eq_true, decide_eq_true_eq, not_or] at hdirection
    exact ⟨hstart, hstop, hstep.2, hstep.1, hdirection.1, hdirection.2⟩
  · obtain rfl := Except.ok.inj h
    by_cases hdown : stop < start
    · have hstep : (-1 : Float).isFinite = true ∧ ¬ ((-1 : Float) == 0) = true
          ∧ ¬ (0 : Float) < -1 := by
        decide +kernel
      simp only [if_pos hdown]
      exact ⟨hstart, hstop, hstep.1, hstep.2.1, fun hup => not_lt_of_lt hup.1 hdown,
        fun hup => hstep.2.2 hup.2⟩
    · have hstep : (1 : Float).isFinite = true ∧ ¬ ((1 : Float) == 0) = true
          ∧ ¬ (1 : Float) < 0 := by
        decide +kernel
      simp only [if_neg hdown]
      exact ⟨hstart, hstop, hstep.1, hstep.2.1, fun hup => hstep.2.2 hup.2, fun hup => hdown hup.1⟩

/-- The range as its text has it. -/
def shown (r : Range) : Range := ⟨Number.shown r.start, Number.shown r.stop, Number.shown r.step⟩

/-- The sign of a zero makes no difference. -/
theorem IsSound.shown (h : r.IsSound) : r.shown.IsSound where
  start_finite := isFinite_shown h.start_finite
  stop_finite := isFinite_shown h.stop_finite
  step_finite := isFinite_shown h.step_finite
  step_ne_zero := by
    rw [beq_iff, Range.shown, compare_shown_left, ← beq_iff]
    exact h.step_ne_zero
  not_backwards := by
    rintro ⟨hup, hback⟩
    rw [lt_iff, Range.shown, compare_shown_left, ← lt_iff] at hback
    exact h.not_backwards ⟨shown_lt_iff.1 hup, hback⟩
  not_forwards := by
    rintro ⟨hdown, hforth⟩
    refine h.not_forwards ⟨shown_lt_iff.1 hdown, ?_⟩
    rwa [lt_iff, Range.shown, compare_swap, compare_shown_left, ← compare_swap, ← lt_iff] at hforth

theorem IsSound.equals_shown (h : r.IsSound) : r.equals r.shown = true := by
  simp [equals, Range.shown, beq_shown h.start_finite, beq_shown h.stop_finite,
    beq_shown h.step_finite]

end Range

end CommandScript
