import CommandScript.Proofs.Number.Quotient
import CommandScript.Proofs.Value.Range
import Mathlib.Data.List.Range

/-!
# Proofs/Value/Progression — ranges of integers are exact

The values of a range are computed from their index, its length by a division. On integers both say
the same: the values are those of the progression `start, start + step, …` that lie before the end
(`IsProgression`), and the length is their number. The numbers on the way are at most one step
beyond the end, so with bounds and step of at most 51 bits none of them is rounded, apart from the
quotient; and what that counts does not change (`Number.count_ofInt_div`). So these ranges end
(`ends_ofInts`). Others do not: from zero to one in small enough steps there is a value at each of the
`2 ^ 64` indices (`not_ends_of_small_step`).
-/

namespace CommandScript

open Float.Model (UnpackedFloat)
open Float.Model.Format (binary64)

namespace Range

open Number

/-! ## What a range yields -/

/-- Asked from an index on, the range gives these values one after the other, and then no more. -/
inductive Yields (r : Range) : (i : UInt64) → List Float → Prop
  | stop {i : UInt64} : r.value? i = none → Yields r i []
  | next {i : UInt64} {x : Float} {xs : List Float} :
    r.value? i = some x → Yields r (i + 1) xs → Yields r i (x :: xs)

/-- What is taken of a range are the first of its values. -/
theorem Yields.valuesFrom_eq {r : Range} {i : UInt64} {xs : List Float} (h : r.Yields i xs) :
    ∀ n : Nat, r.valuesFrom i n = xs.take n := by
  induction h with
  | stop hnone =>
    intro n
    cases n with
    | zero => rfl
    | succ n => rw [valuesFrom, hnone, List.take_nil]
  | next hsome _ ih =>
    intro n
    cases n with
    | zero => rfl
    | succ n => rw [valuesFrom, hsome, List.take_succ_cons, ih]

/-- A range that reaches exactly the indices below `n`. -/
theorem yields_of_values {r : Range} {n : Nat} {f : Nat → Float}
    (hvalue : ∀ i < n, r.value? (.ofNat i) = some (f i)) (hstop : r.value? (.ofNat n) = none) :
    r.Yields 0 ((List.range n).map f) := by
  have hfrom : ∀ k i : Nat, i + k = n → r.Yields (.ofNat i) ((List.range' i k).map f) := by
    intro k
    induction k with
    | zero =>
      rintro i rfl
      exact .stop hstop
    | succ k ih =>
      intro i hi
      have hrest := ih (i + 1) (by omega)
      rw [UInt64.ofNat_add] at hrest
      rw [List.range'_succ, List.map_cons]
      exact .next (hvalue i (by omega)) hrest
  rw [List.range_eq_range']
  exact hfrom n 0 (Nat.zero_add n)

/-! ## Progressions -/

/-- The range between two integers. -/
def ofInts (a b step : Int) : Range := ⟨Float.ofInt a, Float.ofInt b, Float.ofInt step⟩

/-- Whether an integer lies before the end in the direction of the step. -/
def Before (step x b : Int) : Prop := if 0 < step then x < b else b < x

/-- The first `n` numbers of the progression from `a` in steps of `step`. -/
def progression (a step : Int) (n : Nat) : List Float :=
  (List.range n).map fun i : Nat => Float.ofInt (a + i * step)

/-- **The range is the progression from `a` towards `b`**: it yields `a`, `a + step` and so on as
long as they lie before `b`, what is taken of it are the first of these, and its length is how many
they are. -/
structure IsProgression (r : Range) (a b step : Int) : Prop where
  eq_ofInts : r = ofInts a b step
  exists_count : ∃ n : Nat, (∀ i : Nat, i < n ↔ Before step (a + i * step) b)
    ∧ r.Yields 0 (progression a step n)
    ∧ (∀ m, r.take m = (progression a step n).take m)
    ∧ r.length = n

/-- The step leads from `a` to `b`, or there is no way to go. -/
def Leads (a b step : Int) : Prop := step ≠ 0 ∧ (a = b ∨ step.sign = (b - a).sign)

/-- How many steps it takes not to be before the end any more. -/
def stepCount (a b step : Int) : Nat := ((b - a).natAbs + step.natAbs - 1) / step.natAbs

section Integers

variable {a b step : Int}

theorem leads_iff : Leads a b step ↔ (0 < step ∧ a ≤ b) ∨ (step < 0 ∧ b ≤ a) := by
  constructor
  · rintro ⟨hne, rfl | hsign⟩
    · omega
    obtain hneg | hpos := Int.lt_or_gt_of_ne hne
    · rw [Int.sign_eq_neg_one_of_neg hneg] at hsign
      have := Int.sign_eq_neg_one_iff_neg.1 hsign.symm
      omega
    · rw [Int.sign_eq_one_of_pos hpos] at hsign
      have := Int.sign_eq_one_iff_pos.1 hsign.symm
      omega
  · rintro (⟨hpos, hle⟩ | ⟨hneg, hle⟩)
    · refine ⟨by omega, (Int.lt_or_eq_of_le hle).symm.imp_right fun hlt => ?_⟩
      rw [Int.sign_eq_one_of_pos hpos, Int.sign_eq_one_of_pos (by omega)]
    · refine ⟨by omega, (Int.lt_or_eq_of_le hle).symm.imp Eq.symm fun hlt => ?_⟩
      rw [Int.sign_eq_neg_one_of_neg hneg, Int.sign_eq_neg_one_of_neg (by omega)]

/-- Before the end are those whose steps make up less than the distance. -/
theorem Leads.before_iff (h : Leads a b step) (i : Nat) :
    Before step (a + i * step) b ↔ i * step.natAbs < (b - a).natAbs := by
  unfold Before
  obtain ⟨hpos, hle⟩ | ⟨hneg, hle⟩ := leads_iff.1 h
  · obtain ⟨n, rfl⟩ := Int.eq_ofNat_of_zero_le (Int.le_of_lt hpos)
    rw [if_pos hpos, Int.natAbs_natCast]
    omega
  · obtain ⟨n, hn⟩ := Int.eq_ofNat_of_zero_le (Int.neg_nonneg.2 (Int.le_of_lt hneg))
    obtain rfl : step = -n := by omega
    rw [if_neg (by omega), Int.natAbs_neg, Int.natAbs_natCast, Int.mul_neg]
    omega

theorem Leads.lt_stepCount_iff (h : Leads a b step) (i : Nat) :
    i < stepCount a b step ↔ Before step (a + i * step) b := by
  have hpos := Int.natAbs_pos.2 h.1
  rw [h.before_iff, stepCount, Nat.lt_iff_add_one_le, Nat.le_div_iff_mul_le hpos, Nat.add_mul,
    Nat.one_mul]
  omega

/-- The last step goes less than one step beyond the end. -/
theorem stepCount_mul_lt (hstep : step ≠ 0) :
    stepCount a b step * step.natAbs < (b - a).natAbs + step.natAbs := by
  have hpos := Int.natAbs_pos.2 hstep
  have hle : stepCount a b step * step.natAbs ≤ (b - a).natAbs + step.natAbs - 1 :=
    Nat.div_mul_le_self _ _
  omega

/-! ### The numbers on the way -/

/-- Bounds and step have at most 51 bits, or are the next number after these. -/
structure Fits (a b step : Int) : Prop where
  start : a.natAbs ≤ 2 ^ 51
  stop : b.natAbs ≤ 2 ^ 51
  step : step.natAbs ≤ 2 ^ 51

theorem ofInt_pos_iff (hstep : step.natAbs ≤ 2 ^ 51) : 0 < Float.ofInt step ↔ 0 < step :=
  ofInt_lt_iff (a := 0) (by decide) (by omega)

theorem ofInt_neg_iff (hstep : step.natAbs ≤ 2 ^ 51) : Float.ofInt step < 0 ↔ step < 0 :=
  ofInt_lt_iff (b := 0) (by omega) (by decide)

theorem value?_ofInts (hfits : Fits a b step) (hlead : Leads a b step) {i : Nat}
    (hi : i ≤ stepCount a b step) : (ofInts a b step).value? (.ofNat i)
      = if i < stepCount a b step then some (Float.ofInt (a + i * step)) else none := by
  obtain ⟨ha, hb, hs⟩ := hfits
  have hpos := Int.natAbs_pos.2 hlead.1
  have hway : i * step.natAbs < 2 ^ 52 + 2 ^ 51 := by
    have hlast := stepCount_mul_lt (a := a) (b := b) hlead.1
    have hle : i * step.natAbs ≤ stepCount a b step * step.natAbs := Nat.mul_le_mul_right _ hi
    omega
  have hindex : i ≤ i * step.natAbs := Nat.le_mul_of_pos_right _ hpos
  have hproduct : (i * step).natAbs = i * step.natAbs := by
    rw [Int.natAbs_mul, Int.natAbs_natCast]
  have hword : (UInt64.ofNat i).toNat = i := by
    rw [UInt64.toNat_ofNat']
    omega
  have hvalue : Float.ofInt a + (UInt64.ofNat i).toFloat * Float.ofInt step
      = Float.ofInt (a + i * step) :=
    ofInt_add_mul hword (by omega) (by omega) (by omega) (by omega) (by omega)
  have hvalue_lt : Float.ofInt (a + i * step) < Float.ofInt b ↔ a + i * step < b :=
    ofInt_lt_iff (by omega) (by omega)
  have hlt_value : Float.ofInt b < Float.ofInt (a + i * step) ↔ b < a + i * step :=
    ofInt_lt_iff (by omega) (by omega)
  have hwithin := hlead.lt_stepCount_iff i
  rw [Before] at hwithin
  simp only [value?, ofInts, hvalue, gt_iff_lt, hvalue_lt, hlt_value, ofInt_pos_iff hs, hwithin]
  split <;> simp only [decide_eq_true_eq]

theorem value?_stepCount (hfits : Fits a b step) (hlead : Leads a b step) :
    (ofInts a b step).value? (.ofNat (stepCount a b step)) = none := by
  rw [value?_ofInts hfits hlead (Nat.le_refl _), if_neg (Nat.lt_irrefl _)]

theorem ends_ofInts (hfits : Fits a b step) (hlead : Leads a b step) : (ofInts a b step).Ends :=
  ⟨_, value?_stepCount hfits hlead⟩

theorem length_ofInts (hfits : Fits a b step) (hlead : Leads a b step) :
    (ofInts a b step).length = stepCount a b step := by
  obtain ⟨ha, hb, hs⟩ := hfits
  rw [length, ofInts, ofInt_sub (by omega) (by omega) (by omega), stepCount]
  refine count_ofInt_div (by omega) hlead.1 (by omega) fun hne => ?_
  obtain ⟨hpos, hle⟩ | ⟨hneg, hle⟩ := leads_iff.1 hlead
  · rw [signOf_of_nonneg (by omega), signOf_of_nonneg (by omega)]
  · rw [signOf_of_neg (by omega), signOf_of_neg hneg]

theorem isProgression_ofInts (hfits : Fits a b step) (hlead : Leads a b step) :
    (ofInts a b step).IsProgression a b step := by
  have hyields : (ofInts a b step).Yields 0 (progression a step (stepCount a b step)) := by
    refine yields_of_values (fun i hi => ?_) (value?_stepCount hfits hlead)
    rw [value?_ofInts hfits hlead (Nat.le_of_lt hi), if_pos hi]
  exact ⟨rfl, stepCount a b step, hlead.lt_stepCount_iff, hyields, hyields.valuesFrom_eq,
    length_ofInts hfits hlead⟩

/-! ## Which integers make a range -/

theorem make_ofInt_none (ha : a.natAbs ≤ 2 ^ 51) (hb : b.natAbs ≤ 2 ^ 51) :
    make (.ofInt a) (.ofInt b) none = .ok (ofInts a b (if b < a then -1 else 1)) := by
  have hlt : Float.ofInt b < Float.ofInt a ↔ b < a := ofInt_lt_iff (by omega) (by omega)
  have hstep : (if b < a then -1 else 1 : Float) = Float.ofInt (if b < a then -1 else 1) := by
    split <;> decide +kernel
  simp only [make, isFinite_ofInt (show a.natAbs < 2 ^ 53 by omega),
    isFinite_ofInt (show b.natAbs < 2 ^ 53 by omega), hlt, hstep]
  rfl

theorem make_ofInt_some (hfits : Fits a b step) :
    make (.ofInt a) (.ofInt b) (some (.ofInt step))
      = if step = 0 then .error (.badStep (.ofInt step))
        else if (a < b ∧ step < 0) ∨ (b < a ∧ 0 < step) then
          .error (.wrongDirection (.ofInt a) (.ofInt b) (.ofInt step))
        else .ok (ofInts a b step) := by
  obtain ⟨ha, hb, hs⟩ := hfits
  have hlt : Float.ofInt a < Float.ofInt b ↔ a < b := ofInt_lt_iff (by omega) (by omega)
  have hgt : Float.ofInt b < Float.ofInt a ↔ b < a := ofInt_lt_iff (by omega) (by omega)
  have hzero : (Float.ofInt step == 0) = decide (step = 0) := by
    rw [Bool.eq_iff_iff, decide_eq_true_iff]
    exact ofInt_beq_iff (b := 0) (by omega) (by decide)
  simp only [make, isFinite_ofInt (show a.natAbs < 2 ^ 53 by omega),
    isFinite_ofInt (show b.natAbs < 2 ^ 53 by omega),
    isFinite_ofInt (show step.natAbs < 2 ^ 53 by omega), gt_iff_lt, hlt, hgt, hzero,
    ofInt_pos_iff hs, ofInt_neg_iff hs, Bool.and_self, Bool.not_true, Bool.or_false,
    decide_eq_true_eq, Bool.or_eq_true, Bool.and_eq_true, Bool.false_eq_true, if_false]
  rfl

theorem make_ofInt_eq_ok_iff (hfits : Fits a b step) (r : Range) :
    make (.ofInt a) (.ofInt b) (some (.ofInt step)) = .ok r
      ↔ Leads a b step ∧ r = ofInts a b step := by
  rw [make_ofInt_some hfits, leads_iff]
  split
  case isTrue hzero => simp [hzero]
  case isFalse hne =>
    split
    case isTrue hwrong =>
      simp only [reduceCtorEq, false_iff, not_and]
      omega
    case isFalse hright =>
      rw [Except.ok.injEq, eq_comm, and_iff_right (by omega)]

end Integers

/-- **Ranges of integers are exact.** Three integers make a range just when the step is not zero and
leads from the start to the end, two always make one whose step is one towards the end; and each
range so made is the progression of these integers. -/
theorem make_ofInt_isProgression {a b step : Int} (ha : a.natAbs ≤ 2 ^ 51) (hb : b.natAbs ≤ 2 ^ 51)
    (hstep : step.natAbs ≤ 2 ^ 51) :
    ((∃ r, make (.ofInt a) (.ofInt b) (some (.ofInt step)) = .ok r)
        ↔ step ≠ 0 ∧ (a = b ∨ step.sign = (b - a).sign))
      ∧ (∀ r, make (.ofInt a) (.ofInt b) (some (.ofInt step)) = .ok r → r.IsProgression a b step)
      ∧ ∃ r, make (.ofInt a) (.ofInt b) none = .ok r
        ∧ r.IsProgression a b (if b < a then -1 else 1) := by
  have hfits : Fits a b step := ⟨ha, hb, hstep⟩
  refine ⟨⟨?_, ?_⟩, ?_, ?_⟩
  · rintro ⟨r, hmake⟩
    exact ((make_ofInt_eq_ok_iff hfits r).1 hmake).1
  · intro hlead
    exact ⟨_, (make_ofInt_eq_ok_iff hfits _).2 ⟨hlead, rfl⟩⟩
  · intro r hmake
    obtain ⟨hlead, rfl⟩ := (make_ofInt_eq_ok_iff hfits r).1 hmake
    exact isProgression_ofInts hfits hlead
  · refine ⟨_, make_ofInt_none ha hb, isProgression_ofInts ⟨ha, hb, ?_⟩ (leads_iff.2 ?_)⟩ <;>
      split <;> omega

/-- The widest way there is, in steps that do not divide it. -/
theorem make_ofInt_isProgression_widest :
    ∃ r, make (.ofInt (-2 ^ 51)) (.ofInt (2 ^ 51)) (some (.ofInt 3)) = .ok r
      ∧ r.IsProgression (-2 ^ 51) (2 ^ 51) 3 := by
  have hexact := @make_ofInt_isProgression (-2 ^ 51) (2 ^ 51) 3 (by decide) (by decide) (by decide)
  obtain ⟨r, hmake⟩ := hexact.1.2 (by decide)
  exact ⟨r, hmake, hexact.2.1 r hmake⟩

/-! ## Ranges without an end -/

/-- **Not every range ends.** Not even `2 ^ 64` steps get from zero to one if they are this small. -/
theorem not_ends_of_small_step {step : Float} (hpos : 0 < step)
    (hstep : Spans (view step) (-1000) (-200)) : ¬ Ends ⟨0, 1, step⟩ := by
  rintro ⟨i, hi⟩
  have hlt : 0 + i.toFloat * step < 1 := by
    obtain hzero | hindex := Nat.eq_zero_or_pos i.toNat
    · obtain rfl : i = 0 := UInt64.toNat_inj.1 hzero
      obtain ⟨m, e, hm, hview, -⟩ := hstep
      have hproduct : (0 : UInt64).toFloat * step = 0 := by
        rw [mul_eq, hview]
        rfl
      rw [hproduct]
      decide +kernel
    · have hone : Spans (view 1) (-52) (-52) :=
        ⟨2 ^ 52, -52, ⟨by decide, by decide⟩, rfl, by decide, by decide⟩
      have hproduct :=
        ((spans_toFloat hindex).mul hstep (by decide)).view_pack (by decide) (by decide)
      have hsum : UnpackedFloat.add binary64 (view 0) (view (i.toFloat * step))
          = view (i.toFloat * step) := by
        obtain ⟨m, e, hm, hview, -⟩ := hproduct
        rw [mul_eq, hview]
        rfl
      rw [lt_iff, add_eq, hsum]
      exact (hproduct.view_pack (by decide) (by decide)).compare_eq_lt hone (by decide)
  simp only [value?, gt_iff_lt, hpos, hlt] at hi
  cases hi

theorem exists_not_ends : ∃ r, make 0 1 (some 1e-200) = .ok r ∧ ¬ r.Ends := by
  refine ⟨⟨0, 1, 1e-200⟩, ?_, ?_⟩
  · have hchecks : (1e-200 == (0 : Float)) = false ∧ (1e-200 : Float).isFinite = true
        ∧ ¬ (1e-200 : Float) < 0 ∧ ¬ (1 : Float) < 0 := by decide +kernel
    simp only [make, hchecks]
    rfl
  · have hexact : Exact.of? 1e-200 = some ⟨false, 6894565328877484, -717⟩ := by decide +kernel
    exact not_ends_of_small_step (by decide +kernel)
      ((spans_of_exact hexact rfl ⟨by decide, by decide⟩).mono (by decide) (by decide))

end Range

end CommandScript
