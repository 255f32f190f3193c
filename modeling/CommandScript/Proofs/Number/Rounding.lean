import CommandScript.Proofs.Number.Literal
import Mathlib.Algebra.Ring.Int.Defs
import Mathlib.Tactic.Ring

/-!
# Proofs/Number/Rounding — how far rounding goes

A result that does not fit is cut down to 53 bits, with two bits that say how the rest compares with
half a unit. What the bits leave open is no more than where between two neighbours the exact
quotient lies (`Encloses`), and a result is always one of these two: rounding stays within less than
one unit (`exists_roundWithAccuracy_eq`). A number with 53 bits is kept as it is
(`view_pack_finite`), and how large a product is shows in the exponents (`Spans.mul`).
-/

namespace CommandScript

open Float.Model (UnpackedFloat totalExponent)
open Float.Model.Format (binary64)
open Float.Model.UnpackedFloat (Sign Accuracy ExtendedMantissa accuracyOfFraction
  roundWithAccuracy shiftToTargetExponent shiftToExponent)

namespace Number

/-- The quotient `a / b` lies between the mantissa and the next one, and on the mantissa exactly if
neither bit is set. -/
structure Encloses (em : ExtendedMantissa) (a b : Nat) : Prop where
  le : em.mantissa * b ≤ a
  lt : a < (em.mantissa + 1) * b
  eq_iff : (em.roundBit || em.stickyBit) = false ↔ em.mantissa * b = a

variable {em : ExtendedMantissa} {a b : Nat}

theorem encloses_exact (m : Nat) : Encloses (.ofMantissaAndAccuracy m .exact) m 1 where
  le := Nat.le_of_eq (Nat.mul_one m)
  lt := by rw [Nat.mul_one]; exact Nat.lt_succ_self m
  eq_iff := iff_of_true rfl (Nat.mul_one m)

theorem mantissa_ofMantissaAndAccuracy (m : Nat) (accuracy : Accuracy) :
    (ExtendedMantissa.ofMantissaAndAccuracy m accuracy).mantissa = m := by
  cases accuracy with
  | exact => rfl
  | inexact side => cases side <;> rfl

/-- A division leaves a remainder or not, and says so. -/
theorem encloses_quotient (a : Nat) (hb : 0 < b) :
    Encloses (.ofMantissaAndAccuracy (a / b) (accuracyOfFraction (a % b) b)) a b := by
  have hdiv : a / b * b + a % b = a := Nat.div_add_mod' a b
  have hlt : a % b < b := Nat.mod_lt a hb
  refine ⟨?_, ?_, ?_⟩
  · rw [mantissa_ofMantissaAndAccuracy]
    omega
  · rw [mantissa_ofMantissaAndAccuracy, Nat.add_mul, Nat.one_mul]
    omega
  · rw [mantissa_ofMantissaAndAccuracy]
    by_cases hzero : a % b = 0
    · rw [accuracyOfFraction, if_pos hzero]
      exact iff_of_true rfl (by omega)
    · rw [accuracyOfFraction, if_neg hzero]
      refine iff_of_false ?_ (by omega)
      cases compare (2 * (a % b)) b <;> exact Bool.false_ne_true.symm

theorem Encloses.shiftRightOne (h : Encloses em a b) : Encloses em.shiftRightOne a (b * 2) := by
  obtain ⟨hle, hlt, heq⟩ := h
  obtain ⟨m, round, sticky⟩ := em
  have hparts : m / 2 * 2 + m % 2 = m := Nat.div_add_mod' m 2
  have hhalf : m / 2 * (b * 2) + m % 2 * b = m * b := by
    conv_rhs => rw [← hparts]
    ring
  have hbit : m % 2 = 0 ∨ m % 2 = 1 := Nat.mod_two_eq_zero_or_one m
  simp only [Nat.add_mul, Nat.one_mul] at hlt
  refine ⟨?_, ?_, ?_⟩
  · change m / 2 * (b * 2) ≤ a
    simp only at hle
    omega
  · change a < (m / 2 + 1) * (b * 2)
    rw [Nat.add_mul]
    obtain hbit | hbit := hbit <;> rw [hbit] at hhalf <;> omega
  · change ((m % 2 != 0) || (round || sticky)) = false ↔ m / 2 * (b * 2) = a
    obtain hbit | hbit := hbit
    · rw [hbit] at hhalf ⊢
      simp only at heq
      rw [show m / 2 * (b * 2) = m * b by omega, ← heq]
      rfl
    · rw [hbit] at hhalf ⊢
      simp only at hle
      refine iff_of_false Bool.false_ne_true.symm ?_
      omega

theorem Encloses.shiftRight (h : Encloses em a b) : ∀ n : Nat, Encloses (em >>> n) a (b * 2 ^ n)
  | 0 => by
    rw [pow_zero, Nat.mul_one]
    exact h
  | n + 1 => by
    rw [pow_succ, ← Nat.mul_assoc]
    exact (h.shiftRight n).shiftRightOne

theorem mantissa_shiftRight (em : ExtendedMantissa) : ∀ n : Nat,
    (em >>> n).mantissa = em.mantissa / 2 ^ n
  | 0 => (Nat.div_one _).symm
  | n + 1 => by
    change (em >>> n).mantissa / 2 = _
    rw [mantissa_shiftRight em n, Nat.div_div_eq_div_mul, pow_succ]

theorem roundedMantissa_cases (em : ExtendedMantissa) : em.roundedMantissa = em.mantissa
    ∨ (em.roundBit || em.stickyBit) = true ∧ em.roundedMantissa = em.mantissa + 1 := by
  obtain ⟨m, round, sticky⟩ := em
  cases round with
  | false => cases sticky <;> exact .inl rfl
  | true =>
    cases sticky with
    | true => exact .inr ⟨rfl, rfl⟩
    | false =>
      -- halfway, the even one of the two is taken
      change m + m % 2 = m ∨ _ ∧ m + m % 2 = m + 1
      obtain hbit | hbit := Nat.mod_two_eq_zero_or_one m
      · exact .inl (by rw [hbit, Nat.add_zero])
      · exact .inr ⟨rfl, by rw [hbit]⟩

/-- **Rounding stays within less than one unit** of the quotient that is rounded. -/
theorem Encloses.rounded (h : Encloses em a b) :
    em.roundedMantissa * b < a + b ∧ a < (em.roundedMantissa + 1) * b := by
  obtain ⟨hle, hlt, heq⟩ := h
  have hlt' := hlt
  rw [Nat.add_mul, Nat.one_mul] at hlt'
  obtain hsame | ⟨hbits, hnext⟩ := roundedMantissa_cases em
  · rw [hsame]
    exact ⟨by omega, hlt⟩
  · have hne : em.mantissa * b ≠ a := fun ha => by
      rw [heq.2 ha] at hbits
      exact Bool.false_ne_true hbits
    rw [hnext]
    simp only [Nat.add_mul, Nat.one_mul]
    omega

/-! ## Rounding to a mantissa of 53 bits -/

theorem targetExponent_eq (t : Int) : binary64.targetExponent t = max (t - 53) (-1074) := rfl

/-- A mantissa of 53 bits. -/
structure IsFull (m : Nat) : Prop where
  le : 2 ^ 52 ≤ m
  lt : m < 2 ^ 53

theorem IsFull.pos {m : Nat} (h : IsFull m) : 0 < m := Nat.lt_of_lt_of_le (by decide) h.le

theorem IsFull.log2_eq {m : Nat} (h : IsFull m) : m.log2 = 52 :=
  (Nat.log2_eq_iff (Nat.ne_of_gt h.pos)).2 ⟨h.le, h.lt⟩

theorem isFull_shifted {m : Nat} (h : 2 ^ 52 ≤ m) : IsFull (m / 2 ^ (m.log2 - 52)) := by
  have hne : m ≠ 0 := Nat.ne_of_gt (Nat.lt_of_lt_of_le (by decide) h)
  have hlog : 52 ≤ m.log2 := (Nat.le_log2 hne).2 h
  have hpos : 0 < 2 ^ (m.log2 - 52) := Nat.two_pow_pos _
  constructor
  · rw [Nat.le_div_iff_mul_le hpos, ← pow_add, Nat.add_sub_cancel' hlog]
    exact Nat.log2_self_le hne
  · rw [Nat.div_lt_iff_lt_mul hpos, ← pow_add]
    have hlt : m < 2 ^ (m.log2 + 1) := Nat.lt_log2_self
    rwa [show 53 + (m.log2 - 52) = m.log2 + 1 by omega]

/-- The shift that leaves 53 bits of a mantissa. -/
theorem shiftToTargetExponent_eq {m : Nat} {e : Int} (hm : 2 ^ 52 ≤ m) (he : -1074 ≤ e)
    (accuracy : Accuracy) : shiftToTargetExponent binary64 m e accuracy
      = (ExtendedMantissa.ofMantissaAndAccuracy m accuracy >>> (m.log2 - 52),
        e + (m.log2 - 52 : Nat)) := by
  have hne : m ≠ 0 := Nat.ne_of_gt (Nat.lt_of_lt_of_le (by decide) hm)
  have hlog : 52 ≤ m.log2 := (Nat.le_log2 hne).2 hm
  have hshift : (binary64.targetExponent (totalExponent m e) - e).toNat = m.log2 - 52 := by
    rw [targetExponent_eq, totalExponent]
    omega
  delta shiftToTargetExponent shiftToExponent
  dsimp only
  rw [hshift]

/-- The quotient has as many units as 53 bits need. -/
theorem Encloses.full_le {m : Nat} {accuracy : Accuracy} (hm : 2 ^ 52 ≤ m)
    (h : Encloses (.ofMantissaAndAccuracy m accuracy) a b) :
    2 ^ 52 * (b * 2 ^ (m.log2 - 52)) ≤ a := by
  have hle := (h.shiftRight (m.log2 - 52)).le
  rw [mantissa_shiftRight, mantissa_ofMantissaAndAccuracy] at hle
  exact Nat.le_trans (Nat.mul_le_mul_right _ (isFull_shifted hm).le) hle

/-- Rounding shifts a mantissa to the exponent it is written with, rounds it there and shifts it
once more, for it may have one bit more then. -/
theorem roundWithAccuracy_eq_finite {m m' : Nat} {e e' e'' : Int} {accuracy : Accuracy} (s : Sign)
    (hfirst : shiftToTargetExponent binary64 m e accuracy = (em, e'))
    (hsecond : shiftToTargetExponent binary64 em.roundedMantissa e' .exact
      = (⟨m', false, false⟩, e''))
    (hpos : 0 < m') : roundWithAccuracy binary64 s m e accuracy = .finite s m' e'' hpos := by
  delta roundWithAccuracy
  dsimp only
  rw [hfirst]
  dsimp only
  rw [hsecond]
  exact dif_neg (Nat.ne_of_gt hpos)

/-- **Rounding to 53 bits.** The result is within less than one unit of the quotient, where the unit
is what the last of 53 bits stands for. A mantissa that gets one bit more is written with half of
it. -/
theorem exists_roundWithAccuracy_eq {m : Nat} {e : Int} {accuracy : Accuracy} (s : Sign)
    (hm : 2 ^ 52 ≤ m) (he : -1074 ≤ e) (h : Encloses (.ofMantissaAndAccuracy m accuracy) a b) :
    ∃ (r m' : Nat) (k : Nat) (hpos : 0 < m'),
      roundWithAccuracy binary64 s m e accuracy = .finite s m' (e + (m.log2 - 52 : Nat) + k) hpos
      ∧ IsFull m' ∧ m' * 2 ^ k = r ∧ k ≤ 1
      ∧ r * (b * 2 ^ (m.log2 - 52)) < a + b * 2 ^ (m.log2 - 52)
      ∧ a < (r + 1) * (b * 2 ^ (m.log2 - 52)) := by
  have hnear := (h.shiftRight (m.log2 - 52)).rounded
  have hfull := isFull_shifted hm
  have hcases := roundedMantissa_cases
    (ExtendedMantissa.ofMantissaAndAccuracy m accuracy >>> (m.log2 - 52))
  rw [mantissa_shiftRight, mantissa_ofMantissaAndAccuracy] at hcases
  have hround (m' : Nat) (e' : Int) := @roundWithAccuracy_eq_finite _ m m' e _ e' accuracy s
    (shiftToTargetExponent_eq hm he accuracy)
  generalize (ExtendedMantissa.ofMantissaAndAccuracy m accuracy >>> (m.log2 - 52)).roundedMantissa
    = r at *
  by_cases hlt : r < 2 ^ 53
  · have hfull' : IsFull r := ⟨by have := hfull.le; omega, hlt⟩
    refine ⟨r, r, 0, hfull'.pos, hround _ _ ?_ hfull'.pos, hfull', by rw [pow_zero, Nat.mul_one],
      Nat.zero_le 1, hnear⟩
    rw [shiftToTargetExponent_eq hfull'.le (by omega), hfull'.log2_eq]
    rfl
  · obtain rfl : r = 2 ^ 53 := by
      have := hfull.lt
      omega
    refine ⟨2 ^ 53, 2 ^ 52, 1, by decide, hround _ _ ?_ _, ⟨Nat.le_refl _, by decide⟩, rfl,
      Nat.le_refl 1, hnear⟩
    rw [shiftToTargetExponent_eq (by decide) (by omega), Nat.log2_two_pow]
    rfl

/-! ## Numbers with 53 bits -/

/-- A number with 53 bits, not too large or too small, has the parts that it is written with. -/
theorem exists_parts_eq (s : Sign) {m : Nat} {e : Int} (hm : IsFull m) (hle : -1074 ≤ e)
    (hlt : e < 972) :
    ∃ p : Parts, p.exact.sign = s ∧ p.exact.mantissa = m ∧ p.exact.exponent = e := by
  have hlow := hm.le
  have hhigh := hm.lt
  have hfield : (BitVec.ofNat 11 (e + 1075).toNat).toNat = (e + 1075).toNat := by
    rw [BitVec.toNat_ofNat]
    omega
  have hfraction : (BitVec.ofNat 52 (m - 2 ^ 52)).toNat = m - 2 ^ 52 := by
    rw [BitVec.toNat_ofNat]
    omega
  have hones : BitVec.ofNat 11 (e + 1075).toNat ≠ -1#11 := ofNat_ne_ones (by omega)
  have hzero : BitVec.ofNat 11 (e + 1075).toNat ≠ 0#11 := fun h => by
    have hnat : (e + 1075).toNat = 0 := hfield.symm.trans (congrArg BitVec.toNat h)
    omega
  let p : Parts := ⟨s == .negative, BitVec.ofNat 11 (e + 1075).toNat, BitVec.ofNat 52 (m - 2 ^ 52),
    hones⟩
  refine ⟨p, ?_, ?_, ?_⟩ <;> rw [p.exact_of_ne_zero hzero]
  · cases s <;> rfl
  · change 2 ^ 52 + (BitVec.ofNat 52 (m - 2 ^ 52)).toNat = m
    omega
  · change ((BitVec.ofNat 11 (e + 1075).toNat).toNat : Int) - 1075 = e
    omega

section Full

variable {s : Sign} {m : Nat} {e : Int}

theorem exists_unpacked_eq (s : Sign) (hm : IsFull m) (hle : -1074 ≤ e) (hlt : e < 972) :
    ∃ p : Parts, p.exact.unpacked = .finite s m e hm.pos
      ∧ p.exact.sign = s ∧ p.exact.mantissa = m ∧ p.exact.exponent = e := by
  obtain ⟨p, hs, hmantissa, hexponent⟩ := exists_parts_eq s hm hle hlt
  refine ⟨p, ?_, hs, hmantissa, hexponent⟩
  rw [Exact.unpacked_of_pos hm.pos hmantissa hexponent, hs]

theorem view_pack_finite (hm : IsFull m) (hle : -1074 ≤ e) (hlt : e < 972) :
    view ⟨.pack (.finite s m e hm.pos)⟩ = .finite s m e hm.pos := by
  obtain ⟨p, hp, -⟩ := exists_unpacked_eq s hm hle hlt
  rw [← hp]
  exact p.view_number

theorem exact_pack_finite (hm : IsFull m) (hle : -1074 ≤ e) (hlt : e < 972) :
    ∃ x : Exact, Exact.of? ⟨.pack (.finite s m e hm.pos)⟩ = some x
      ∧ x.sign = s ∧ x.mantissa = m ∧ x.exponent = e := by
  obtain ⟨p, hp, hfields⟩ := exists_unpacked_eq s hm hle hlt
  refine ⟨p.exact, ?_, hfields⟩
  rw [← hp]
  exact p.exact_number

end Full

/-! ## How large a number is -/

/-- A positive number with 53 bits, the last of which stands for a power of two between these. -/
def Spans (u : UnpackedFloat) (low high : Int) : Prop :=
  ∃ (m : Nat) (e : Int) (hm : IsFull m), u = .finite .positive m e hm.pos ∧ low ≤ e ∧ e ≤ high

section Spans

variable {u v : UnpackedFloat} {low high low' high' : Int}

theorem Spans.mono (h : Spans u low high) (hlow : low' ≤ low) (hhigh : high ≤ high') :
    Spans u low' high' := by
  obtain ⟨m, e, hm, heq, hle, hge⟩ := h
  exact ⟨m, e, hm, heq, Int.le_trans hlow hle, Int.le_trans hge hhigh⟩

theorem Spans.view_pack (h : Spans u low high) (hlow : -1074 ≤ low) (hhigh : high < 972) :
    Spans (view ⟨.pack u⟩) low high := by
  obtain ⟨m, e, hm, rfl, hle, hge⟩ := h
  exact ⟨m, e, hm, view_pack_finite hm (by omega) (by omega), hle, hge⟩

theorem Spans.compare_eq_lt (hu : Spans u low high) (hv : Spans v low' high') (h : high < low') :
    u.compare v = some .lt := by
  obtain ⟨m, e, hm, rfl, -, hge⟩ := hu
  obtain ⟨m', e', hm', rfl, hle, -⟩ := hv
  have hexponents : compare e e' = .lt := Int.compare_eq_lt.2 (by omega)
  exact congrArg (fun o => some (Ordering.then o (compare m m'))) hexponents

theorem spans_roundWithAccuracy {m : Nat} {e : Int} (hm : 2 ^ 52 ≤ m) (he : -1074 ≤ e) :
    Spans (roundWithAccuracy binary64 .positive m e .exact) (e + (m.log2 - 52 : Nat))
      (e + (m.log2 - 52 : Nat) + 1) := by
  obtain ⟨r, m', k, hpos, hround, hfull, -, hk, -⟩ :=
    exists_roundWithAccuracy_eq .positive hm he (encloses_exact m)
  exact ⟨m', _, hfull, hround, by omega, by omega⟩

theorem Spans.mul (hu : Spans u low high) (hv : Spans v low' high') (h : -1074 ≤ low + low') :
    Spans (.mul binary64 u v) (low + low') (high + high' + 54) := by
  obtain ⟨m, e, hm, rfl, hle, hge⟩ := hu
  obtain ⟨m', e', hm', rfl, hle', hge'⟩ := hv
  have hproduct : 2 ^ 52 ≤ m * m' := Nat.le_trans hm.le (Nat.le_mul_of_pos_right _ hm'.pos)
  have hlog : (m * m').log2 < 106 :=
    (Nat.log2_lt (Nat.ne_of_gt (Nat.mul_pos hm.pos hm'.pos))).2
      ((Nat.mul_lt_mul'' hm.lt hm'.lt).trans_eq (pow_add 2 53 53).symm)
  exact (spans_roundWithAccuracy hproduct (show -1074 ≤ e + e' by omega)).mono (by omega) (by omega)

theorem spans_of_exact {x : Float} {e : Exact} (h : Exact.of? x = some e)
    (hsign : e.sign = .positive) (hm : IsFull e.mantissa) :
    Spans (view x) e.exponent e.exponent := by
  obtain ⟨p, rfl⟩ := exists_parts (isFinite_of_exact h)
  obtain rfl : p.exact = e := Option.some_inj.1 (p.exact_number.symm.trans h)
  refine ⟨_, _, hm, ?_, Int.le_refl _, Int.le_refl _⟩
  rw [p.view_number, Exact.unpacked_of_pos hm.pos rfl rfl, hsign]

end Spans

end Number

end CommandScript
