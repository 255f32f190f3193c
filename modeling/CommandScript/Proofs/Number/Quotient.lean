import CommandScript.Proofs.Number.Integer

/-!
# Proofs/Number/Quotient — counting the steps between integers

A quotient of integers need not be an integer, and is rounded. If the dividend has no more than 52
bits, from one integer to the next there are at least as many steps as the divisor says
(`exists_div_signed_eq`), so the rounded quotient stays between the same two integers as the exact
one, and off the lower of them. What it counts is therefore exact (`count_ofInt_div`).
-/

namespace CommandScript

open Float.Model (UnpackedFloat totalExponent)
open Float.Model.Format (binary64)
open Float.Model.UnpackedFloat (Sign accuracyOfFraction roundWithAccuracy)

namespace Number

variable {n n' : Nat}

/-- A quotient is divided out to at least 53 bits. -/
theorem divCore_significand (hn : 0 < n) (hlt : n < 2 ^ 53) (hn' : 0 < n') (hlt' : n' < 2 ^ 53) :
    UnpackedFloat.divCore binary64 (significand n) (n.log2 - 52) (significand n') (n'.log2 - 52)
      = (significand n * 2 ^ 53 / significand n', (n.log2 : Int) - n'.log2 - 53,
        accuracyOfFraction (significand n * 2 ^ 53 % significand n') (significand n')) := by
  have hlog := log2_le_of_lt hn hlt
  have hlog' := log2_le_of_lt hn' hlt'
  have htarget : min ((n.log2 : Int) - 52 - (n'.log2 - 52))
      (binary64.targetExponent (totalExponent (significand n) (n.log2 - 52)
        - totalExponent (significand n') (n'.log2 - 52))) = n.log2 - n'.log2 - 53 := by
    rw [targetExponent_eq, totalExponent, totalExponent, (isFull_significand hn hlt).log2_eq,
      (isFull_significand hn' hlt').log2_eq]
    omega
  have hshift : ((n.log2 : Int) - 52 - (n'.log2 - 52) - (n.log2 - n'.log2 - 53)).toNat = 53 := by
    omega
  delta UnpackedFloat.divCore
  dsimp only
  rw [htarget, hshift, Nat.shiftLeft_eq]

theorem le_iff {x y : Float} :
    x ≤ y ↔ ((view x).compare (view y)).any (·.isLE) = true := by
  change decide (UnpackedFloat.le (view x) (view y) = true) = true ↔ _
  rw [decide_eq_true_iff]
  rfl

theorem count_zero (s : Sign) : count ⟨.pack (.zero s)⟩ = 0 := by
  have hzero : (⟨.pack (.zero s)⟩ : Float) ≤ 0 := by
    rw [le_iff]
    cases s <;> rfl
  rw [count, if_pos hzero]

/-- The integers around a number with 53 bits tell what it counts. -/
theorem count_pack_finite {m k u c : Nat} (hm : IsFull m) (hk : k ≤ 1) (hu : u ≤ 105)
    (hc : c < 2 ^ 64) (hupper : m * 2 ^ k ≤ c * 2 ^ u) (hlower : c * 2 ^ u < m * 2 ^ k + 2 ^ u) :
    count ⟨.pack (.finite .positive m (k - u) hm.pos)⟩ = c := by
  obtain ⟨x, hx, hsign, hmantissa, hexponent⟩ :=
    exact_pack_finite (s := .positive) hm (e := (k : Int) - u) (by omega) (by omega)
  have hpositive : ¬ (⟨.pack (.finite .positive m (k - u) hm.pos)⟩ : Float) ≤ 0 := by
    rw [le_iff, view_pack_finite hm (by omega) (by omega), view_zero]
    exact Bool.false_ne_true
  have hnegative : x.negative = false := by
    cases hneg : x.negative with
    | false => rfl
    | true =>
      rw [Exact.sign, hneg] at hsign
      cases hsign
  -- numerator and denominator, both multiplied by the same power of two
  have hnumerator : x.numerator * 2 ^ min k u = m * 2 ^ k := by
    rw [Exact.numerator, hmantissa, hexponent, Nat.pow_eq, Nat.mul_assoc, ← pow_add]
    congr 2
    omega
  have hdenominator : x.denominator * 2 ^ min k u = 2 ^ u := by
    rw [Exact.denominator, hexponent, Nat.pow_eq, ← pow_add]
    congr 1
    omega
  rw [← hnumerator, ← hdenominator, ← Nat.mul_assoc] at hupper
  rw [← hnumerator, ← hdenominator, ← Nat.mul_assoc, ← Nat.add_mul] at hlower
  have hle := Nat.le_of_mul_le_mul_right hupper (Nat.two_pow_pos _)
  have hlt := Nat.lt_of_mul_lt_mul_right hlower
  have hceiling : x.ceiling = c := by
    rw [Exact.ceiling, hnegative, if_neg Bool.false_ne_true]
    refine Nat.div_eq_of_lt_le (by omega) ?_
    rw [Nat.succ_mul]
    omega
  rw [count, if_neg hpositive, hx]
  dsimp only
  rw [hceiling, Nat.pow_eq]
  omega

/-- If `r` is within less than one of `2 ^ u · n / n'` and there are at least `n'` steps from one
integer to the next, then `r / 2 ^ u` lies between the same two integers as `n / n'`. -/
theorem steps_between {r u c : Nat} (habove : r * n' < n * 2 ^ u + n')
    (hbelow : n * 2 ^ u < (r + 1) * n') (hu : n' ≤ 2 ^ u) (hc : n ≤ c * n')
    (hc' : c * n' < n + n') : r ≤ c * 2 ^ u ∧ c * 2 ^ u < r + 2 ^ u := by
  constructor
  · have hle : n * 2 ^ u ≤ c * 2 ^ u * n' := by
      rw [Nat.mul_right_comm]
      exact Nat.mul_le_mul_right _ hc
    have hlt : r * n' < (c * 2 ^ u + 1) * n' := by
      rw [Nat.add_mul, Nat.one_mul]
      omega
    exact Nat.le_of_lt_succ (Nat.lt_of_mul_lt_mul_right hlt)
  · have hle : (c * n' + 1) * 2 ^ u ≤ (n + n') * 2 ^ u := Nat.mul_le_mul_right _ hc'
    have hlt : c * 2 ^ u * n' < (r + 2 ^ u) * n' := by
      rw [Nat.add_mul, Nat.one_mul, Nat.add_mul] at hle
      rw [Nat.add_mul, Nat.one_mul] at hbelow
      rw [Nat.add_mul, Nat.mul_right_comm, Nat.mul_comm (2 ^ u)]
      omega
    exact Nat.lt_of_mul_lt_mul_right hlt

/-- The units that a quotient is rounded to, and the quotient. -/
theorem significand_mul_eq {t u : Nat} (hn : 0 < n) (hlt : n < 2 ^ 53) (hn' : 0 < n')
    (hlt' : n' < 2 ^ 53) (hu : n.log2 + (t + u) = 53 + n'.log2) :
    significand n * 2 ^ 53 * n' = n * 2 ^ u * (significand n' * 2 ^ t) := by
  refine Nat.eq_of_mul_eq_mul_right (Nat.two_pow_pos n.log2) ?_
  calc significand n * 2 ^ 53 * n' * 2 ^ n.log2
      = significand n * 2 ^ n.log2 * (n' * 2 ^ 53) := by ring
    _ = n * (n' * 2 ^ 52) * 2 ^ 53 := by rw [significand_mul_two_pow hn hlt]; ring
    _ = n * significand n' * 2 ^ (53 + n'.log2) := by
      rw [← significand_mul_two_pow hn' hlt', pow_add]; ring
    _ = n * 2 ^ u * (significand n' * 2 ^ t) * 2 ^ n.log2 := by rw [← hu, pow_add, pow_add]; ring

/-- The quotient of two mantissas of 53 bits has 53 or 54 bits. -/
theorem quotient_bits {m m' : Nat} (hm : IsFull m) (hm' : IsFull m') :
    2 ^ 52 ≤ m * 2 ^ 53 / m' ∧ (m * 2 ^ 53 / m').log2 < 54 := by
  have hquotient : 2 ^ 52 ≤ m * 2 ^ 53 / m' := by
    rw [Nat.le_div_iff_mul_le hm'.pos]
    exact Nat.mul_le_mul hm.le (Nat.le_of_lt hm'.lt)
  refine ⟨hquotient, ?_⟩
  rw [Nat.log2_lt (by omega), Nat.div_lt_iff_lt_mul hm'.pos]
  calc m * 2 ^ 53 < 2 ^ 53 * 2 ^ 53 := Nat.mul_lt_mul_of_pos_right hm.lt (by decide)
    _ ≤ 2 ^ 54 * m' := by
      have := hm'.le
      omega

theorem div_signed (s : Sign) (hn : 0 < n) (hlt : n < 2 ^ 53) (hn' : 0 < n') (hlt' : n' < 2 ^ 53) :
    UnpackedFloat.div binary64 (signed s n) (signed s n')
      = roundWithAccuracy binary64 .positive (significand n * 2 ^ 53 / significand n')
        (n.log2 - n'.log2 - 53)
        (accuracyOfFraction (significand n * 2 ^ 53 % significand n') (significand n')) := by
  have hcore := divCore_significand hn hlt hn' hlt'
  rw [signed_of_pos s hn, signed_of_pos s hn']
  delta UnpackedFloat.div
  dsimp only
  rw [hcore]
  cases s <;> rfl

/-- **A quotient of integers is rounded by less than one step**, of which there are at least `n'`
from one integer to the next. -/
theorem exists_div_signed_eq (s : Sign) (hn : 0 < n) (hle : n ≤ 2 ^ 52) (hn' : 0 < n')
    (hlt' : n' < 2 ^ 53) : ∃ (m k u : Nat) (hm : IsFull m),
      UnpackedFloat.div binary64 (signed s n) (signed s n') = .finite .positive m (k - u) hm.pos
      ∧ k ≤ 1 ∧ u ≤ 105 ∧ m * 2 ^ k * n' < n * 2 ^ u + n' ∧ n * 2 ^ u < (m * 2 ^ k + 1) * n'
      ∧ n' ≤ 2 ^ u := by
  have hlt : n < 2 ^ 53 := Nat.lt_of_le_of_lt hle (by decide)
  have hlog := log2_le_of_lt hn hlt
  have hlog' := log2_le_of_lt hn' hlt'
  have hfull' := isFull_significand hn' hlt'
  obtain ⟨hquotient, hbits⟩ := quotient_bits (isFull_significand hn hlt) hfull'
  have hdiv := div_signed s hn hlt hn' hlt'
  have hencloses := encloses_quotient (significand n * 2 ^ 53) hfull'.pos
  have hunits := hencloses.full_le hquotient
  obtain ⟨r, m, k, hpos, hround, hm, rfl, hk, habove, hbelow⟩ :=
    exists_roundWithAccuracy_eq .positive hquotient (e := (n.log2 : Int) - n'.log2 - 53) (by omega)
      hencloses
  rw [hround] at hdiv
  have ht : (significand n * 2 ^ 53 / significand n').log2 - 52 ≤ 1 := by omega
  generalize (significand n * 2 ^ 53 / significand n').log2 - 52 = t at *
  obtain ⟨u, hu⟩ : ∃ u, n.log2 + (t + u) = 53 + n'.log2 := ⟨53 + n'.log2 - n.log2 - t, by omega⟩
  have hscaled := significand_mul_eq hn hlt hn' hlt' hu
  have hunit : 0 < significand n' * 2 ^ t := Nat.mul_pos hfull'.pos (Nat.two_pow_pos t)
  generalize significand n' * 2 ^ t = v at *
  refine ⟨m, k, u, hm, ?_, hk, by omega, ?_, ?_, ?_⟩
  · rw [hdiv]
    congr 1
    omega
  · refine Nat.lt_of_mul_lt_mul_right (a := v) ?_
    calc m * 2 ^ k * n' * v = m * 2 ^ k * v * n' := by ring
      _ < (significand n * 2 ^ 53 + v) * n' := Nat.mul_lt_mul_of_pos_right habove hn'
      _ = (n * 2 ^ u + n') * v := by rw [Nat.add_mul, hscaled]; ring
  · refine Nat.lt_of_mul_lt_mul_right (a := v) ?_
    calc n * 2 ^ u * v = significand n * 2 ^ 53 * n' := hscaled.symm
      _ < (m * 2 ^ k + 1) * v * n' := Nat.mul_lt_mul_of_pos_right hbelow hn'
      _ = (m * 2 ^ k + 1) * n' * v := by ring
  · refine Nat.le_of_mul_le_mul_left (c := 2 ^ 52 * v) ?_ (Nat.mul_pos (Nat.two_pow_pos 52) hunit)
    calc 2 ^ 52 * v * n' ≤ significand n * 2 ^ 53 * n' := Nat.mul_le_mul_right _ hunits
      _ = n * 2 ^ u * v := hscaled
      _ ≤ 2 ^ 52 * 2 ^ u * v := Nat.mul_le_mul_right _ (Nat.mul_le_mul_right _ hle)
      _ = 2 ^ 52 * v * 2 ^ u := by ring

/-- **A rounded quotient counts what the quotient does.** -/
theorem count_div_signed (s : Sign) (hn : 0 < n) (hle : n ≤ 2 ^ 52) (hn' : 0 < n')
    (hlt' : n' < 2 ^ 53) :
    count ⟨.pack (.div binary64 (signed s n) (signed s n'))⟩ = (n + n' - 1) / n' := by
  obtain ⟨m, k, u, hm, hdiv, hk, hu, habove, hbelow, hsteps⟩ :=
    exists_div_signed_eq s hn hle hn' hlt'
  have hmod := Nat.div_add_mod' (n + n' - 1) n'
  have hrest := Nat.mod_lt (n + n' - 1) hn'
  have hsmall : (n + n' - 1) / n' ≤ n + n' - 1 := Nat.div_le_self _ _
  obtain ⟨hupper, hlower⟩ := steps_between habove hbelow hsteps
    (c := (n + n' - 1) / n') (by omega) (by omega)
  rw [hdiv]
  exact count_pack_finite hm hk hu (by omega) hupper hlower

/-- **How many steps fit between two integers is counted exactly.** -/
theorem count_ofInt_div {d s : Int} (hd : d.natAbs ≤ 2 ^ 52) (hs : s ≠ 0) (hs' : s.natAbs < 2 ^ 53)
    (hsign : d ≠ 0 → signOf d = signOf s) :
    count (Float.ofInt d / Float.ofInt s) = (d.natAbs + s.natAbs - 1) / s.natAbs := by
  have hspos := Int.natAbs_pos.2 hs
  rw [div_eq, view_ofInt (Nat.lt_of_le_of_lt hd (by decide)), view_ofInt hs', integer, integer]
  obtain rfl | hdzero := eq_or_ne d 0
  · rw [signed_of_pos _ hspos, Int.natAbs_zero, Nat.zero_add,
      Nat.div_eq_of_lt (Nat.sub_lt hspos Nat.one_pos)]
    exact count_zero _
  · rw [hsign hdzero]
    exact count_div_signed _ (Int.natAbs_pos.2 hdzero) hd hspos hs'

end Number

end CommandScript
