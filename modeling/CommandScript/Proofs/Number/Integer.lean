import CommandScript.Proofs.Number.Rounding

/-!
# Proofs/Number/Integer — integers are exact

A natural number of at most 53 bits is a number with a sign, and the bits from its leading one on
(`signed`). It needs no rounding, with whatever mantissa it comes (`roundWithAccuracy_signed`). So
integers that are not larger are numbers (`ofInt_eq`), their differences, products and sums are
those of the integers (`ofInt_sub`, `ofInt_add_mul`), and so is their order (`ofInt_lt_iff`).
-/

namespace CommandScript

open Float.Model (UnpackedFloat totalExponent)
open Float.Model.Format (binary64)
open Float.Model.UnpackedFloat (Sign roundWithAccuracy decreaseExponent)

namespace Number

/-! ## Natural numbers with a sign -/

theorem log2_mul_two_pow {n : Nat} (hn : 0 < n) (k : Nat) : (n * 2 ^ k).log2 = n.log2 + k := by
  induction k with
  | zero => rw [pow_zero, Nat.mul_one, Nat.add_zero]
  | succ k ih =>
    have hpos : 0 < n * 2 ^ k := Nat.mul_pos hn (Nat.two_pow_pos k)
    rw [pow_succ, ← Nat.mul_assoc, Nat.mul_comm, Nat.log2_two_mul (Nat.ne_of_gt hpos), ih]
    rfl

theorem log2_le_of_lt {n : Nat} (hn : 0 < n) (hlt : n < 2 ^ 53) : n.log2 ≤ 52 :=
  Nat.le_of_lt_succ ((Nat.log2_lt (Nat.ne_of_gt hn)).2 hlt)

/-- The bits of a natural number from its leading one on, filled up to 53. -/
def significand (n : Nat) : Nat := n * 2 ^ (52 - n.log2)

theorem significand_pos {n : Nat} (hn : 0 < n) : 0 < significand n :=
  Nat.mul_pos hn (Nat.two_pow_pos _)

theorem isFull_significand {n : Nat} (hn : 0 < n) (hlt : n < 2 ^ 53) : IsFull (significand n) := by
  have hlog : (significand n).log2 = 52 := by
    rw [significand, log2_mul_two_pow hn, Nat.add_sub_cancel' (log2_le_of_lt hn hlt)]
  have hbounds := (Nat.log2_eq_iff (Nat.ne_of_gt (significand_pos hn))).1 hlog
  exact ⟨hbounds.1, hbounds.2⟩

/-- A natural number with a sign. -/
def signed (s : Sign) (n : Nat) : UnpackedFloat :=
  if h : n = 0 then .zero s
  else .finite s (significand n) (n.log2 - 52) (significand_pos (Nat.pos_of_ne_zero h))

theorem signed_of_pos (s : Sign) {n : Nat} (hn : 0 < n) :
    signed s n = .finite s (significand n) (n.log2 - 52) (significand_pos hn) :=
  dif_neg (Nat.ne_of_gt hn)

section Signed

variable {s s' : Sign} {n n' : Nat}

/-- A number of at most 53 bits is kept as it is. -/
theorem view_pack_signed (h : n < 2 ^ 53) : view ⟨.pack (signed s n)⟩ = signed s n := by
  obtain rfl | hn := Nat.eq_zero_or_pos n
  · cases s <;> rfl
  · have hlog := log2_le_of_lt hn h
    rw [signed_of_pos s hn]
    exact view_pack_finite (isFull_significand hn h) (by omega) (by omega)

/-- **A number of at most 53 bits is not rounded**, with whatever mantissa it comes. -/
theorem roundWithAccuracy_signed {m k b : Nat} {e : Int} (hn : 0 < n) (hlt : n < 2 ^ 53)
    (hm : 2 ^ 52 ≤ m) (heq : m * 2 ^ k = n * 2 ^ b) (he : e = k - b) (hle : -1074 ≤ e) :
    roundWithAccuracy binary64 s m e .exact = signed s n := by
  have hpos : 0 < m := Nat.lt_of_lt_of_le (by decide) hm
  have hlog : 52 ≤ m.log2 := (Nat.le_log2 (Nat.ne_of_gt hpos)).2 hm
  have hlog' := log2_le_of_lt hn hlt
  have hlogs : m.log2 + k = n.log2 + b := by
    rw [← log2_mul_two_pow hpos, heq, log2_mul_two_pow hn]
  have hfull := isFull_significand hn hlt
  have hm' : significand n * 2 ^ (m.log2 - 52) = m := by
    refine Nat.eq_of_mul_eq_mul_right (Nat.two_pow_pos k) ?_
    rw [heq, significand, Nat.mul_assoc, Nat.mul_assoc, ← pow_add, ← pow_add]
    congr 2
    omega
  obtain ⟨r, m', j, hpos', hround, hfull', hr, -, habove, hbelow⟩ :=
    exists_roundWithAccuracy_eq s hm hle (encloses_exact m)
  -- within less than one unit of a whole number of units there is no other
  have hsame : r = significand n := by
    rw [Nat.one_mul] at habove hbelow
    have hlt₁ : r * 2 ^ (m.log2 - 52) < (significand n + 1) * 2 ^ (m.log2 - 52) := by
      rwa [Nat.add_mul, Nat.one_mul, hm']
    have hlt₂ : significand n * 2 ^ (m.log2 - 52) < (r + 1) * 2 ^ (m.log2 - 52) := by
      rwa [hm']
    have := Nat.lt_of_mul_lt_mul_right hlt₁
    have := Nat.lt_of_mul_lt_mul_right hlt₂
    omega
  obtain rfl : j = 0 := by
    by_contra hj
    have htwo : 2 ^ 1 ≤ 2 ^ j := Nat.pow_le_pow_right (by decide) (Nat.one_le_iff_ne_zero.2 hj)
    have hbig : 2 ^ 52 * 2 ^ 1 ≤ m' * 2 ^ j := Nat.mul_le_mul hfull'.le htwo
    have := hfull.lt
    omega
  obtain rfl : m' = significand n := by rw [← hsame, ← hr, pow_zero, Nat.mul_one]
  rw [hround, signed_of_pos s hn]
  congr 1
  omega

theorem round_signed {m k b : Nat} {e : Int} (hn : 0 < n) (hlt : n < 2 ^ 53)
    (heq : m * 2 ^ k = n * 2 ^ b) (he : e = k - b) (hle : -1074 ≤ e) :
    UnpackedFloat.round binary64 s m e = signed s n := by
  have hpos : 0 < m := by
    refine Nat.pos_of_ne_zero fun hzero => ?_
    rw [hzero, Nat.zero_mul] at heq
    exact Nat.ne_of_lt (Nat.mul_pos hn (Nat.two_pow_pos b)) heq
  have hlogs : m.log2 + k = n.log2 + b := by
    rw [← log2_mul_two_pow hpos, heq, log2_mul_two_pow hn]
  have hlog' := log2_le_of_lt hn hlt
  have hshift : (e - binary64.targetExponent (totalExponent m e)).toNat = 52 - m.log2 := by
    rw [targetExponent_eq, totalExponent]
    omega
  delta UnpackedFloat.round decreaseExponent
  dsimp only
  rw [hshift, Nat.shiftLeft_eq]
  refine roundWithAccuracy_signed (k := k) (b := b + (52 - m.log2)) hn hlt ?_ ?_ (by omega)
    (by omega)
  · rw [← Nat.le_log2 (Nat.ne_of_gt (Nat.mul_pos hpos (Nat.two_pow_pos _))),
      log2_mul_two_pow hpos]
    omega
  · rw [Nat.mul_right_comm, heq, pow_add, Nat.mul_assoc]

theorem significand_mul_two_pow (hn : 0 < n) (hlt : n < 2 ^ 53) :
    significand n * 2 ^ n.log2 = n * 2 ^ 52 := by
  rw [significand, Nat.mul_assoc, ← pow_add, Nat.sub_add_cancel (log2_le_of_lt hn hlt)]

/-- **Products are exact** up to 53 bits. -/
theorem mul_signed (hn : n < 2 ^ 53) (hn' : n' < 2 ^ 53) (h : n * n' < 2 ^ 53) :
    UnpackedFloat.mul binary64 (signed s n) (signed s' n') = signed (s * s') (n * n') := by
  obtain rfl | hpos := Nat.eq_zero_or_pos n
  · rw [Nat.zero_mul]
    obtain rfl | hpos' := Nat.eq_zero_or_pos n'
    · rfl
    · rw [signed_of_pos s' hpos']
      rfl
  obtain rfl | hpos' := Nat.eq_zero_or_pos n'
  · rw [signed_of_pos s hpos]
    rfl
  rw [signed_of_pos s hpos, signed_of_pos s' hpos']
  refine roundWithAccuracy_signed (k := n.log2 + n'.log2) (b := 52 + 52) (Nat.mul_pos hpos hpos') h
    ?_ ?_ ?_ ?_
  · exact Nat.le_trans (isFull_significand hpos hn).le
      (Nat.le_mul_of_pos_right _ (significand_pos hpos'))
  · rw [pow_add, pow_add, Nat.mul_mul_mul_comm, significand_mul_two_pow hpos hn,
      significand_mul_two_pow hpos' hn', Nat.mul_mul_mul_comm]
  · omega
  · omega

theorem compare_significand_of_lt (hpos : 0 < n) (h : n < n') :
    (compare ((n.log2 : Int) - 52) (n'.log2 - 52)).then (compare (significand n) (significand n'))
      = .lt := by
  have hpos' := Nat.lt_trans hpos h
  have hle : n.log2 ≤ n'.log2 := (Nat.le_log2 (Nat.ne_of_gt hpos')).2
    (Nat.le_trans (Nat.log2_self_le (Nat.ne_of_gt hpos)) (Nat.le_of_lt h))
  obtain hlog | hlog := Nat.eq_or_lt_of_le hle
  · have hbits : significand n < significand n' := by
      rw [significand, significand, hlog]
      exact Nat.mul_lt_mul_of_pos_right h (Nat.two_pow_pos _)
    rw [hlog, Int.compare_eq_eq.2 rfl, Nat.compare_eq_lt.2 hbits]
    rfl
  · rw [Int.compare_eq_lt.2 (by omega)]
    rfl

theorem compare_significand (hpos : 0 < n) (hpos' : 0 < n') :
    (compare ((n.log2 : Int) - 52) (n'.log2 - 52)).then (compare (significand n) (significand n'))
      = compare n n' := by
  obtain hlt | rfl | hgt := Nat.lt_trichotomy n n'
  · rw [compare_significand_of_lt hpos hlt, Nat.compare_eq_lt.2 hlt]
  · rw [Int.compare_eq_eq.2 rfl, Nat.compare_eq_eq.2 rfl, Nat.compare_eq_eq.2 rfl]
    rfl
  · have hswap := congrArg Ordering.swap (compare_significand_of_lt hpos' hgt)
    rw [Ordering.swap_then, ← Std.OrientedCmp.eq_swap, ← Std.OrientedCmp.eq_swap] at hswap
    rw [hswap, Nat.compare_eq_gt.2 hgt]
    rfl

end Signed

/-! ## Integers -/

/-- The sign of an integer; zero has none. -/
def signOf (n : Int) : Sign := if n < 0 then .negative else .positive

/-- An integer as a number. -/
def integer (n : Int) : UnpackedFloat := signed (signOf n) n.natAbs

section Integer

variable {a b n : Int}

theorem signOf_of_neg (h : n < 0) : signOf n = .negative := if_pos h

theorem signOf_of_nonneg (h : 0 ≤ n) : signOf n = .positive := if_neg (Int.not_lt.2 h)

theorem neg_integer (h : n ≠ 0) : (integer n).neg = integer (-n) := by
  have hpos := Int.natAbs_pos.2 h
  rw [integer, integer, Int.natAbs_neg, signed_of_pos _ hpos, signed_of_pos _ hpos]
  obtain hneg | hpos := Int.lt_or_gt_of_ne h
  · rw [signOf_of_neg hneg, signOf_of_nonneg (by omega)]
    rfl
  · rw [signOf_of_nonneg (Int.le_of_lt hpos), signOf_of_neg (by omega)]
    rfl

/-- The bits of an integer with its sign, at an exponent that is not above its own. -/
theorem apply_shiftLeft {k : Nat} (ha : a ≠ 0) (h : a.natAbs < 2 ^ 53) (hk : k ≤ a.natAbs.log2) :
    (signOf a).apply
        (significand a.natAbs <<< ((a.natAbs.log2 : Int) - 52 - (k - 52)).toNat : Nat)
      * (2 ^ k : Nat) = a * (2 ^ 52 : Nat) := by
  have hlog := log2_le_of_lt (Int.natAbs_pos.2 ha) h
  have hbits : significand a.natAbs <<< ((a.natAbs.log2 : Int) - 52 - (k - 52)).toNat * 2 ^ k
      = a.natAbs * 2 ^ 52 := by
    rw [Nat.shiftLeft_eq, significand, Nat.mul_assoc, Nat.mul_assoc, ← pow_add, ← pow_add]
    congr 2
    omega
  obtain hneg | hpos := Int.lt_or_gt_of_ne ha
  · rw [signOf_of_neg hneg]
    change -(_ : Int) * _ = _
    rw [Int.neg_mul, ← Nat.cast_mul, hbits, Nat.cast_mul, ← Int.neg_mul]
    congr 1
    omega
  · rw [signOf_of_nonneg (Int.le_of_lt hpos)]
    change ((_ : Nat) : Int) * _ = _
    rw [← Nat.cast_mul, hbits, Nat.cast_mul]
    congr 1
    omega

/-- What adds up to an integer of at most 53 bits is that integer. -/
theorem normalize_integer {m : Int} {k b : Nat} {e : Int} (h : n.natAbs < 2 ^ 53)
    (heq : m * (2 ^ k : Nat) = n * (2 ^ b : Nat)) (he : e = k - b) (hle : -1074 ≤ e) :
    UnpackedFloat.normalize binary64 m e .positive = integer n := by
  have hmagnitude : m.natAbs * 2 ^ k = n.natAbs * 2 ^ b := by
    have := congrArg Int.natAbs heq
    rwa [Int.natAbs_mul, Int.natAbs_mul, Int.natAbs_natCast, Int.natAbs_natCast] at this
  have hsign : m.sign = n.sign := by
    have := congrArg Int.sign heq
    rwa [Int.sign_mul, Int.sign_mul, Int.sign_natCast_of_ne_zero (Nat.ne_of_gt (Nat.two_pow_pos k)),
      Int.sign_natCast_of_ne_zero (Nat.ne_of_gt (Nat.two_pow_pos b)), Int.mul_one,
      Int.mul_one] at this
  delta UnpackedFloat.normalize
  split
  · next hlt =>
    rw [Int.compare_eq_lt] at hlt
    have hn : n < 0 := Int.sign_eq_neg_one_iff_neg.1 (hsign ▸ Int.sign_eq_neg_one_of_neg hlt)
    rw [integer, signOf_of_neg hn, show (-m).toNat = m.natAbs by omega]
    exact round_signed (by omega) h hmagnitude he hle
  · next hzero =>
    rw [Int.compare_eq_eq] at hzero
    subst hzero
    obtain rfl : n = 0 := Int.sign_eq_zero_iff_zero.1 hsign.symm
    rfl
  · next hgt =>
    rw [Int.compare_eq_gt] at hgt
    have hn : 0 < n := Int.sign_eq_one_iff_pos.1 (hsign ▸ Int.sign_eq_one_of_pos hgt)
    rw [integer, signOf_of_nonneg (Int.le_of_lt hn), show m.toNat = m.natAbs by omega]
    exact round_signed (by omega) h hmagnitude he hle

theorem min_sub_bits (k k' : Nat) : min ((k : Int) - 52) (k' - 52) = (min k k' : Nat) - 52 := by
  omega

/-- **Sums are exact** up to 53 bits. -/
theorem add_integer (ha : a.natAbs < 2 ^ 53) (hb : b.natAbs < 2 ^ 53)
    (h : (a + b).natAbs < 2 ^ 53) :
    UnpackedFloat.add binary64 (integer a) (integer b) = integer (a + b) := by
  by_cases hazero : a = 0
  · rw [hazero, Int.zero_add]
    by_cases hbzero : b = 0
    · rw [hbzero]
      rfl
    · rw [integer, integer, signed_of_pos _ (Int.natAbs_pos.2 hbzero)]
      rfl
  by_cases hbzero : b = 0
  · rw [hbzero, Int.add_zero, integer, signed_of_pos _ (Int.natAbs_pos.2 hazero)]
    rfl
  rw [integer, integer, signed_of_pos _ (Int.natAbs_pos.2 hazero),
    signed_of_pos _ (Int.natAbs_pos.2 hbzero)]
  change UnpackedFloat.normalize binary64 (_ + _) _ _ = _
  rw [min_sub_bits]
  refine normalize_integer (k := min a.natAbs.log2 b.natAbs.log2) (b := 52) h ?_ rfl (by omega)
  rw [Int.add_mul, apply_shiftLeft hazero ha (Nat.min_le_left _ _),
    apply_shiftLeft hbzero hb (Nat.min_le_right _ _), ← Int.add_mul]

theorem sub_finite (x : UnpackedFloat) {s : Sign} {m : Nat} {e : Int} (hm : 0 < m) :
    UnpackedFloat.sub binary64 x (.finite s m e hm)
      = UnpackedFloat.add binary64 x (UnpackedFloat.finite s m e hm).neg := by
  cases x with
  | finite s' m' e' hm' =>
    change UnpackedFloat.normalize _ (_ - _) _ _ = UnpackedFloat.normalize _ (_ + _) _ _
    rw [Int.sub_eq_add_neg]
    cases s with
    | positive => rfl
    | negative =>
      have hneg (k : Nat) : -Sign.negative.apply k = Sign.positive.apply k := Int.neg_neg k
      rw [hneg]
      rfl
  | zero s' => rfl
  | infinity s' => rfl
  | notANumber => rfl

/-- **Differences are exact** up to 53 bits. -/
theorem sub_integer (ha : a.natAbs < 2 ^ 53) (hb : b.natAbs < 2 ^ 53)
    (h : (a - b).natAbs < 2 ^ 53) :
    UnpackedFloat.sub binary64 (integer a) (integer b) = integer (a - b) := by
  by_cases hbzero : b = 0
  · rw [hbzero, Int.sub_zero]
    by_cases hazero : a = 0
    · rw [hazero]
      rfl
    · rw [integer, signed_of_pos _ (Int.natAbs_pos.2 hazero)]
      rfl
  have hsub : UnpackedFloat.sub binary64 (integer a) (integer b)
      = UnpackedFloat.add binary64 (integer a) (integer b).neg := by
    rw [integer.eq_def b, signed_of_pos _ (Int.natAbs_pos.2 hbzero), sub_finite]
  rw [hsub, neg_integer hbzero, add_integer ha (by omega) (by omega), Int.sub_eq_add_neg]

theorem integer_of_neg (h : n < 0) : integer n = .finite .negative (significand n.natAbs)
    (n.natAbs.log2 - 52) (significand_pos (by omega)) := by
  rw [integer, signOf_of_neg h, signed_of_pos _ (by omega)]

theorem integer_of_pos (h : 0 < n) : integer n = .finite .positive (significand n.natAbs)
    (n.natAbs.log2 - 52) (significand_pos (by omega)) := by
  rw [integer, signOf_of_nonneg (Int.le_of_lt h), signed_of_pos _ (by omega)]

theorem compare_natAbs_of_pos (ha : 0 < a) (hb : 0 < b) :
    compare a.natAbs b.natAbs = compare a b := by
  obtain hlt | rfl | hgt := Int.lt_trichotomy a b
  · rw [Int.compare_eq_lt.2 hlt, Nat.compare_eq_lt.2 (by omega)]
  · rw [Int.compare_eq_eq.2 rfl, Nat.compare_eq_eq.2 rfl]
  · rw [Int.compare_eq_gt.2 hgt, Nat.compare_eq_gt.2 (by omega)]

theorem compare_natAbs_of_neg (ha : a < 0) (hb : b < 0) :
    (compare a.natAbs b.natAbs).swap = compare a b := by
  obtain hlt | rfl | hgt := Int.lt_trichotomy a b
  · rw [Int.compare_eq_lt.2 hlt, Nat.compare_eq_gt.2 (by omega)]
    rfl
  · rw [Int.compare_eq_eq.2 rfl, Nat.compare_eq_eq.2 rfl]
    rfl
  · rw [Int.compare_eq_gt.2 hgt, Nat.compare_eq_lt.2 (by omega)]
    rfl

/-- **Integers compare as they do as numbers.** -/
theorem compare_integer (a b : Int) : (integer a).compare (integer b) = some (compare a b) := by
  obtain ha | rfl | ha := Int.lt_trichotomy a 0
  · rw [integer_of_neg ha]
    obtain hb | rfl | hb := Int.lt_trichotomy b 0
    · rw [integer_of_neg hb, ← compare_natAbs_of_neg ha hb, ← compare_significand (by omega)
        (by omega)]
      rfl
    · rw [Int.compare_eq_lt.2 ha]
      rfl
    · rw [integer_of_pos hb, Int.compare_eq_lt.2 (Int.lt_trans ha hb)]
      rfl
  · obtain hb | rfl | hb := Int.lt_trichotomy b 0
    · rw [integer_of_neg hb, Int.compare_eq_gt.2 hb]
      rfl
    · rfl
    · rw [integer_of_pos hb, Int.compare_eq_lt.2 hb]
      rfl
  · rw [integer_of_pos ha]
    obtain hb | rfl | hb := Int.lt_trichotomy b 0
    · rw [integer_of_neg hb, Int.compare_eq_gt.2 (Int.lt_trans hb ha)]
      rfl
    · rw [Int.compare_eq_gt.2 ha]
      rfl
    · rw [integer_of_pos hb, ← compare_natAbs_of_pos ha hb, ← compare_significand (by omega)
        (by omega)]
      rfl

/-! ## Numbers made of integers -/

theorem sub_eq (x y : Float) : x - y = ⟨.pack (.sub .binary64 (view x) (view y))⟩ := rfl

theorem div_eq (x y : Float) : x / y = ⟨.pack (.div .binary64 (view x) (view y))⟩ := rfl

theorem integer_natCast (n : Nat) : integer n = signed .positive n := by
  rw [integer, signOf_of_nonneg (Int.natCast_nonneg n), Int.natAbs_natCast]

theorem tenToZero_eq {h : 0 < Float.exactlyRepresentablePowersOfTen.size} :
    Float.exactlyRepresentablePowersOfTen[0] = ⟨.pack (signed .positive 1)⟩ := by
  decide +kernel +revert

/-- A word of at most 53 bits is the number that it is made to. -/
theorem view_toFloat {i : UInt64} (h : i.toNat < 2 ^ 53) :
    view i.toFloat = signed .positive i.toNat := by
  have hinteger : UnpackedFloat.ofNat binary64 i.toNat = integer i.toNat :=
    normalize_integer (k := 0) (b := 0) (by rwa [Int.natAbs_natCast]) rfl rfl (by decide)
  change view ⟨.pack (.ofNat binary64 i.toNat)⟩ = _
  rw [hinteger, integer_natCast]
  exact view_pack_signed h

/-- A larger word is rounded, but not beyond what 64 bits stand for. -/
theorem spans_toFloat {i : UInt64} (h : 0 < i.toNat) : Spans (view i.toFloat) (-52) 12 := by
  have hlog : i.toNat.log2 < 64 := (Nat.log2_lt (Nat.ne_of_gt h)).2 i.toNat_lt_size
  have hshift : (0 - binary64.targetExponent (totalExponent i.toNat 0)).toNat
      = 52 - i.toNat.log2 := by
    rw [targetExponent_eq, totalExponent]
    omega
  have hbits : (i.toNat * 2 ^ (52 - i.toNat.log2)).log2 = i.toNat.log2 + (52 - i.toNat.log2) :=
    log2_mul_two_pow h _
  have hle : 2 ^ 52 ≤ i.toNat * 2 ^ (52 - i.toNat.log2) := by
    rw [← Nat.le_log2 (Nat.ne_of_gt (Nat.mul_pos h (Nat.two_pow_pos _))), hbits]
    omega
  have hround : UnpackedFloat.ofNat binary64 i.toNat = roundWithAccuracy binary64 .positive
      (i.toNat * 2 ^ (52 - i.toNat.log2)) (0 - (52 - i.toNat.log2 : Nat)) .exact := by
    change UnpackedFloat.normalize _ _ _ _ = _
    delta UnpackedFloat.normalize
    rw [Int.compare_eq_gt.2 (by omega)]
    delta UnpackedFloat.round decreaseExponent
    dsimp only
    rw [Int.toNat_natCast, hshift, Nat.shiftLeft_eq]
  have hspans := spans_roundWithAccuracy hle
    (show -1074 ≤ 0 - ((52 - i.toNat.log2 : Nat) : Int) by omega)
  rw [← hround, hbits] at hspans
  exact (hspans.mono (by omega) (by omega)).view_pack (by decide) (by decide)

/-- A natural number of at most 53 bits is the number that it is made to. -/
theorem ofNat_eq {n : Nat} (h : n < 2 ^ 53) : Float.ofNat n = ⟨.pack (integer n)⟩ := by
  have hword : n.toUInt64.toNat = n := by
    rw [Nat.toUInt64, UInt64.toNat_ofNat']
    omega
  have hview : view n.toUInt64.toFloat = signed .positive n := by
    rw [view_toFloat (hword.trans_lt h), hword]
  change Float.ofScientific n false 0 = _
  delta Float.ofScientific
  dsimp only
  rw [dif_pos ⟨h, Nat.zero_le 22⟩, if_neg Bool.false_ne_true, mul_eq, hview, tenToZero_eq,
    view_pack_signed (by decide), mul_signed h (by decide) (by rwa [Nat.mul_one]), Nat.mul_one,
    integer_natCast]
  rfl

theorem view_pack_integer (h : n.natAbs < 2 ^ 53) : view ⟨.pack (integer n)⟩ = integer n :=
  view_pack_signed h

/-- An integer of at most 53 bits is the number that it is made to. -/
theorem ofInt_eq (h : n.natAbs < 2 ^ 53) : Float.ofInt n = ⟨.pack (integer n)⟩ := by
  cases n with
  | ofNat n => exact ofNat_eq h
  | negSucc n =>
    have h' : ((n + 1 : Nat) : Int).natAbs < 2 ^ 53 := h
    change Float.ofModel (.pack (view (Float.ofNat (n + 1))).neg) = _
    rw [ofNat_eq (n := n + 1) h, view_pack_integer h', neg_integer (by omega)]
    rfl

theorem view_ofInt (h : n.natAbs < 2 ^ 53) : view (Float.ofInt n) = integer n := by
  rw [ofInt_eq h, view_pack_integer h]

/-- **Differences of integers are exact.** -/
theorem ofInt_sub (ha : a.natAbs < 2 ^ 53) (hb : b.natAbs < 2 ^ 53) (h : (a - b).natAbs < 2 ^ 53) :
    Float.ofInt a - Float.ofInt b = Float.ofInt (a - b) := by
  rw [sub_eq, view_ofInt ha, view_ofInt hb, sub_integer ha hb h, ofInt_eq h]

theorem integer_natCast_mul {i : Nat} (hi : 0 < i) (b : Int) :
    integer (i * b) = signed (signOf b) (i * b.natAbs) := by
  have hsign : signOf (i * b) = signOf b := by
    obtain hneg | hnonneg := Int.lt_or_le b 0
    · rw [signOf_of_neg hneg, signOf_of_neg (Int.mul_neg_of_pos_of_neg (by omega) hneg)]
    · rw [signOf_of_nonneg hnonneg, signOf_of_nonneg (Int.mul_nonneg (by omega) hnonneg)]
  rw [integer, hsign, Int.natAbs_mul, Int.natAbs_natCast]

theorem add_signed_zero (a : Int) (s : Sign) :
    UnpackedFloat.add binary64 (integer a) (signed s 0) = integer a := by
  by_cases hzero : a = 0
  · subst hzero
    cases s <;> rfl
  · rw [integer, signed_of_pos _ (Int.natAbs_pos.2 hzero)]
    rfl

/-- **Products of integers are exact**, and the sign of a product that is zero is not seen in a
sum. -/
theorem ofInt_add_mul {i : UInt64} {k : Nat} (hi : i.toNat = k) (ha : a.natAbs < 2 ^ 53)
    (hk : k < 2 ^ 53) (hb : b.natAbs < 2 ^ 53) (hmul : (k * b).natAbs < 2 ^ 53)
    (h : (a + k * b).natAbs < 2 ^ 53) :
    Float.ofInt a + i.toFloat * Float.ofInt b = Float.ofInt (a + k * b) := by
  have hmul' : k * b.natAbs < 2 ^ 53 := by rwa [Int.natAbs_mul, Int.natAbs_natCast] at hmul
  have hproduct : i.toFloat * Float.ofInt b = ⟨.pack (signed (signOf b) (k * b.natAbs))⟩ := by
    rw [mul_eq, view_toFloat (hi.trans_lt hk), hi, view_ofInt hb, integer, mul_signed hk hb hmul']
    cases signOf b <;> rfl
  rw [hproduct, add_eq, view_ofInt ha, view_pack_signed hmul', ofInt_eq h]
  obtain rfl | hpos := Nat.eq_zero_or_pos k
  · rw [Nat.zero_mul, add_signed_zero, Nat.cast_zero, Int.zero_mul, Int.add_zero]
  · rw [← integer_natCast_mul hpos, add_integer ha hmul h]

theorem isFinite_ofInt (h : n.natAbs < 2 ^ 53) : (Float.ofInt n).isFinite = true := by
  change (view (Float.ofInt n)).isFinite = true
  rw [view_ofInt h, integer]
  obtain hzero | hpos := Nat.eq_zero_or_pos n.natAbs
  · rw [hzero]
    rfl
  · rw [signed_of_pos _ hpos]
    rfl

theorem ofInt_lt_iff (ha : a.natAbs < 2 ^ 53) (hb : b.natAbs < 2 ^ 53) :
    Float.ofInt a < Float.ofInt b ↔ a < b := by
  rw [lt_iff, view_ofInt ha, view_ofInt hb, compare_integer, Option.some_inj, Int.compare_eq_lt]

theorem ofInt_beq_iff (ha : a.natAbs < 2 ^ 53) (hb : b.natAbs < 2 ^ 53) :
    (Float.ofInt a == Float.ofInt b) = true ↔ a = b := by
  rw [beq_iff, view_ofInt ha, view_ofInt hb, compare_integer, Option.some_inj, Int.compare_eq_eq]

end Integer

end Number

end CommandScript
