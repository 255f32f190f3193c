import CommandScript.Number.Decimal
import CommandScript.Proofs.Number.View
import Mathlib.Algebra.Group.Nat.Defs

/-!
# Proofs/Number/Sign — the sign of a number

A finite number is a sign, an exponent and a fraction side by side (`Number.Parts`). Negation and
magnitude change the sign and nothing else, and so does the text of a number: a negative one is
written as its magnitude behind a minus (`Number.neg_abs_of_lt_zero`).
-/

namespace CommandScript

open Float.Model (UnpackedFloat)
open Float.Model.UnpackedFloat (Sign packComponents unpackSign unpackExponent unpackMantissa
  unpackExponent_packComponents unpackMantissa_packComponents)

/-- The sign of the exact value. -/
def Exact.sign (e : Exact) : Sign := if e.negative then .negative else .positive

/-- What a number with the exact value is. -/
def Exact.unpacked (e : Exact) : UnpackedFloat :=
  if h : e.mantissa = 0 then .zero e.sign
  else .finite e.sign e.mantissa e.exponent (Nat.pos_of_ne_zero h)

theorem Exact.unpacked_of_zero {e : Exact} (h : e.mantissa = 0) : e.unpacked = .zero e.sign :=
  dif_pos h

theorem Exact.unpacked_of_pos {e : Exact} {m : Nat} {k : Int} (hm : 0 < m)
    (hmantissa : e.mantissa = m) (hexponent : e.exponent = k) :
    e.unpacked = .finite e.sign m k hm := by
  subst hmantissa hexponent
  exact dif_neg (Nat.ne_of_gt hm)

theorem Exact.unpacked_neg (e : Exact) :
    e.unpacked.neg = Exact.unpacked { e with negative := !e.negative } := by
  obtain ⟨negative, mantissa, exponent⟩ := e
  by_cases h : mantissa = 0
  · rw [unpacked_of_zero h, unpacked_of_zero h]
    cases negative <;> rfl
  · have hpos := Nat.pos_of_ne_zero h
    rw [unpacked_of_pos hpos rfl rfl, unpacked_of_pos hpos rfl rfl]
    cases negative <;> rfl

theorem Exact.unpacked_abs (e : Exact) :
    e.unpacked.abs = Exact.unpacked { e with negative := false } := by
  obtain ⟨negative, mantissa, exponent⟩ := e
  by_cases h : mantissa = 0
  · rw [unpacked_of_zero h, unpacked_of_zero h]
    rfl
  · have hpos := Nat.pos_of_ne_zero h
    rw [unpacked_of_pos hpos rfl rfl, unpacked_of_pos hpos rfl rfl]
    rfl

theorem Exact.compare_zero (e : Exact) : e.unpacked.compare (.zero .positive)
    = some (if e.mantissa = 0 then .eq else if e.negative then .lt else .gt) := by
  by_cases h : e.mantissa = 0
  · rw [if_pos h, unpacked_of_zero h]
    rfl
  · rw [if_neg h, unpacked_of_pos (Nat.pos_of_ne_zero h) rfl rfl, sign]
    cases e.negative <;> rfl

namespace Number

/-- The parts of a finite number as they stand in its bits. -/
structure Parts where
  negative : Bool
  exponent : BitVec 11
  fraction : BitVec 52
  finite : exponent ≠ -1#11

namespace Parts

variable (p : Parts)

/-- The exact value of the number. -/
def exact : Exact :=
  if p.exponent = 0#11 then ⟨p.negative, p.fraction.toNat, -1074⟩
  else ⟨p.negative, 2 ^ 52 + p.fraction.toNat, (p.exponent.toNat : Int) - 1075⟩

/-- The bits of the number. -/
def bits : BitVec 64 := packComponents .binary64 p.exact.sign p.exponent p.fraction

theorem sign_exact : p.exact.sign = if p.negative then .negative else .positive := by
  unfold exact
  split <;> rfl

theorem toNat_packComponents (s : Sign) (e : BitVec 11) (f : BitVec 52) :
    (packComponents .binary64 s e f).toNat
      = s.toBitVec.toNat * 2 ^ 63 + e.toNat * 2 ^ 52 + f.toNat := by
  rw [packComponents, BitVec.toNat_append, BitVec.toNat_append,
    ← Nat.shiftLeft_add_eq_or_of_lt f.isLt, ← Nat.shiftLeft_add_eq_or_of_lt e.isLt]
  simp only [Nat.shiftLeft_eq]
  omega

theorem toNat_bits : p.bits.toNat
    = p.negative.toNat * 2 ^ 63 + p.exponent.toNat * 2 ^ 52 + p.fraction.toNat := by
  have hsign : p.exact.sign.toBitVec.toNat = p.negative.toNat := by
    rw [sign_exact]
    cases p.negative <;> rfl
  rw [bits, toNat_packComponents, hsign]

theorem sign_packComponents (s : Sign) (e : BitVec 11) (m : BitVec 52) :
    Sign.ofBitVec (unpackSign (packComponents .binary64 s e m)) = s := by
  unfold packComponents
  delta unpackSign
  rw [BitVec.extractLsb,
    BitVec.extractLsb'_append_eq_of_le (by decide), BitVec.extractLsb'_append_eq_of_le (by decide)]
  cases s <;> rfl

theorem toNat_one_append (m : BitVec 52) : (1#1 ++ m).toNat = 2 ^ 52 + m.toNat := by
  rw [BitVec.toNat_append, ← Nat.shiftLeft_add_eq_or_of_lt m.isLt]
  rfl

theorem exact_of_zero (h : p.exponent = 0#11) :
    p.exact = ⟨p.negative, p.fraction.toNat, -1074⟩ :=
  if_pos h

theorem exact_of_ne_zero (h : p.exponent ≠ 0#11) :
    p.exact = ⟨p.negative, 2 ^ 52 + p.fraction.toNat, (p.exponent.toNat : Int) - 1075⟩ :=
  if_neg h

theorem unpack_bits : UnpackedFloat.unpack .binary64 p.bits = p.exact.unpacked := by
  have hmantissa : unpackMantissa (packComponents .binary64 p.exact.sign p.exponent p.fraction)
      = p.fraction := unpackMantissa_packComponents
  unfold UnpackedFloat.unpack bits
  dsimp only
  rw [sign_packComponents, unpackExponent_packComponents, if_neg p.finite]
  by_cases hzero : p.exponent = 0#11
  · have hexact := p.exact_of_zero hzero
    rw [if_pos hzero]
    by_cases hfraction : p.fraction = 0#52
    · rw [dif_pos (hmantissa.trans hfraction),
        Exact.unpacked_of_zero (by rw [hexact, hfraction]; rfl)]
    · rw [dif_neg fun h => hfraction (hmantissa.symm.trans h)]
      refine (Exact.unpacked_of_pos _ (by rw [hmantissa, hexact]) ?_).symm
      rw [hexact, hzero]
      rfl
  · rw [if_neg hzero]
    have hexact := p.exact_of_ne_zero hzero
    refine (Exact.unpacked_of_pos _ (by rw [hmantissa, toNat_one_append, hexact]) ?_).symm
    rw [hexact]
    rfl

/-- Below the normal numbers there is no leading bit to leave out. -/
theorem pack_small {s : Sign} {m : Nat} (hm : 0 < m) (hlt : m < 2 ^ 52) :
    UnpackedFloat.pack .binary64 (.finite s m (-1074) hm)
      = packComponents .binary64 s 0#11 (BitVec.ofNat 52 m) := by
  have hlog : m.log2 < 52 := (Nat.log2_lt (Nat.ne_of_gt hm)).2 hlt
  have hbits : ¬ m.log2 + 1 = 53 := by omega
  exact if_neg hbits

/-- The leading bit of a normal number is left out. -/
theorem pack_normal {s : Sign} {e : BitVec 11} {f : BitVec 52} (he : e ≠ -1#11)
    (hm : 0 < 2 ^ 52 + f.toNat) :
    UnpackedFloat.pack .binary64 (.finite s (2 ^ 52 + f.toNat) (e.toNat - 1075) hm)
      = packComponents .binary64 s e f := by
  have hfraction := f.isLt
  have hlog : (2 ^ 52 + f.toNat).log2 = 52 :=
    (Nat.log2_eq_iff (Nat.ne_of_gt hm)).2 ⟨by omega, by omega⟩
  have hbits : (2 ^ 52 + f.toNat).log2 + 1 = 53 := by omega
  have hbiased : ((e.toNat : Int) - 1075 + 1023 + 52).toNat = e.toNat := by omega
  have hexponent : ¬ 2 ^ 11 ≤ ((e.toNat : Int) - 1075 + 1023 + 52).toNat + 1 := by
    have hne : e.toNat ≠ 2047 := fun h => he (BitVec.eq_of_toNat_eq h)
    have hlt := e.isLt
    omega
  have hmantissa : BitVec.ofNat 52 (2 ^ 52 + f.toNat) = f :=
    BitVec.eq_of_toNat_eq (by rw [BitVec.toNat_ofNat]; omega)
  refine (if_neg hexponent).trans ((if_pos hbits).trans ?_)
  change packComponents .binary64 s
    (BitVec.ofNat 11 ((e.toNat : Int) - 1075 + 1023 + 52).toNat) (BitVec.ofNat 52 _) = _
  rw [hbiased, hmantissa, BitVec.ofNat_toNat, BitVec.setWidth_eq]

/-- Packing the number gives its bits back. -/
theorem pack_unpacked : UnpackedFloat.pack .binary64 p.exact.unpacked = p.bits := by
  by_cases hzero : p.exponent = 0#11
  · have hexact := p.exact_of_zero hzero
    by_cases hmantissa : p.fraction.toNat = 0
    · have hfraction : p.fraction = 0#52 := BitVec.eq_of_toNat_eq hmantissa
      rw [Exact.unpacked_of_zero (by rw [hexact]; exact hmantissa), bits, hzero, hfraction]
      rfl
    · rw [Exact.unpacked_of_pos (Nat.pos_of_ne_zero hmantissa) (by rw [hexact]) (by rw [hexact]),
        pack_small _ p.fraction.isLt, bits, hzero, BitVec.ofNat_toNat, BitVec.setWidth_eq]
  · have hexact := p.exact_of_ne_zero hzero
    rw [Exact.unpacked_of_pos (by omega : 0 < 2 ^ 52 + p.fraction.toNat) (by rw [hexact])
      (by rw [hexact]), pack_normal p.finite, bits]

/-- The number with these parts. -/
def number : Float := ⟨.pack p.exact.unpacked⟩

theorem toBits_number : p.number.toBits = ⟨p.bits⟩ := congrArg UInt64.ofBitVec p.pack_unpacked

theorem view_number : view p.number = p.exact.unpacked := by
  rw [view, Float.Model.unpack, ← p.unpack_bits]
  exact congrArg (UnpackedFloat.unpack .binary64) p.pack_unpacked

theorem exact_number : Exact.of? p.number = some p.exact := by
  have hexponent := p.exponent.isLt
  have hfraction := p.fraction.isLt
  have hbits : p.number.toBits.toNat
      = p.negative.toNat * 2 ^ 63 + p.exponent.toNat * 2 ^ 52 + p.fraction.toNat := by
    rw [toBits_number]
    exact p.toNat_bits
  have hnegative : decide (2 ^ 63 ≤ p.number.toBits.toNat) = p.negative := by
    rw [hbits]
    cases p.negative <;> simp <;> omega
  have hfield : p.number.toBits.toNat / 2 ^ 52 % 2 ^ 11 = p.exponent.toNat := by omega
  have hrest : p.number.toBits.toNat % 2 ^ 52 = p.fraction.toNat := by omega
  have hfinite : ¬ p.exponent.toNat = 2 ^ 11 - 1 := fun h => p.finite (BitVec.eq_of_toNat_eq h)
  unfold Exact.of?
  simp only [Nat.pow_eq, hnegative, hfield, hrest]
  rw [if_neg hfinite]
  by_cases hzero : p.exponent = 0#11
  · rw [exact_of_zero p hzero, hzero]
    rfl
  · have hne : ¬ p.exponent.toNat = 0 := fun h => hzero (BitVec.eq_of_toNat_eq h)
    rw [exact_of_ne_zero p hzero, if_neg hne]

/-- The parts with another sign. -/
def withSign (negative : Bool) : Parts := { p with negative := negative }

theorem exact_withSign (negative : Bool) :
    (p.withSign negative).exact = { p.exact with negative := negative } := by
  by_cases hzero : p.exponent = 0#11
  · rw [exact_of_zero p hzero, exact_of_zero (p.withSign negative) hzero]
    rfl
  · rw [exact_of_ne_zero p hzero, exact_of_ne_zero (p.withSign negative) hzero]
    rfl

theorem negative_exact : p.exact.negative = p.negative := by
  unfold exact
  split <;> rfl

theorem neg_number : -p.number = (p.withSign !p.negative).number := by
  change Float.ofModel (.pack (view p.number).neg) = _
  rw [view_number, Exact.unpacked_neg, negative_exact, ← exact_withSign, number]

theorem abs_number : p.number.abs = (p.withSign false).number := by
  change Float.ofModel (.pack (view p.number).abs) = _
  rw [view_number, Exact.unpacked_abs, ← exact_withSign, number]

end Parts

theorem eq_of_toBits {x y : Float} (h : x.toBits = y.toBits) : x = y := by
  obtain ⟨⟨bits, hx⟩⟩ := x
  obtain ⟨⟨_, hy⟩⟩ := y
  obtain rfl : bits = _ := h
  rfl

/-- All bits are the bits of some parts. -/
theorem exists_components (b : BitVec 64) :
    ∃ s e f, b = packComponents .binary64 s e f := by
  refine ⟨if 2 ^ 63 ≤ b.toNat then .negative else .positive, BitVec.ofNat 11 (b.toNat / 2 ^ 52),
    BitVec.ofNat 52 b.toNat, BitVec.eq_of_toNat_eq ?_⟩
  have hlt := b.isLt
  rw [Parts.toNat_packComponents, BitVec.toNat_ofNat, BitVec.toNat_ofNat]
  split
  · change _ = 1 * 2 ^ 63 + _ + _
    omega
  · change _ = 0 * 2 ^ 63 + _ + _
    omega

/-- **Every finite number has its parts.** -/
theorem exists_parts {x : Float} (h : x.isFinite = true) : ∃ p : Parts, x = p.number := by
  obtain ⟨⟨⟨b⟩, hvalid⟩⟩ := x
  obtain ⟨s, e, f, rfl⟩ := exists_components b
  have he : e ≠ -1#11 := by
    intro he
    change (UnpackedFloat.unpack .binary64 (packComponents .binary64 s e f)).isFinite = true at h
    unfold UnpackedFloat.unpack at h
    dsimp only at h
    rw [unpackExponent_packComponents, if_pos he] at h
    split at h <;> exact absurd h Bool.false_ne_true
  obtain ⟨negative, rfl⟩ : ∃ negative : Bool, s = if negative then .negative else .positive := by
    cases s with
    | negative => exact ⟨true, rfl⟩
    | positive => exact ⟨false, rfl⟩
  refine ⟨⟨negative, e, f, he⟩, ?_⟩
  have hbits := Parts.toBits_number ⟨negative, e, f, he⟩
  rw [Parts.bits, Parts.sign_exact] at hbits
  exact eq_of_toBits hbits.symm

/-! ## Magnitude and text -/

namespace Parts

variable (p : Parts)

theorem withSign_eq_self {negative : Bool} (h : p.negative = negative) :
    p.withSign negative = p := by
  subst h
  rfl

theorem number_lt_zero_iff :
    p.number < 0 ↔ p.exact.mantissa ≠ 0 ∧ p.negative = true := by
  rw [lt_iff, view_number, view_zero, Exact.compare_zero, negative_exact]
  split <;> cases p.negative <;> simp [*]

theorem number_beq_zero_iff : (p.number == 0) = true ↔ p.exact.mantissa = 0 := by
  rw [beq_iff, view_number, view_zero, Exact.compare_zero, negative_exact]
  split <;> cases p.negative <;> simp [*]

/-- The text of a negative number is that of its magnitude behind a minus. -/
theorem text_of_negative (h : p.negative = true) :
    text p.number = "-" ++ text (p.withSign false).number := by
  have hmagnitude : (p.withSign false).number.abs = p.number.abs := by
    rw [abs_number, abs_number]
    rfl
  have hexact : p.exact = ⟨true, p.exact.mantissa, p.exact.exponent⟩ := by
    rw [← h, ← negative_exact]
  rw [text, text, exact_number, exact_number, exact_withSign, hmagnitude, hexact]
  rfl

end Parts

variable {x : Float}

/-- **A negative number is its magnitude behind a minus**, as a number and as a text. -/
theorem neg_abs_of_lt_zero (hfinite : x.isFinite = true) (h : x < 0) :
    -x.abs = x ∧ text x = "-" ++ text x.abs := by
  obtain ⟨p, rfl⟩ := exists_parts hfinite
  have hnegative := (p.number_lt_zero_iff.1 h).2
  rw [p.abs_number, Parts.neg_number]
  exact ⟨congrArg Parts.number (p.withSign_eq_self hnegative), p.text_of_negative hnegative⟩

/-- Any other number but zero is its magnitude. -/
theorem abs_of_not_lt_zero (hfinite : x.isFinite = true) (hzero : ¬ (x == 0) = true)
    (h : ¬ x < 0) : x.abs = x := by
  obtain ⟨p, rfl⟩ := exists_parts hfinite
  rw [p.number_beq_zero_iff] at hzero
  have hnegative : p.negative = false := by
    rw [← Bool.not_eq_true]
    exact fun hnegative => h (p.number_lt_zero_iff.2 ⟨hzero, hnegative⟩)
  rw [p.abs_number, p.withSign_eq_self hnegative]

/-- The sign bit of a magnitude is clear. -/
theorem exact_abs (hfinite : x.isFinite = true) :
    ∃ e, Exact.of? x.abs = some e ∧ e.negative = false := by
  obtain ⟨p, rfl⟩ := exists_parts hfinite
  rw [p.abs_number]
  exact ⟨_, Parts.exact_number _, Parts.negative_exact _⟩

end Number

end CommandScript
