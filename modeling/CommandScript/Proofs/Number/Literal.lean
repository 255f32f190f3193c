import CommandScript.Proofs.Number.Sign

/-!
# Proofs/Number/Literal — numbers as they are written have no sign and are defined

A literal is a row of digits with at most one point, and no sign. Neither has the number it stands
for: rounding, products and quotients of numbers without a sign have none (`Number.isPositive`), and
so the sign bit of a literal that stands for a finite number is clear (`Number.exact_ofLiteral`).
Only finite numbers have an exact value (`Number.isFinite_of_exact`). No literal is undefined, nor
is a natural number (`Number.isDefined`), so that each of them is equal to itself
(`Number.beq_ofNat`).
-/

namespace CommandScript

open Float.Model (UnpackedFloat)
open Float.Model.UnpackedFloat (Sign packComponents unpackExponent_packComponents)

namespace Number

/-- Whether the number has no minus in front. -/
def isPositive : UnpackedFloat → Bool
  | .infinity .negative | .zero .negative | .finite .negative _ _ _ => false
  | _ => true

/-- What holds of both branches holds of the choice between them. -/
theorem dite_of_branches {P : UnpackedFloat → Bool} {c : Prop} [Decidable c]
    {a : c → UnpackedFloat} {b : ¬ c → UnpackedFloat} (ha : ∀ h, P (a h) = true)
    (hb : ∀ h, P (b h) = true) : P (dite c a b) = true := by
  split
  · exact ha _
  · exact hb _

theorem ite_of_branches {P : UnpackedFloat → Bool} {c : Prop} [Decidable c] {a b : UnpackedFloat}
    (ha : P a = true) (hb : P b = true) : P (ite c a b) = true := by
  split
  · exact ha
  · exact hb

variable {u v : UnpackedFloat}

theorem isPositive_cases (h : isPositive u = true) : u = .notANumber ∨ u = .infinity .positive
    ∨ u = .zero .positive ∨ ∃ m e hm, u = .finite .positive m e hm := by
  cases u with
  | notANumber => exact .inl rfl
  | infinity s =>
    cases s with
    | negative => cases h
    | positive => exact .inr (.inl rfl)
  | zero s =>
    cases s with
    | negative => cases h
    | positive => exact .inr (.inr (.inl rfl))
  | finite s m e hm =>
    cases s with
    | negative => cases h
    | positive => exact .inr (.inr (.inr ⟨m, e, hm, rfl⟩))

theorem isPositive_roundWithAccuracy (m : Nat) (e : Int) (accuracy : UnpackedFloat.Accuracy) :
    isPositive (.roundWithAccuracy .binary64 .positive m e accuracy) = true := by
  delta UnpackedFloat.roundWithAccuracy
  dsimp only
  exact dite_of_branches (fun _ => rfl) fun _ => rfl

theorem isPositive_mul (hu : isPositive u = true) (hv : isPositive v = true) :
    isPositive (.mul .binary64 u v) = true := by
  obtain rfl | rfl | rfl | ⟨m, e, hm, rfl⟩ := isPositive_cases hu
  all_goals obtain rfl | rfl | rfl | ⟨m', e', hm', rfl⟩ := isPositive_cases hv
  all_goals first | rfl | exact isPositive_roundWithAccuracy _ _ _

theorem isPositive_div (hu : isPositive u = true) (hv : isPositive v = true) :
    isPositive (.div .binary64 u v) = true := by
  obtain rfl | rfl | rfl | ⟨m, e, hm, rfl⟩ := isPositive_cases hu
  all_goals obtain rfl | rfl | rfl | ⟨m', e', hm', rfl⟩ := isPositive_cases hv
  all_goals first | rfl | exact isPositive_roundWithAccuracy _ _ _

/-- A natural number is zero or rounded. -/
theorem ofNat_of_branches {P : UnpackedFloat → Bool} (hzero : P (.zero .positive) = true)
    (hround : ∀ m, P (.round .binary64 .positive m 0) = true) (n : Nat) :
    P (.ofNat .binary64 n) = true := by
  have hle : ¬ (n : Int) < 0 := by omega
  change P (match compare (n : Int) 0 with
    | .lt => .round .binary64 .negative (-(n : Int)).toNat 0
    | .eq => .zero .positive
    | .gt => .round .binary64 .positive (n : Int).toNat 0) = true
  split
  · next hlt => exact absurd (Int.compare_eq_lt.1 hlt) hle
  · exact hzero
  · exact hround _

theorem isPositive_ofNat (n : Nat) : isPositive (.ofNat .binary64 n) = true :=
  ofNat_of_branches rfl (fun _ => isPositive_roundWithAccuracy _ _ _) n

/-- The sign bit of such a number is clear. -/
theorem exists_pack_of_isPositive (hu : isPositive u = true) :
    ∃ e f, UnpackedFloat.pack .binary64 u = packComponents .binary64 .positive e f := by
  obtain rfl | rfl | rfl | ⟨m, e, hm, rfl⟩ := isPositive_cases hu
  · exact ⟨_, _, rfl⟩
  · exact ⟨_, _, rfl⟩
  · exact ⟨_, _, rfl⟩
  · delta UnpackedFloat.pack
    dsimp only
    split
    · exact ⟨_, _, rfl⟩
    · split <;> exact ⟨_, _, rfl⟩

theorem isPositive_view_pack (hu : isPositive u = true) : isPositive (view ⟨.pack u⟩) = true := by
  obtain ⟨e, f, hpack⟩ := exists_pack_of_isPositive hu
  have hview : view ⟨.pack u⟩
      = UnpackedFloat.unpack .binary64 (packComponents .binary64 .positive e f) :=
    congrArg (UnpackedFloat.unpack .binary64) hpack
  rw [hview]
  delta UnpackedFloat.unpack
  dsimp only
  rw [Parts.sign_packComponents]
  refine ite_of_branches (ite_of_branches rfl rfl) (ite_of_branches ?_ rfl)
  exact dite_of_branches (fun _ => rfl) fun _ => rfl

theorem isPositive_powerOfTen : ∀ x ∈ Float.exactlyRepresentablePowersOfTen.toList,
    isPositive (view x) = true := by
  decide

/-- A decimal is rounded to a number without a sign. -/
theorem exists_ofScientific (m : Nat) (s : Bool) (e : Nat) :
    ∃ u, isPositive u = true ∧ Float.ofScientific m s e = ⟨.pack u⟩ := by
  have hinteger := isPositive_view_pack (isPositive_ofNat m.toUInt64.toNat)
  delta Float.ofScientific
  dsimp only
  split
  · next h =>
    have hlt : e < Float.exactlyRepresentablePowersOfTen.size := Nat.lt_succ_of_le h.2
    have hpower := isPositive_powerOfTen _ (Array.getElem_mem_toList hlt)
    cases s with
    | true => exact ⟨_, isPositive_div hinteger hpower, rfl⟩
    | false => exact ⟨_, isPositive_mul hinteger hpower, rfl⟩
  · refine ⟨_, ?_, rfl⟩
    delta UnpackedFloat.ofScientific
    dsimp only
    refine dite_of_branches (fun _ => rfl) fun _ => ?_
    refine ite_of_branches rfl (ite_of_branches rfl ?_)
    exact ite_of_branches (isPositive_mul rfl rfl) (isPositive_div rfl rfl)

/-- **The number of a literal has no sign.** -/
theorem exact_ofLiteral {whole fraction : List Char}
    (h : (ofLiteral whole fraction).isFinite = true) :
    ∃ e, Exact.of? (ofLiteral whole fraction) = some e ∧ e.negative = false := by
  obtain ⟨p, hp⟩ := exists_parts h
  obtain ⟨u, hu, hread⟩ := exists_ofScientific (ofDigits (whole ++ fraction))
    (decide (-(fraction.length : Int) < 0)) (-(fraction.length : Int)).natAbs
  obtain ⟨e, f, hpack⟩ := exists_pack_of_isPositive hu
  have hbits : p.bits = packComponents .binary64 .positive e f := by
    have heq : p.number = ⟨.pack u⟩ := hp.symm.trans hread
    rw [← hpack, ← p.pack_unpacked]
    exact congrArg (fun x : Float => x.toBits.toBitVec) heq
  have hsign : p.exact.sign = .positive := by
    rw [← Parts.sign_packComponents p.exact.sign p.exponent p.fraction, ← Parts.bits, hbits,
      Parts.sign_packComponents]
  rw [hp, Parts.exact_number]
  refine ⟨_, rfl, ?_⟩
  rw [Parts.sign_exact] at hsign
  rw [Parts.negative_exact]
  cases hnegative : p.negative with
  | false => rfl
  | true =>
    rw [hnegative] at hsign
    cases hsign

/-- Only a finite number has an exact value. -/
theorem isFinite_of_exact {x : Float} {e : Exact} (h : Exact.of? x = some e) :
    x.isFinite = true := by
  obtain ⟨⟨⟨b⟩, hvalid⟩⟩ := x
  obtain ⟨s, k, f, rfl⟩ := exists_components b
  have hk : k ≠ -1#11 := by
    rintro rfl
    have hfraction : f.toNat < 2 ^ 52 := f.isLt
    have hbits : (packComponents .binary64 s (-1#11) f).toNat
        = s.toBitVec.toNat * 2 ^ 63 + 2047 * 2 ^ 52 + f.toNat :=
      Parts.toNat_packComponents s (-1#11) f
    have hfield : (packComponents .binary64 s (-1#11) f).toNat / Nat.pow 2 52 % Nat.pow 2 11
        = Nat.pow 2 11 - 1 := by
      rw [hbits]
      simp only [Nat.pow_eq]
      omega
    have hnone : Exact.of? ⟨⟨⟨packComponents .binary64 s (-1#11) f⟩, hvalid⟩⟩ = none :=
      if_pos hfield
    rw [hnone] at h
    cases h
  change (UnpackedFloat.unpack .binary64 (packComponents .binary64 s k f)).isFinite = true
  delta UnpackedFloat.unpack
  dsimp only
  rw [unpackExponent_packComponents, if_neg hk]
  exact ite_of_branches (dite_of_branches (fun _ => rfl) fun _ => rfl) rfl

/-! ## Numbers that are defined -/

/-- Whether the number is defined. -/
def isDefined : UnpackedFloat → Bool
  | .notANumber => false
  | _ => true

/-- Whether the number is finite and not zero. -/
def isNonzero : UnpackedFloat → Bool
  | .finite _ _ _ _ => true
  | _ => false

theorem isDefined_roundWithAccuracy (s : Sign) (m : Nat) (e : Int)
    (accuracy : UnpackedFloat.Accuracy) :
    isDefined (.roundWithAccuracy .binary64 s m e accuracy) = true := by
  delta UnpackedFloat.roundWithAccuracy
  dsimp only
  exact dite_of_branches (fun _ => rfl) fun _ => rfl

theorem isDefined_mul (hu : isDefined u = true) (hv : isNonzero v = true) :
    isDefined (.mul .binary64 u v) = true := by
  cases v with
  | finite s m e hm =>
    cases u with
    | notANumber => cases hu
    | finite => exact isDefined_roundWithAccuracy _ _ _ _
    | _ => rfl
  | _ => cases hv

theorem isDefined_div (hu : isDefined u = true) (hv : isNonzero v = true) :
    isDefined (.div .binary64 u v) = true := by
  cases v with
  | finite s m e hm =>
    cases u with
    | notANumber => cases hu
    | finite => exact isDefined_roundWithAccuracy _ _ _ _
    | _ => rfl
  | _ => cases hv

/-- Only an exponent of ones stands for what is no finite number. -/
theorem isDefined_unpack {s : Sign} {e : BitVec 11} {f : BitVec 52} (he : e ≠ -1#11) :
    isDefined (.unpack .binary64 (packComponents .binary64 s e f)) = true := by
  delta UnpackedFloat.unpack
  dsimp only
  rw [unpackExponent_packComponents, if_neg he]
  exact ite_of_branches (dite_of_branches (fun _ => rfl) fun _ => rfl) rfl

theorem ofNat_ne_ones {k : Nat} (hk : k + 1 < 2 ^ 11) : BitVec.ofNat 11 k ≠ -1#11 := by
  intro h
  have hones : k % 2 ^ 11 = 2047 := congrArg BitVec.toNat h
  omega

theorem isDefined_view_pack (hu : isDefined u = true) : isDefined (view ⟨.pack u⟩) = true := by
  cases u with
  | notANumber => cases hu
  | infinity s => cases s <;> rfl
  | zero s => cases s <;> rfl
  | finite s m e hm =>
    change isDefined (.unpack .binary64 (UnpackedFloat.pack .binary64 _)) = true
    delta UnpackedFloat.pack
    dsimp only
    split
    · cases s <;> rfl
    next hbound =>
    split
    · exact isDefined_unpack (ofNat_ne_ones (Nat.lt_of_not_le hbound))
    · exact isDefined_unpack (by decide)

theorem isNonzero_powerOfTen : ∀ x ∈ Float.exactlyRepresentablePowersOfTen.toList,
    isNonzero (view x) = true := by
  decide

/-- A decimal is rounded to a number that is defined. -/
theorem isDefined_ofScientific (m : Nat) (s : Bool) (e : Nat) :
    isDefined (view (Float.ofScientific m s e)) = true := by
  have hinteger := isDefined_view_pack
    (ofNat_of_branches rfl (fun _ => isDefined_roundWithAccuracy _ _ _ _) m.toUInt64.toNat)
  delta Float.ofScientific
  dsimp only
  split
  · next h =>
    have hlt : e < Float.exactlyRepresentablePowersOfTen.size := Nat.lt_succ_of_le h.2
    have hpower := isNonzero_powerOfTen _ (Array.getElem_mem_toList hlt)
    cases s with
    | true => exact isDefined_view_pack (isDefined_div hinteger hpower)
    | false => exact isDefined_view_pack (isDefined_mul hinteger hpower)
  · refine isDefined_view_pack ?_
    delta UnpackedFloat.ofScientific
    dsimp only
    refine dite_of_branches (fun _ => rfl) fun _ => ?_
    refine ite_of_branches rfl (ite_of_branches rfl ?_)
    exact ite_of_branches (isDefined_mul rfl rfl) (isDefined_div rfl rfl)

theorem compare_self_of_isDefined (h : isDefined u = true) : u.compare u = some .eq := by
  cases u with
  | notANumber => cases h
  | infinity s => cases s <;> rfl
  | _ => exact compare_self rfl

/-- **A natural number is equal to itself**, however large it is. -/
theorem beq_ofNat (n : Nat) : (Float.ofNat n == Float.ofNat n) = true :=
  beq_iff.2 (compare_self_of_isDefined (isDefined_ofScientific n false 0))

end Number

end CommandScript
