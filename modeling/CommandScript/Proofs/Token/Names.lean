import CommandScript.Proofs.Token.Text

/-!
# Proofs/Token/Names — the names in tokens are names

The scanner cuts names out of the text. What it takes for an identifier is one and no keyword, and
the text starts with it; what it takes for a name to fill in is a name (`Token.named_of_scan`).
-/

namespace CommandScript

/-- Every name to fill in is a name. -/
def Part.Named (parts : List Part) : Prop := ∀ name, hole name ∈ parts → Scan.isName name = true

namespace Part

variable {parts : List Part}

theorem named_nil : Named [] := fun _ h => absurd h List.not_mem_nil

theorem Named.hole {name : String} (hname : Scan.isName name = true) (h : Named parts) :
    Named (.hole name :: parts) := by
  intro other hother
  obtain heq | hmem := List.mem_cons.1 hother
  · rw [Part.hole.inj heq]
    exact hname
  · exact h other hmem

/-- A character in front is no name. -/
theorem Named.cons (c : Char) (h : Named parts) : Named (cons c parts) := by
  intro name hname
  unfold Part.cons at hname
  split at hname
  · exact h name (List.mem_cons_of_mem _ (by simpa using hname))
  · exact h name (by simpa using hname)

end Part

namespace Scan

/-- Characters of names are a name if the first of them may start one. -/
theorem isName_takeWhile {c : Char} {cs rest : List Char}
    (h : cs.takeWhile isNameChar = c :: rest) (hc : isNameStart c = true) :
    isName (String.ofList (cs.takeWhile isNameChar)) = true := by
  have hall := @List.all_takeWhile _ isNameChar cs
  rw [h, List.all_cons, Bool.and_eq_true] at hall
  rw [isName, String.toList_ofList, h]
  exact Bool.and_eq_true_iff.2 ⟨hc, hall.2⟩

theorem takeWhile_isNameChar {c : Char} (hc : isNameStart c = true) (cs : List Char) :
    (c :: cs).takeWhile isNameChar = c :: cs.takeWhile isNameChar :=
  List.takeWhile_cons_of_pos (isNameChar_of_isNameStart hc)

theorem isName_of_holeAt? {cs : List Char} {name : String} {width : Nat}
    (h : holeAt? cs = some (name, width)) : isName name = true := by
  cases cs with
  | nil => cases h
  | cons c rest =>
    rw [holeAt?] at h
    split at h
    · next hc =>
      obtain ⟨rfl, -⟩ := Prod.mk.inj (Option.some.inj h)
      exact isName_takeWhile (takeWhile_isNameChar hc rest) hc
    split at h
    · dsimp only at h
      split at h
      · next hname _ =>
        split at h
        · next hfirst =>
          obtain ⟨rfl, -⟩ := Prod.mk.inj (Option.some.inj h)
          exact isName_takeWhile hname hfirst
        · cases h
      · cases h
    · cases h

/-- A step of the scanner that puts something in front keeps the names. -/
theorem named_map {f : List Part → List Part}
    (hf : ∀ {parts}, Part.Named parts → Part.Named (f parts)) {r : Option (List Part × Nat)}
    (h : ∀ p ∈ r, Part.Named p.1) :
    ∀ p ∈ r.map fun (parts, n) => (f parts, n + 1), Part.Named p.1 := by
  intro p hp
  obtain ⟨q, hq, rfl⟩ := Option.map_eq_some_iff.1 hp
  exact hf (h q hq)

theorem named_of_templateFrom (k : Nat) (cs : List Char) :
    ∀ p ∈ templateFrom k cs, Part.Named p.1 := by
  fun_induction templateFrom k cs with
  | case1 => exact fun _ hp => nomatch hp
  | case2 k c cs ih => exact named_map id ih
  | case3 cs =>
    rintro p ⟨⟩
    exact Part.named_nil
  | case4 cs e _ _ ih => exact named_map (.cons e) ih
  | case6 cs name width hhole _ _ ih => exact named_map (.hole (isName_of_holeAt? hhole)) ih
  | case5 cs _ _ ih | case7 cs _ _ _ ih | case8 c cs _ _ _ ih => exact named_map (.cons _) ih

/-- A name that is no keyword is an identifier, and the text starts with it. -/
theorem identifier_of_name {c : Char} {cs : List Char} (hc : isNameStart c = true) {word : String}
    {n : Nat} (h : name (c :: cs) = (.identifier word, n)) :
    isIdentifier word = true ∧ word.toList <+: c :: cs := by
  unfold name at h
  dsimp only at h
  obtain ⟨htoken, -⟩ := Prod.mk.inj h
  split at htoken
  · nomatch htoken
  · next hkeyword =>
    obtain rfl := Token.identifier.inj htoken
    rw [isIdentifier, isName_takeWhile (takeWhile_isNameChar hc cs) hc, hkeyword,
      String.toList_ofList]
    exact ⟨rfl, List.takeWhile_prefix _⟩

end Scan

namespace Token

/-- The names in a token of the text are such; an identifier is no keyword, and what the text starts
with. -/
def Named (cs : List Char) : Token → Prop
  | identifier name => Scan.isIdentifier name = true ∧ name.toList <+: cs
  | template parts => Part.Named parts
  | _ => True

/-- **Every name in a token is one.** -/
theorem named_of_scan {cs : List Char} {t : Token} {n : Nat} (h : scan cs = .ok (t, n)) :
    t.Named cs := by
  cases cs with
  | nil =>
    obtain ⟨rfl, -⟩ := Prod.mk.inj (Except.ok.inj h)
    trivial
  | cons c cs =>
    rw [scan_cons_eq] at h
    split at h
    · obtain ⟨⟨x, rfl⟩, -⟩ := Scan.number_ok h
      trivial
    split at h
    · next hc =>
      obtain ⟨k, hk⟩ | ⟨word, hword⟩ := Scan.name_cases (c :: cs)
      · obtain rfl : .keyword k = t := by rw [← hk, Except.ok.inj h]
        trivial
      · obtain rfl : .identifier word = t := by rw [← hword, Except.ok.inj h]
        exact Scan.identifier_of_name hc (Except.ok.inj h)
    split at h
    · obtain ⟨⟨s, rfl⟩, -⟩ := Scan.rawString_ok h
      trivial
    split at h
    · split at h
      · next htemplate =>
        obtain ⟨rfl, -⟩ := Prod.mk.inj (Except.ok.inj h)
        exact Scan.named_of_templateFrom 0 cs _ htemplate
      · nomatch h
    · obtain ⟨hcases, -⟩ := Scan.sign_cases c cs
      rw [Except.ok.inj h] at hcases
      obtain ⟨s, rfl⟩ | ⟨d, rfl⟩ | ⟨-, rfl⟩ := hcases
      all_goals trivial

end Token

end CommandScript
