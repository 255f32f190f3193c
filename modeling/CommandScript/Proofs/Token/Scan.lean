import CommandScript.Token.Stream
import Mathlib.Data.List.TakeWhile
import Mathlib.Tactic.SplitIfs

/-!
# Proofs/Token/Scan — what a single token can be

Only the end of the text is an empty token, and only a line feed is the end of a line
(`Token.scan_cons`). Blanks and comments are skipped up to the end of a line or across it; the
second is the first, repeated as long as a line feed follows (`Scan.trivia_across`).
-/

namespace CommandScript

namespace Scan

theorem finish_ok {whole fraction text rest : List Char} {t : Token} {n : Nat}
    (h : number.finish whole fraction text rest = .ok (t, n)) :
    t = .number (Number.ofLiteral whole fraction) ∧ n = text.length := by
  unfold number.finish at h
  split at h
  · exact absurd h (by simp)
  · simp only [Except.ok.injEq, Prod.mk.injEq] at h
    exact ⟨h.1.symm, h.2.symm⟩

/-- The token of a number is a number, and takes at least its leading digits. -/
theorem number_ok {cs : List Char} {t : Token} {n : Nat} (h : number cs = .ok (t, n)) :
    (∃ x, t = .number x) ∧ (cs.takeWhile Char.isDigit).length ≤ n := by
  unfold number at h
  dsimp only at h
  split at h
  · simp only [Except.ok.injEq, Prod.mk.injEq] at h
    exact ⟨⟨_, h.1.symm⟩, Nat.le_of_eq h.2⟩
  · split at h
    · exact absurd h (by simp)
    · obtain ⟨ht, hn⟩ := finish_ok h
      refine ⟨⟨_, ht⟩, ?_⟩
      rw [hn, List.length_append]
      exact Nat.le_add_right _ _
  · obtain ⟨ht, hn⟩ := finish_ok h
    exact ⟨⟨_, ht⟩, Nat.le_of_eq hn.symm⟩

theorem isNameChar_of_isNameStart {c : Char} (hc : isNameStart c = true) : isNameChar c = true := by
  simp only [isNameStart, Bool.or_eq_true] at hc
  simp only [isNameChar, Char.isAlphanum, Bool.or_eq_true]
  exact hc.imp .inl id

theorem isNameChar_of_isDigit {c : Char} (hc : c.isDigit = true) : isNameChar c = true := by
  simp [isNameChar, Char.isAlphanum, hc]

theorem name_pos {c : Char} (hc : isNameStart c = true) (cs : List Char) :
    0 < (name (c :: cs)).2 := by
  simp [name, isNameChar_of_isNameStart hc]

/-- A name is a keyword or an identifier. -/
theorem name_cases (cs : List Char) :
    (∃ k, (name cs).1 = .keyword k) ∨ ∃ s, (name cs).1 = .identifier s := by
  unfold name
  dsimp only
  split
  · exact .inl ⟨_, rfl⟩
  · exact .inr ⟨_, rfl⟩

theorem take_length_takeWhile (p : Char → Bool) (cs : List Char) :
    cs.takeWhile p ++ cs.drop (cs.takeWhile p).length = cs := by
  conv => rhs; rw [← List.take_append_drop (cs.takeWhile p).length cs]
  rw [← List.prefix_iff_eq_take.1 (List.takeWhile_prefix p)]

/-- A number is written in digits and points. -/
theorem number_text {cs : List Char} {t : Token} {n : Nat} (h : number cs = .ok (t, n)) :
    ∃ text rest, cs = text ++ rest ∧ n = text.length
      ∧ ∀ c ∈ text, c.isDigit = true ∨ c = '.' := by
  have hdigits (ds : List Char) : ∀ c ∈ ds.takeWhile Char.isDigit, c.isDigit = true ∨ c = '.' :=
    fun c hc => .inl (List.mem_takeWhile_imp hc)
  have hwhole := (take_length_takeWhile Char.isDigit cs).symm
  unfold number at h
  dsimp only at h
  split at h
  · obtain ⟨-, rfl⟩ := Prod.mk.inj (Except.ok.inj h)
    exact ⟨_, _, hwhole, rfl, hdigits cs⟩
  · next after _ hafter =>
    split at h
    · exact absurd h (by simp)
    · obtain ⟨-, rfl⟩ := finish_ok h
      have hfraction := take_length_takeWhile Char.isDigit after
      refine ⟨_, after.drop (after.takeWhile Char.isDigit).length, ?_, rfl, ?_⟩
      · rw [List.append_assoc, List.cons_append, hfraction, ← hafter]
        exact hwhole
      · exact List.forall_mem_append.2
          ⟨hdigits cs, List.forall_mem_cons.2 ⟨.inr rfl, hdigits after⟩⟩
  · obtain ⟨-, rfl⟩ := finish_ok h
    exact ⟨_, _, hwhole, rfl, hdigits cs⟩

/-- A raw string goes on to the next single quote. -/
theorem rawString_text {cs : List Char} {t : Token} {n : Nat} (h : rawString cs = .ok (t, n)) :
    ∃ body rest, cs = body ++ '\'' :: rest ∧ t = .string (String.ofList body)
      ∧ n = body.length + 2 ∧ ∀ c ∈ body, c ≠ '\'' := by
  unfold rawString at h
  dsimp only at h
  split at h
  · next hlength =>
    obtain ⟨rfl, rfl⟩ := Prod.mk.inj (Except.ok.inj h)
    have hsplit := @List.takeWhile_append_dropWhile _ (· != '\'') cs
    have hhead := List.head?_dropWhile_not (· != '\'') cs
    cases hdrop : cs.dropWhile (· != '\'') with
    | nil =>
      rw [hdrop, List.append_nil] at hsplit
      rw [hsplit] at hlength
      exact absurd hlength (Nat.lt_irrefl _)
    | cons c rest =>
      rw [hdrop] at hsplit hhead
      obtain rfl : c = '\'' := by simpa using hhead
      exact ⟨_, rest, hsplit.symm, rfl, rfl, fun c hc => by simpa using List.mem_takeWhile_imp hc⟩
  · exact absurd h (by simp)

theorem rawString_ok {cs : List Char} {t : Token} {n : Nat} (h : rawString cs = .ok (t, n)) :
    (∃ s, t = .string s) ∧ 0 < n := by
  obtain ⟨body, -, -, rfl, rfl, -⟩ := rawString_text h
  exact ⟨⟨_, rfl⟩, Nat.succ_pos _⟩

/-- A name to fill in stands as it is or in braces. -/
theorem holeAt?_cases {cs : List Char} {name : String} {width : Nat}
    (h : holeAt? cs = some (name, width)) : (∀ c ∈ name.toList, isNameChar c = true)
      ∧ ((∃ rest, cs = name.toList ++ rest ∧ width = name.toList.length + 1)
        ∨ ∃ rest, cs = '\x7b' :: (name.toList ++ '\x7d' :: rest)
          ∧ width = name.toList.length + 3) := by
  cases cs with
  | nil => simp [holeAt?] at h
  | cons c rest =>
    rw [holeAt?] at h
    split at h
    · obtain ⟨rfl, rfl⟩ := Prod.mk.inj (Option.some.inj h)
      rw [String.toList_ofList]
      exact ⟨fun c hc => List.mem_takeWhile_imp hc,
        .inl ⟨_, (take_length_takeWhile isNameChar _).symm, rfl⟩⟩
    split at h
    · next hbrace =>
      subst hbrace
      dsimp only at h
      split at h
      · next after _ hafter =>
        split at h
        · obtain ⟨rfl, rfl⟩ := Prod.mk.inj (Option.some.inj h)
          have hrest := take_length_takeWhile isNameChar rest
          rw [hafter] at hrest
          rw [String.toList_ofList]
          exact ⟨fun c hc => List.mem_takeWhile_imp hc, .inr ⟨after, by rw [hrest], rfl⟩⟩
        · exact absurd h (by simp)
      · exact absurd h (by simp)
    · exact absurd h (by simp)

/-- A character that is not looked for ends the search. -/
theorem takeWhile_stop {p : Char → Bool} {d : Char} (hd : p d = false) (cs tail : List Char) :
    (cs ++ d :: tail).takeWhile p = cs.takeWhile p := by
  induction cs with
  | nil => simp [hd]
  | cons c cs ih =>
    rw [List.cons_append, List.takeWhile_cons, List.takeWhile_cons, ih]

/-- A name to fill in ends before a character that is neither of a name nor a brace. -/
theorem holeAt?_stop {d : Char} (hname : isNameChar d = false) (hopen : d ≠ '\x7b')
    (hclose : d ≠ '\x7d') (cs tail : List Char) : holeAt? (cs ++ d :: tail) = holeAt? cs := by
  cases cs with
  | nil =>
    have hstart : ¬ isNameStart d = true := fun hstart => by
      rw [isNameChar_of_isNameStart hstart] at hname
      exact absurd hname.symm Bool.false_ne_true
    rw [List.nil_append, holeAt?, if_neg hstart, if_neg hopen]
    rfl
  | cons c rest =>
    rw [List.cons_append, holeAt?, holeAt?, ← List.cons_append, takeWhile_stop hname,
      takeWhile_stop hname]
    dsimp only
    rw [List.drop_append_of_le_length (List.takeWhile_prefix isNameChar).length_le]
    generalize rest.takeWhile isNameChar = name
    cases name with
    | nil => rfl
    | cons first name =>
      cases rest.drop (first :: name).length with
      | nil => simp [hclose]
      | cons e after =>
        by_cases he : e = '\x7d'
        · rw [he]
          rfl
        · simp [he]

theorem pair_cases (cs : List Char) (second : Char) (long short : Token) :
    pair cs second long short = (long, 2) ∨ pair cs second long short = (short, 1) := by
  unfold pair
  split
  · exact .inl rfl
  · exact .inr rfl

theorem single_cases (c : Char) :
    (∃ s, single c = .symbol s) ∨ (∃ d, single c = .stray d)
      ∨ (c = '\n' ∧ single c = .newline) := by
  unfold single
  split
  · exact .inr (.inr ⟨rfl, rfl⟩)
  all_goals first
    | exact .inl ⟨_, rfl⟩
    | exact .inr (.inl ⟨_, rfl⟩)

/-- A sign is a symbol, a character without meaning or, for a line feed alone, the end of a line. -/
theorem sign_cases (c : Char) (cs : List Char) :
    ((∃ s, (sign c cs).1 = .symbol s) ∨ (∃ d, (sign c cs).1 = .stray d)
      ∨ (c = '\n' ∧ (sign c cs).1 = .newline)) ∧ 0 < (sign c cs).2 := by
  unfold sign
  split
  case h_8 => exact ⟨single_cases c, Nat.one_pos⟩
  all_goals
    rcases pair_cases cs _ _ _ with h | h <;> rw [h]
    all_goals first
      | exact ⟨.inl ⟨_, rfl⟩, by decide⟩
      | exact ⟨.inr (.inl ⟨_, rfl⟩), by decide⟩

/-! ## Blanks and comments -/

@[simp] theorem trivia_newline (acrossLines inComment : Bool) (cs : List Char) :
    trivia acrossLines inComment ('\n' :: cs)
      = if acrossLines then trivia acrossLines false cs + 1 else 0 := rfl

theorem trivia_cons {c : Char} (hc : c ≠ '\n') (acrossLines inComment : Bool) (cs : List Char) :
    trivia acrossLines inComment (c :: cs) =
      if inComment || c = '#' then trivia acrossLines true cs + 1
      else if Text.isBlank c then trivia acrossLines false cs + 1
      else 0 := by
  rw [trivia, if_neg hc]

/-- Across lines, skipping goes on behind a line feed it has come to. -/
theorem trivia_across {rest : List Char} : ∀ (inComment : Bool) (cs : List Char),
    cs.drop (trivia false inComment cs) = '\n' :: rest →
      trivia true inComment cs = trivia false inComment cs + 1 + trivia true false rest
  | _, [], h => absurd h (by simp)
  | inComment, c :: cs, h => by
    by_cases hc : c = '\n'
    · subst hc
      obtain rfl : cs = rest := by simpa using h
      simp [Nat.add_comm]
    · simp only [trivia_cons hc] at h ⊢
      split_ifs at h ⊢
      · rw [List.drop_succ_cons] at h
        rw [trivia_across true cs h]
        omega
      · rw [List.drop_succ_cons] at h
        rw [trivia_across false cs h]
        omega
      · rw [List.drop_zero, List.cons.injEq] at h
        exact absurd h.1 hc

/-- Where no line feed follows, it makes no difference whether lines are crossed. -/
theorem trivia_within : ∀ (inComment : Bool) (cs : List Char),
    (cs.drop (trivia false inComment cs)).head? ≠ some '\n' →
      trivia true inComment cs = trivia false inComment cs
  | _, [], _ => rfl
  | inComment, c :: cs, h => by
    by_cases hc : c = '\n'
    · subst hc
      exact absurd h (by simp)
    · simp only [trivia_cons hc] at h ⊢
      split_ifs at h ⊢
      · rw [trivia_within true cs (by simpa using h)]
      · rw [trivia_within false cs (by simpa using h)]
      · rfl

theorem trivia_le : ∀ (acrossLines inComment : Bool) (cs : List Char),
    trivia acrossLines inComment cs ≤ cs.length
  | _, _, [] => Nat.le_refl 0
  | acrossLines, inComment, c :: cs => by
    have hle := fun comment => Nat.succ_le_succ (trivia_le acrossLines comment cs)
    rw [trivia, List.length_cons]
    split_ifs
    · exact hle _
    · exact Nat.zero_le _
    · exact hle _
    · exact hle _
    · exact Nat.zero_le _

/-- Behind blanks and comments there are none. -/
theorem trivia_drop : ∀ (acrossLines inComment : Bool) (cs : List Char),
    trivia false false (cs.drop (trivia acrossLines inComment cs)) = 0
  | _, _, [] => by rw [trivia, List.drop_zero, trivia]
  | acrossLines, inComment, c :: cs => by
    by_cases hc : c = '\n'
    · subst hc
      cases acrossLines with
      | true => exact trivia_drop true false cs
      | false => rfl
    · rw [trivia_cons hc]
      split_ifs with hcomment hblank
      · exact trivia_drop acrossLines true cs
      · exact trivia_drop acrossLines false cs
      · rw [List.drop_zero, trivia_cons hc, if_neg (by simp_all), if_neg hblank]

/-- A comment ahead goes on to the end of the line. -/
theorem trivia_comment : ∀ (cs : List Char), cs.drop (trivia false true cs) = []
    ∨ (cs.drop (trivia false true cs)).head? = some '\n'
  | [] => .inl rfl
  | c :: cs => by
    by_cases hc : c = '\n'
    · subst hc
      exact .inr rfl
    · rw [trivia_cons hc, if_pos (by simp)]
      exact trivia_comment cs

end Scan

namespace Token

theorem scan_cons_eq (c : Char) (cs : List Char) :
    scan (c :: cs) =
      if c.isDigit then Scan.number (c :: cs)
      else if Scan.isNameStart c then .ok (Scan.name (c :: cs))
      else if c = '\'' then Scan.rawString cs
      else if c = '"' then
        match Scan.templateFrom 0 cs with
        | some (parts, n) => .ok (.template parts, n + 1)
        | none => .error .openString
      else .ok (Scan.sign c cs) := rfl

/-- A text that is not at its end starts with a token that takes a character and is not the end; it
is the end of a line only if the text starts with a line feed. -/
theorem scan_cons {c : Char} {cs : List Char} {t : Token} {n : Nat}
    (h : scan (c :: cs) = .ok (t, n)) :
    0 < n ∧ t.isEnd = false ∧ (t.isNewline = true → c = '\n') := by
  rw [scan_cons_eq] at h
  split at h
  · next hdigit =>
    obtain ⟨⟨x, rfl⟩, hn⟩ := Scan.number_ok h
    rw [List.takeWhile_cons_of_pos hdigit, List.length_cons] at hn
    exact ⟨by omega, rfl, by simp [isNewline]⟩
  split at h
  · next hname =>
    have hpos := Scan.name_pos hname cs
    have hcases := Scan.name_cases (c :: cs)
    rw [Except.ok.inj h] at hpos hcases
    obtain ⟨k, rfl⟩ | ⟨s, rfl⟩ := hcases
    · exact ⟨hpos, rfl, by simp [isNewline]⟩
    · exact ⟨hpos, rfl, by simp [isNewline]⟩
  split at h
  · obtain ⟨⟨s, rfl⟩, hn⟩ := Scan.rawString_ok h
    exact ⟨hn, rfl, by simp [isNewline]⟩
  split at h
  · split at h
    · obtain ⟨rfl, rfl⟩ := Prod.mk.inj (Except.ok.inj h)
      exact ⟨by omega, rfl, by simp [isNewline]⟩
    · exact absurd h (by simp)
  · obtain ⟨hcases, hpos⟩ := Scan.sign_cases c cs
    rw [Except.ok.inj h] at hcases hpos
    obtain ⟨s, rfl⟩ | ⟨d, rfl⟩ | ⟨hc, rfl⟩ := hcases
    · exact ⟨hpos, rfl, by simp [isNewline]⟩
    · exact ⟨hpos, rfl, by simp [isNewline]⟩
    · exact ⟨hpos, rfl, fun _ => hc⟩

/-- A symbol is spelt as it is written. -/
theorem scan_symbol {c : Char} {cs : List Char} {s : Symbol} {n : Nat}
    (h : scan (c :: cs) = .ok (.symbol s, n)) : s.text.toList.head? = some c := by
  rw [scan_cons_eq] at h
  split at h
  · obtain ⟨⟨x, hx⟩, -⟩ := Scan.number_ok h
    cases hx
  split at h
  · have hcases := Scan.name_cases (c :: cs)
    rw [Except.ok.inj h] at hcases
    obtain ⟨k, hk⟩ | ⟨name, hname⟩ := hcases
    · cases hk
    · cases hname
  split at h
  · obtain ⟨⟨text, htext⟩, -⟩ := Scan.rawString_ok h
    cases htext
  split at h
  · split at h
    · cases h
    · cases h
  · have hsign := congrArg Prod.fst (Except.ok.inj h)
    dsimp only at hsign
    unfold Scan.sign at hsign
    split at hsign
    case h_8 =>
      unfold Scan.single at hsign
      split at hsign <;> cases hsign <;> rfl
    all_goals
      rcases Scan.pair_cases cs _ _ _ with hpair | hpair
      all_goals
        rw [hpair] at hsign
        cases hsign <;> rfl

theorem scan_newline (cs : List Char) : scan ('\n' :: cs) = .ok (.newline, 1) := rfl

theorem scan_nil : scan [] = .ok (.endOfInput, 0) := rfl

end Token

end CommandScript
