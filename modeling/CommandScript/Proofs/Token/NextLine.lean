import CommandScript.Proofs.Token.Lexes

/-!
# Proofs/Token/NextLine — a further line changes no token before it

Let a line be put behind a text. Every token of the text is then still found, at the same place
(`Token.scan_nextLine`), for none but a string goes on past a line feed, and a string ends in the
text or is no token of it. Only where the text ended there is now the end of a line, with the new
line behind it; and who ignores ends of lines goes on in the new line there
(`Cursor.rest_toToken_nextLine`, `Cursor.rest_toToken_nextLine_end`).
-/

namespace CommandScript

namespace Scan

variable {cs tail : List Char}

theorem takeWhile_nextLine {p : Char → Bool} (hp : p '\n' = false) (cs tail : List Char) :
    (cs ++ '\n' :: tail).takeWhile p = cs.takeWhile p := takeWhile_stop hp cs tail

theorem drop_takeWhile_nextLine {p : Char → Bool} (cs tail : List Char) :
    (cs ++ '\n' :: tail).drop (cs.takeWhile p).length
      = cs.drop (cs.takeWhile p).length ++ '\n' :: tail :=
  List.drop_append_of_le_length (List.takeWhile_prefix p).length_le

/-- A line feed is not a character that is looked for. -/
theorem head?_nextLine {c : Char} (hc : c ≠ '\n') (cs tail : List Char) :
    (cs ++ '\n' :: tail).head? = some c ↔ cs.head? = some c := by
  cases cs with
  | nil => simp [hc.symm]
  | cons d cs => simp

theorem holeAt?_nextLine (cs tail : List Char) : holeAt? (cs ++ '\n' :: tail) = holeAt? cs :=
  holeAt?_stop rfl (by decide) (by decide) cs tail

/-- A template string that ends in the text ends there. -/
theorem templateFrom_nextLine (tail : List Char) : ∀ {k : Nat} {cs : List Char}
    {r : List Part × Nat}, templateFrom k cs = some r →
      templateFrom k (cs ++ '\n' :: tail) = some r
  | _, [], _, h => by simp [templateFrom] at h
  | k + 1, c :: cs, r, h => by
    rw [templateFrom, Option.map_eq_some_iff] at h
    obtain ⟨r', hr', rfl⟩ := h
    rw [List.cons_append, templateFrom, templateFrom_nextLine tail hr', Option.map_some]
  | 0, c :: cs, r, h => by
    have hmap {j : Nat} {f : List Part × Nat → List Part × Nat}
        (h : (templateFrom j cs).map f = some r) :
        (templateFrom j (cs ++ '\n' :: tail)).map f = some r := by
      obtain ⟨r', hr', rfl⟩ := Option.map_eq_some_iff.1 h
      rw [templateFrom_nextLine tail hr', Option.map_some]
    rw [templateFrom] at h
    rw [List.cons_append, templateFrom, holeAt?_nextLine]
    split
    · rwa [if_pos ‹_›] at h
    rw [if_neg ‹_›] at h
    split
    · rw [if_pos ‹_›] at h
      -- behind the backslash the string goes on, so the text does
      have hhead : (cs ++ '\n' :: tail).head? = cs.head? := by
        cases cs with
        | nil => simp [templateFrom] at h
        | cons => rfl
      rw [hhead]
      split at h
      · exact hmap h
      · exact hmap h
    rw [if_neg ‹_›] at h
    split
    · rw [if_pos ‹_›] at h
      split at h
      · exact hmap h
      · exact hmap h
    · rw [if_neg ‹_›] at h
      exact hmap h

theorem finish_nextLine (whole fraction text rest tail : List Char) :
    number.finish whole fraction text (rest ++ '\n' :: tail)
      = number.finish whole fraction text rest := by
  cases rest <;> rfl

theorem number_nextLine (cs tail : List Char) : number (cs ++ '\n' :: tail) = number cs := by
  unfold number
  rw [takeWhile_nextLine rfl]
  dsimp only
  rw [drop_takeWhile_nextLine]
  generalize cs.drop (cs.takeWhile Char.isDigit).length = rest
  split
  · next hpoints =>
    obtain _ | ⟨_, _ | ⟨_, rest⟩⟩ := rest <;> simp_all
  · next more hmore hpoint =>
    obtain _ | ⟨_, rest⟩ := rest
    · simp at hpoint
    · rw [List.cons_append] at hpoint
      obtain ⟨rfl, rfl⟩ := List.cons.inj hpoint
      have hrest : ∀ more, rest ≠ '.' :: more := by
        rintro more rfl
        exact hmore _ rfl
      rw [takeWhile_nextLine rfl, drop_takeWhile_nextLine, finish_nextLine]
      symm
      split
      · next h => exact absurd (List.cons.inj h).2 (hrest _)
      · next h =>
        rw [(List.cons.inj h).2]
      · next h => exact absurd rfl (h _)
  · next hpoint =>
    obtain _ | ⟨c, rest⟩ := rest
    · rfl
    · have hc : c ≠ '.' := by
        rintro rfl
        exact hpoint _ rfl
      rw [finish_nextLine]
      split <;> simp_all

theorem name_nextLine (cs tail : List Char) : name (cs ++ '\n' :: tail) = name cs := by
  unfold name
  rw [takeWhile_nextLine rfl]

/-- A raw string that ends in the text ends there. -/
theorem rawString_nextLine (tail : List Char) {r : Token × Nat} (h : rawString cs = .ok r) :
    rawString (cs ++ '\n' :: tail) = .ok r := by
  unfold rawString at h ⊢
  dsimp only at h ⊢
  split at h
  · next hlt =>
    have hbody : (cs ++ '\n' :: tail).takeWhile (· != '\'') = cs.takeWhile (· != '\'') := by
      rw [List.takeWhile_append, if_neg (Nat.ne_of_lt hlt)]
    rw [hbody, if_pos]
    · exact h
    · rw [List.length_append]
      omega
  · nomatch h

theorem pair_nextLine {second : Char} (hsecond : second ≠ '\n') (cs tail : List Char)
    (long short : Token) : pair (cs ++ '\n' :: tail) second long short
      = pair cs second long short := by
  unfold pair
  simp only [head?_nextLine hsecond]

theorem sign_nextLine (c : Char) (cs tail : List Char) :
    sign c (cs ++ '\n' :: tail) = sign c cs := by
  unfold sign
  split
  case h_8 => rfl
  all_goals exact pair_nextLine (by decide) cs tail _ _

/-- Up to the next token there is as much to skip, unless lines are crossed and no token follows. -/
theorem trivia_nextLine (tail : List Char) {acrossLines : Bool} :
    ∀ (inComment : Bool) (cs : List Char),
      (acrossLines = true → cs.drop (trivia acrossLines inComment cs) ≠ []) →
        trivia acrossLines inComment (cs ++ '\n' :: tail) = trivia acrossLines inComment cs
  | inComment, [], h => by
    cases acrossLines with
    | true => exact absurd rfl (h rfl)
    | false => exact trivia_newline false inComment tail
  | inComment, c :: cs, h => by
    rw [trivia] at h
    rw [List.cons_append, trivia, trivia]
    split_ifs at h ⊢
    · rw [trivia_nextLine tail false cs fun hlines => by simpa using h hlines]
    · rfl
    · rw [trivia_nextLine tail true cs fun hlines => by simpa using h hlines]
    · rw [trivia_nextLine tail false cs fun hlines => by simpa using h hlines]
    · rfl

/-- Across lines, where no token follows, skipping goes on in the new line. -/
theorem drop_trivia_nextLine_end (tail : List Char) : ∀ (inComment : Bool) (cs : List Char),
    cs.drop (trivia true inComment cs) = [] →
      (cs ++ '\n' :: tail).drop (trivia true inComment (cs ++ '\n' :: tail))
        = tail.drop (trivia true false tail)
  | _, [], _ => rfl
  | inComment, c :: cs, h => by
    rw [trivia] at h
    rw [List.cons_append, trivia]
    split_ifs at h ⊢ with hc hacross
    · exact drop_trivia_nextLine_end tail false cs h
    · exact absurd rfl hacross
    · exact drop_trivia_nextLine_end tail true cs h
    · exact drop_trivia_nextLine_end tail false cs h
    · cases h

end Scan

/-- **The token a text starts with is the same with a line behind the text.** -/
theorem Token.scan_nextLine {cs : List Char} (tail : List Char) (hcs : cs ≠ [])
    {r : Token × Nat} (h : Token.scan cs = .ok r) : Token.scan (cs ++ '\n' :: tail) = .ok r := by
  cases cs with
  | nil => exact absurd rfl hcs
  | cons c cs =>
    rw [List.cons_append, scan_cons_eq, ← List.cons_append, Scan.number_nextLine,
      Scan.name_nextLine, Scan.sign_nextLine]
    rw [scan_cons_eq] at h
    split
    · rwa [if_pos ‹_›] at h
    rw [if_neg ‹_›] at h
    split
    · rwa [if_pos ‹_›] at h
    rw [if_neg ‹_›] at h
    split
    · rw [if_pos ‹_›] at h
      exact Scan.rawString_nextLine tail h
    rw [if_neg ‹_›] at h
    split
    · rw [if_pos ‹_›] at h
      cases htemplate : Scan.templateFrom 0 cs with
      | none =>
        rw [htemplate] at h
        nomatch h
      | some r =>
        rw [htemplate] at h
        rw [Scan.templateFrom_nextLine tail htemplate]
        exact h
    · rwa [if_neg ‹_›] at h

/-- With a line behind it a text still starts with a token, also if it has come to its end. -/
theorem Token.exists_scan_nextLine {cs : List Char} (tail : List Char) {r : Token × Nat}
    (h : Token.scan cs = .ok r) : ∃ r, Token.scan (cs ++ '\n' :: tail) = .ok r := by
  cases cs with
  | nil => exact ⟨_, scan_newline tail⟩
  | cons c cs => exact ⟨r, scan_nextLine tail (List.cons_ne_nil c cs) h⟩

namespace Scan

/-! ## A token ends in its text -/

theorem number_le {cs : List Char} {t : Token} {n : Nat} (h : number cs = .ok (t, n)) :
    n ≤ cs.length := by
  have hsplit := congrArg List.length (take_length_takeWhile Char.isDigit cs)
  rw [List.length_append] at hsplit
  unfold number at h
  dsimp only at h
  generalize cs.drop (cs.takeWhile Char.isDigit).length = rest at h hsplit
  split at h
  · obtain ⟨-, rfl⟩ := Prod.mk.inj (Except.ok.inj h)
    omega
  · next next _ =>
    split at h
    · nomatch h
    · have hfraction := (List.takeWhile_prefix (l := next) Char.isDigit).length_le
      rw [(finish_ok h).2, List.length_append, List.length_cons]
      rw [List.length_cons] at hsplit
      omega
  · rw [(finish_ok h).2]
    omega

theorem templateFrom_le : ∀ {k : Nat} {cs : List Char} {r : List Part × Nat},
    templateFrom k cs = some r → r.2 ≤ cs.length
  | _, [], _, h => by simp [templateFrom] at h
  | k + 1, c :: cs, r, h => by
    obtain ⟨r', hr', rfl⟩ := Option.map_eq_some_iff.1 (by rwa [templateFrom] at h)
    exact Nat.succ_le_succ (templateFrom_le hr')
  | 0, c :: cs, r, h => by
    have hmap {j : Nat} {f : List Part → List Part}
        (h : (templateFrom j cs).map (fun p => (f p.1, p.2 + 1)) = some r) :
        r.2 ≤ (c :: cs).length := by
      obtain ⟨r', hr', rfl⟩ := Option.map_eq_some_iff.1 h
      exact Nat.succ_le_succ (templateFrom_le hr')
    rw [templateFrom] at h
    split at h
    · obtain rfl := Option.some.inj h
      exact Nat.succ_le_succ (Nat.zero_le _)
    split at h
    · split at h <;> exact hmap h
    split at h
    · split at h <;> exact hmap h
    · exact hmap h

theorem sign_le (c : Char) (cs : List Char) : (sign c cs).2 ≤ cs.length + 1 := by
  have hpair (second : Char) (long short : Token) :
      (pair cs second long short).2 ≤ cs.length + 1 := by
    unfold pair
    split
    · next hhead =>
      obtain ⟨rest, rfl⟩ := List.head?_eq_some_iff.1 hhead
      exact Nat.succ_le_succ (Nat.succ_le_succ (Nat.zero_le _))
    · exact Nat.succ_le_succ (Nat.zero_le _)
  unfold sign
  split
  case h_8 => exact Nat.succ_le_succ (Nat.zero_le _)
  all_goals exact hpair _ _ _

end Scan

theorem Token.scan_le {cs : List Char} {t : Token} {n : Nat} (h : Token.scan cs = .ok (t, n)) :
    n ≤ cs.length := by
  cases cs with
  | nil =>
    obtain ⟨-, rfl⟩ := Prod.mk.inj (Except.ok.inj h)
    exact Nat.le_refl 0
  | cons c cs =>
    rw [scan_cons_eq] at h
    split at h
    · exact Scan.number_le h
    split at h
    · obtain ⟨-, rfl⟩ := Prod.mk.inj (Except.ok.inj h)
      exact (List.takeWhile_prefix _).length_le
    split at h
    · unfold Scan.rawString at h
      dsimp only at h
      split at h
      · next hlt =>
        obtain ⟨-, rfl⟩ := Prod.mk.inj (Except.ok.inj h)
        exact Nat.succ_le_succ hlt
      · nomatch h
    split at h
    · split at h
      · next htemplate =>
        obtain ⟨-, rfl⟩ := Prod.mk.inj (Except.ok.inj h)
        exact Nat.succ_le_succ (Scan.templateFrom_le htemplate)
      · nomatch h
    · obtain ⟨-, rfl⟩ := Prod.mk.inj (Except.ok.inj h)
      exact Scan.sign_le c cs

namespace Cursor

variable {c c' : Cursor} {tail : List Char}

theorem rest_toToken (acrossLines : Bool) (c : Cursor) :
    (c.toToken acrossLines).rest = c.rest.drop (Scan.trivia acrossLines false c.rest) :=
  rest_skip _ _

/-- The next token stands at the same place, unless lines are crossed and no token follows. -/
theorem rest_toToken_nextLine {acrossLines : Bool} (h : c'.rest = c.rest ++ '\n' :: tail)
    (hmore : acrossLines = true → (c.toToken acrossLines).rest ≠ []) :
    (c'.toToken acrossLines).rest = (c.toToken acrossLines).rest ++ '\n' :: tail := by
  rw [rest_toToken] at hmore
  rw [rest_toToken, rest_toToken, h, Scan.trivia_nextLine tail false c.rest hmore,
    List.drop_append_of_le_length (Scan.trivia_le _ _ _)]

/-- Across lines, where no token follows, the next token is the first of the new line. -/
theorem rest_toToken_nextLine_end (h : c'.rest = c.rest ++ '\n' :: tail)
    (hnone : (c.toToken true).rest = []) :
    (c'.toToken true).rest = tail.drop (Scan.trivia true false tail) := by
  rw [rest_toToken] at hnone
  rw [rest_toToken, h, Scan.drop_trivia_nextLine_end tail false c.rest hnone]

end Cursor

end CommandScript
