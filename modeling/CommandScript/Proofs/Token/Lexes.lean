import CommandScript.Proofs.Token.Scan

/-!
# Proofs/Token/Lexes — the tokens a text consists of

`Cursor.Lexes c ts` says that the text behind the cursor consists of the tokens `ts` and then ends.
It is what `tokenize` computes (`lexes_of_tokenize`, `tokenize_of_lexes`), without places and
without a bound on the number of tokens. A reader that ignores ends of lines finds the same tokens
less these (`next_across_cases`).
-/

namespace CommandScript

namespace Cursor

variable {c d : Cursor} {t : Located}

theorem next_eq_ok_iff {acrossLines : Bool} : c.next acrossLines = .ok (t, d) ↔
    ∃ n, Token.scan (c.toToken acrossLines).rest = .ok (t.token, n)
      ∧ d = (c.toToken acrossLines).skip n ∧ t.span = (c.toToken acrossLines).spanTo d := by
  obtain ⟨token, span⟩ := t
  unfold next
  dsimp only
  split
  · next tok n hscan =>
    simp only [hscan, Except.ok.injEq, Prod.mk.injEq, Located.mk.injEq]
    constructor
    · rintro ⟨⟨rfl, rfl⟩, rfl⟩
      exact ⟨n, ⟨rfl, rfl⟩, rfl, rfl⟩
    · rintro ⟨_, ⟨rfl, rfl⟩, rfl, rfl⟩
      exact ⟨⟨rfl, rfl⟩, rfl⟩
  · next fault hscan => simp [hscan]

/-- Every token but the end of the text takes a character. -/
theorem length_next {acrossLines : Bool} (h : c.next acrossLines = .ok (t, d))
    (ht : t.token.isEnd = false) : d.rest.length < c.rest.length := by
  obtain ⟨n, hscan, rfl, -⟩ := next_eq_ok_iff.1 h
  have hle : (c.toToken acrossLines).rest.length ≤ c.rest.length := by
    rw [toToken, rest_skip, List.length_drop]
    omega
  rw [rest_skip, List.length_drop]
  cases hrest : (c.toToken acrossLines).rest with
  | nil =>
    rw [hrest, Token.scan_nil] at hscan
    obtain ⟨htok, -⟩ := Prod.mk.inj (Except.ok.inj hscan)
    rw [← htok] at ht
    exact absurd ht (by decide)
  | cons ch rest =>
    rw [hrest] at hscan hle
    have := (Token.scan_cons hscan).1
    rw [List.length_cons] at hle ⊢
    omega

/-- A token is the end of a line exactly if a line feed stands at its place. -/
theorem isNewline_next {acrossLines : Bool} (h : c.next acrossLines = .ok (t, d)) :
    t.token.isNewline = true ↔ (c.toToken acrossLines).rest.head? = some '\n' := by
  obtain ⟨n, hscan, -, -⟩ := next_eq_ok_iff.1 h
  cases hrest : (c.toToken acrossLines).rest with
  | nil =>
    rw [hrest, Token.scan_nil] at hscan
    obtain ⟨htok, -⟩ := Prod.mk.inj (Except.ok.inj hscan)
    simp [← htok, Token.isNewline]
  | cons ch rest =>
    rw [hrest] at hscan
    rw [List.head?_cons, Option.some.injEq]
    refine ⟨(Token.scan_cons hscan).2.2, ?_⟩
    rintro rfl
    rw [Token.scan_newline] at hscan
    obtain ⟨htok, -⟩ := Prod.mk.inj (Except.ok.inj hscan)
    rw [← htok]
    rfl

@[simp] theorem toToken_toToken (acrossLines : Bool) (c : Cursor) :
    (c.toToken acrossLines).toToken false = c.toToken acrossLines := by
  have hrest : (c.toToken acrossLines).rest = c.rest.drop (Scan.trivia acrossLines false c.rest) :=
    rest_skip _ _
  rw [toToken, hrest, Scan.trivia_drop, skip_zero]

@[simp] theorem next_toToken (acrossLines : Bool) (c : Cursor) :
    (c.toToken acrossLines).next false = c.next acrossLines := by
  rw [next, toToken_toToken, next]

/-! ## Crossing lines -/

theorem toToken_across {rest : List Char} (h : (c.toToken false).rest = '\n' :: rest) :
    c.toToken true = ((c.toToken false).skip 1).toToken true := by
  have hdrop : c.rest.drop (Scan.trivia false false c.rest) = '\n' :: rest := by
    rwa [toToken, rest_skip] at h
  have hrest : ((c.toToken false).skip 1).rest = rest := by
    rw [rest_skip, h]
    rfl
  have hright : ((c.toToken false).skip 1).toToken true
      = ((c.toToken false).skip 1).skip (Scan.trivia true false rest) := by
    rw [toToken, hrest]
  rw [hright, toToken, Scan.trivia_across false c.rest hdrop, skip_add, skip_add]
  rfl

theorem toToken_within (h : (c.toToken false).rest.head? ≠ some '\n') :
    c.toToken true = c.toToken false := by
  have hdrop : (c.rest.drop (Scan.trivia false false c.rest)).head? ≠ some '\n' := by
    rwa [toToken, rest_skip] at h
  rw [toToken, Scan.trivia_within false c.rest hdrop, toToken]

/-- Who crosses lines may as well start at the next token. -/
theorem toToken_across_toToken (c : Cursor) : (c.toToken false).toToken true = c.toToken true := by
  by_cases hhead : (c.toToken false).rest.head? = some '\n'
  · obtain ⟨rest, hrest⟩ := List.head?_eq_some_iff.1 hhead
    have hrest' : ((c.toToken false).toToken false).rest = '\n' :: rest := by
      rwa [toToken_toToken]
    rw [toToken_across hrest, toToken_across hrest', toToken_toToken]
  · rw [toToken_within hhead, toToken_within (by rwa [toToken_toToken]), toToken_toToken]

/-- A token that ends no line is the next one also across lines. -/
theorem toToken_across_of_not_newline (h : c.next false = .ok (t, d))
    (ht : t.token.isNewline = false) : c.toToken true = c.toToken false := by
  refine toToken_within ?_
  rw [Ne, ← isNewline_next h, ht]
  exact Bool.false_ne_true

theorem next_across_of_not_newline (h : c.next false = .ok (t, d))
    (ht : t.token.isNewline = false) : c.next true = .ok (t, d) := by
  rw [next, toToken_across_of_not_newline h ht]
  exact h

/-- Across lines, the end of a line is passed over. -/
theorem toToken_across_of_newline (h : c.next false = .ok (t, d)) (ht : t.token.isNewline = true) :
    c.toToken true = d.toToken true := by
  obtain ⟨rest, hrest⟩ := List.head?_eq_some_iff.1 ((isNewline_next h).1 ht)
  obtain ⟨n, hscan, rfl, -⟩ := next_eq_ok_iff.1 h
  rw [hrest, Token.scan_newline] at hscan
  obtain ⟨-, rfl⟩ := Prod.mk.inj (Except.ok.inj hscan)
  exact toToken_across hrest

theorem next_across_of_newline (h : c.next false = .ok (t, d)) (ht : t.token.isNewline = true) :
    c.next true = d.next true := by
  rw [next, next, toToken_across_of_newline h ht]

/-- The next token across lines is the next one, or it stands behind the end of a line. -/
theorem next_across_cases (h : c.next true = .ok (t, d)) :
    (c.next false = .ok (t, d) ∧ t.token.isNewline = false)
      ∨ ∃ t' d', c.next false = .ok (t', d') ∧ t'.token.isNewline = true
        ∧ d'.next true = .ok (t, d) := by
  by_cases hhead : (c.toToken false).rest.head? = some '\n'
  · right
    obtain ⟨rest, hrest⟩ := List.head?_eq_some_iff.1 hhead
    have hnext : c.next false = .ok
        (⟨.newline, (c.toToken false).spanTo ((c.toToken false).skip 1)⟩,
          (c.toToken false).skip 1) :=
      next_eq_ok_iff.2 ⟨1, by rw [hrest]; exact Token.scan_newline rest, rfl, rfl⟩
    refine ⟨_, _, hnext, rfl, ?_⟩
    rw [← next_across_of_newline hnext rfl]
    exact h
  · left
    have hnext : c.next false = .ok (t, d) := by
      rw [next, ← toToken_within hhead]
      exact h
    refine ⟨hnext, ?_⟩
    rw [← Bool.not_eq_true, isNewline_next hnext]
    exact hhead

/-! ## All tokens -/

/-- The text behind the cursor consists of the given tokens. -/
inductive Lexes : Cursor → List Token → Prop
  | done {c d : Cursor} {t : Located} : c.next false = .ok (t, d) → t.token.isEnd = true →
    Lexes c []
  | more {c d : Cursor} {t : Located} {ts : List Token} : c.next false = .ok (t, d) →
    t.token.isEnd = false → Lexes d ts → Lexes c (t.token :: ts)

/-- The tokens ahead depend only on the place of the next one. -/
theorem Lexes.of_toToken {ts : List Token} (h : Lexes d ts)
    (heq : c.toToken false = d.toToken false) : Lexes c ts := by
  have hnext : c.next false = d.next false := by rw [next, next, heq]
  cases h with
  | done h ht => exact .done (hnext.trans h) ht
  | more h ht hrest => exact .more (hnext.trans h) ht hrest

/-- There are no more tokens than characters. -/
theorem Lexes.length_le {ts : List Token} (h : Lexes c ts) : ts.length ≤ c.rest.length := by
  induction h with
  | done => exact Nat.zero_le _
  | more hnext ht _ ih =>
    have := length_next hnext ht
    rw [List.length_cons]
    omega

/-- The end of the text is none of its tokens. -/
theorem Lexes.isEnd_eq_false {ts : List Token} (h : Lexes c ts) {tok : Token} (htok : tok ∈ ts) :
    tok.isEnd = false := by
  induction h with
  | done => exact absurd htok List.not_mem_nil
  | more _ ht _ ih =>
    obtain rfl | htok := List.mem_cons.1 htok
    · exact ht
    · exact ih htok

end Cursor

theorem Token.eq_endOfInput {t : Token} (h : t.isEnd = true) : t = .endOfInput := by
  cases t <;> simp [isEnd] at h ⊢

theorem tokensFrom_succ_of_end {n : Nat} {c d : Cursor} {t : Located}
    (h : c.next false = .ok (t, d)) (ht : t.token.isEnd = true) :
    tokensFrom (n + 1) c = ⟨[t], none⟩ := by
  simp [tokensFrom, h, ht]

theorem tokensFrom_succ_of_token {n : Nat} {c d : Cursor} {t : Located}
    (h : c.next false = .ok (t, d)) (ht : t.token.isEnd = false) :
    tokensFrom (n + 1) c = ⟨t :: (tokensFrom n d).tokens, (tokensFrom n d).fault⟩ := by
  simp [tokensFrom, h, ht]

/-- Reading tokens one after the other finds them all, if as many may be read as there are
characters and one more. -/
theorem tokensFrom_of_lexes {c : Cursor} {ts : List Token} (h : c.Lexes ts) :
    ∀ {n : Nat}, c.rest.length < n → (tokensFrom n c).fault = none
      ∧ (tokensFrom n c).tokens.map (·.token) = ts ++ [.endOfInput] := by
  induction h with
  | done hnext ht =>
    rintro (_ | n) hn
    · exact absurd hn (Nat.not_lt_zero _)
    · simp [tokensFrom_succ_of_end hnext ht, Token.eq_endOfInput ht]
  | more hnext ht _ ih =>
    rintro (_ | n) hn
    · exact absurd hn (Nat.not_lt_zero _)
    · have := Cursor.length_next hnext ht
      obtain ⟨hfault, htokens⟩ := ih (by omega : _ < n)
      simp [tokensFrom_succ_of_token hnext ht, hfault, htokens]

/-- What is found are the tokens of the text. -/
theorem lexes_of_tokensFrom : ∀ {n : Nat} {c : Cursor}, c.rest.length < n →
    (tokensFrom n c).fault = none →
    ∃ ts, c.Lexes ts ∧ (tokensFrom n c).tokens.map (·.token) = ts ++ [.endOfInput]
  | 0, _, hn, _ => absurd hn (Nat.not_lt_zero _)
  | n + 1, c, hn, hfault => by
    cases hnext : c.next false with
    | error e => simp [tokensFrom, hnext] at hfault
    | ok td =>
      obtain ⟨t, d⟩ := td
      cases ht : t.token.isEnd with
      | true =>
        refine ⟨[], .done hnext ht, ?_⟩
        simp [tokensFrom_succ_of_end hnext ht, Token.eq_endOfInput ht]
      | false =>
        have := Cursor.length_next hnext ht
        rw [tokensFrom_succ_of_token hnext ht] at hfault
        obtain ⟨ts, hlex, htokens⟩ := lexes_of_tokensFrom (by omega : d.rest.length < n) hfault
        refine ⟨t.token :: ts, .more hnext ht hlex, ?_⟩
        simp [tokensFrom_succ_of_token hnext ht, htokens]

theorem tokenize_eq_ok_iff {source : String} {located : List Located} :
    tokenize source = .ok located
      ↔ (tokensFrom (source.toList.length + 1) (Cursor.start source.toList)).fault = none
        ∧ (tokensFrom (source.toList.length + 1) (Cursor.start source.toList)).tokens
          = located := by
  unfold tokenize tokenStream
  dsimp only
  split
  · next h => simp [h]
  · next e h => simp [h]

/-- **The tokens that tokenizing finds are those the text consists of**, and the end. -/
theorem lexes_of_tokenize {source : String} {located : List Located}
    (h : tokenize source = .ok located) : ∃ ts, (Cursor.start source.toList).Lexes ts
      ∧ located.map (·.token) = ts ++ [.endOfInput] := by
  obtain ⟨hfault, rfl⟩ := tokenize_eq_ok_iff.1 h
  exact lexes_of_tokensFrom (Nat.lt_succ_self _) hfault

/-- **Tokenizing succeeds on every text that consists of tokens.** -/
theorem tokenize_of_lexes {source : String} {ts : List Token}
    (h : (Cursor.start source.toList).Lexes ts) :
    ∃ located, tokenize source = .ok located ∧ located.map (·.token) = ts ++ [.endOfInput] := by
  obtain ⟨hfault, htokens⟩ := tokensFrom_of_lexes h (Nat.lt_succ_self _)
  exact ⟨_, tokenize_eq_ok_iff.2 ⟨hfault, rfl⟩, htokens⟩

end CommandScript
