import CommandScript.Proofs.Source.Place
import CommandScript.Proofs.Token.Lexes

/-!
# Proofs/Token/Tiling — the places of tokens

The spans of the tokens of a text lie one behind the other and leave out only blanks and comments
(`Tiling`). The argument is about one token at a time: a cursor that stands in the text stands in it
again behind the token, and what it passed on the way to the token is a gap (`Cursor.In.found`).
Going back to a token and reading on finds the same tokens at the same places
(`Cursor.Emits.rewind`).
-/

namespace CommandScript

/-! ## Blanks and comments -/

namespace Source

/-- A comment: it opens with a hash sign, holds no line feed, and runs to the next one or to the end
of the text. -/
structure IsComment (source : List Char) (start stop : Nat) : Prop where
  opens : source[start]? = some '#'
  inside : ∀ i, start ≤ i → i < stop → ∃ ch, source[i]? = some ch ∧ ch ≠ '\n'
  ends : ∀ ch, source[stop]? = some ch → ch = '\n'

/-- Between the two offsets there are blanks, and then perhaps a comment up to the second one. -/
def Gap (source : List Char) (first last : Nat) : Prop :=
  ∀ i, first ≤ i → i < last → (∃ ch, source[i]? = some ch ∧ Text.isBlank ch = true)
    ∨ ∃ start, first ≤ start ∧ start ≤ i ∧ IsComment source start last

variable {source : List Char} {k a b : Nat}

theorem IsComment.of_drop (h : IsComment (source.drop k) a b) :
    IsComment source (k + a) (k + b) := by
  obtain ⟨hopens, hinside, hends⟩ := h
  simp only [List.getElem?_drop] at hopens hinside hends
  refine ⟨hopens, fun i hi hlt => ?_, hends⟩
  obtain ⟨i, rfl⟩ := Nat.exists_eq_add_of_le (show k ≤ i by omega)
  exact hinside i (by omega) (by omega)

theorem Gap.of_drop (h : Gap (source.drop k) a b) : Gap source (k + a) (k + b) := by
  intro i hi hlt
  obtain ⟨i, rfl⟩ := Nat.exists_eq_add_of_le (show k ≤ i by omega)
  rcases h i (by omega) (by omega) with hblank | ⟨start, hfirst, hle, hcomment⟩
  · rw [List.getElem?_drop] at hblank
    exact .inl hblank
  · exact .inr ⟨k + start, by omega, by omega, hcomment.of_drop⟩

end Source

namespace Scan

open Source

/-- No line feed is part of a comment. -/
theorem getElem?_trivia_comment : ∀ (cs : List Char) (i : Nat), i < trivia false true cs →
    ∃ ch, cs[i]? = some ch ∧ ch ≠ '\n'
  | [], i, hi => absurd hi (Nat.not_lt_zero i)
  | c :: cs, i, hi => by
    by_cases hc : c = '\n'
    · rw [hc, trivia_newline] at hi
      exact absurd hi (Nat.not_lt_zero i)
    · cases i with
      | zero => exact ⟨c, rfl, hc⟩
      | succ i =>
        rw [trivia_cons hc, if_pos (by simp)] at hi
        exact getElem?_trivia_comment cs i (Nat.lt_of_succ_lt_succ hi)

theorem isComment_trivia (cs : List Char) :
    IsComment ('#' :: cs) 0 (trivia false true cs + 1) where
  opens := rfl
  inside
    | 0, _, _ => ⟨'#', rfl, by decide⟩
    | i + 1, _, hi => getElem?_trivia_comment cs i (Nat.lt_of_succ_lt_succ hi)
  ends := by
    intro ch hch
    rw [List.getElem?_cons_succ, ← List.head?_drop] at hch
    rcases trivia_comment cs with hend | hfeed
    · simp [hend] at hch
    · exact (Option.some.inj (hfeed.symm.trans hch)).symm

/-- What is skipped before a token is a gap. -/
theorem gap_trivia : ∀ cs : List Char, Gap cs 0 (trivia false false cs)
  | [] => fun i _ hi => absurd hi (Nat.not_lt_zero i)
  | c :: cs => by
    intro i _ hi
    by_cases hfeed : c = '\n'
    · rw [hfeed, trivia_newline] at hi
      exact absurd hi (Nat.not_lt_zero i)
    rw [trivia_cons hfeed] at hi ⊢
    by_cases hhash : c = '#'
    · subst hhash
      exact .inr ⟨0, Nat.le_refl 0, Nat.zero_le i, isComment_trivia cs⟩
    rw [if_neg (by simp [hhash])] at hi ⊢
    by_cases hblank : Text.isBlank c = true
    · rw [if_pos hblank, Nat.add_comm] at hi ⊢
      cases i with
      | zero => exact .inl ⟨c, rfl, hblank⟩
      | succ i =>
        have hgap : Gap (c :: cs) (1 + 0) (1 + trivia false false cs) :=
          @Gap.of_drop (c :: cs) 1 _ _ (gap_trivia cs)
        exact (hgap (i + 1) (by omega) hi).imp_right
          fun ⟨start, _, hle, h⟩ => ⟨start, Nat.zero_le _, hle, h⟩
    · rw [if_neg hblank] at hi
      exact absurd hi (Nat.not_lt_zero i)

end Scan

/-! ## One token -/

namespace Cursor

variable {source : List Char} {c d : Cursor} {t : Located}

theorem In.offset_toToken (h : c.In source) :
    (c.toToken false).offset = c.offset + Scan.trivia false false c.rest := by
  have hle := Scan.trivia_le false false c.rest
  have hlength := h.length_rest
  rw [toToken, h.offset_skip]
  omega

/-- On the way to the next token lies a gap. -/
theorem In.gap_toToken (h : c.In source) :
    Source.Gap source c.offset (c.toToken false).offset := by
  have hgap := Scan.gap_trivia c.rest
  rw [h.offset_toToken]
  rw [h.rest] at hgap ⊢
  exact hgap.of_drop

/-- What reading a token means for the places before and behind it. -/
structure Found (source : List Char) (c : Cursor) (t : Located) (d : Cursor) : Prop where
  behind : d.In source
  starts : c.offset ≤ t.span.start
  gap : Source.Gap source c.offset t.span.start
  stops : t.span.stop = d.offset
  placed : t.span.Placed source
  /-- The start of the span is the place where the token was found. -/
  back : atSpan source t.span = c.toToken false

/-- **A token lies between the places before and behind it**, with a gap in front. -/
theorem In.found (h : c.In source) (hnext : c.next false = .ok (t, d)) : c.Found source t d := by
  obtain ⟨n, -, rfl, hspan⟩ := next_eq_ok_iff.1 hnext
  have hplace : (c.toToken false).In source := h.skip _
  have hstart : t.span.start = (c.toToken false).offset := by
    rw [hspan]
    rfl
  refine ⟨hplace.skip n, ?_, ?_, by rw [hspan]; rfl, ?_, ?_⟩
  · rw [hstart, h.offset_toToken]
    exact Nat.le_add_right _ _
  · rw [hstart]
    exact h.gap_toToken
  · rw [hspan]
    exact hplace.placed_spanTo _
  · rw [hspan]
    exact hplace.atSpan_spanTo _

/-- A token that is not the end takes at least one character. -/
theorem In.span_lt (h : c.In source) (hnext : c.next false = .ok (t, d))
    (ht : t.token.isEnd = false) : t.span.start < t.span.stop := by
  have hshort := length_next ((next_toToken false c).trans hnext) ht
  have hbefore := (h.skip (Scan.trivia false false c.rest)).length_rest
  have hbehind := (h.found hnext).behind.length_rest
  obtain ⟨n, -, -, hspan⟩ := next_eq_ok_iff.1 hnext
  rw [hspan]
  change (c.toToken false).offset < d.offset
  change (c.toToken false).offset + (c.toToken false).rest.length = _ at hbefore
  omega

/-- The end of the text is found at its end, and takes no characters. -/
theorem In.span_end (h : c.In source) (hnext : c.next false = .ok (t, d))
    (ht : t.token.isEnd = true) :
    t.span.start = source.length ∧ t.span.stop = source.length := by
  obtain ⟨n, hscan, hd, hspan⟩ := next_eq_ok_iff.1 hnext
  have hplace : (c.toToken false).In source := h.skip _
  have hlength := hplace.length_rest
  cases hrest : (c.toToken false).rest with
  | nil =>
    rw [hrest, Token.scan_nil] at hscan
    obtain ⟨-, rfl⟩ := Prod.mk.inj (Except.ok.inj hscan)
    rw [hrest] at hlength
    rw [hspan, hd]
    exact ⟨hlength, hlength⟩
  | cons ch rest =>
    rw [hrest] at hscan
    rw [(Token.scan_cons hscan).2.1] at ht
    exact absurd ht Bool.false_ne_true

/-! ## All tokens -/

/-- Reading on from the cursor finds the given tokens, the end of the text included. -/
inductive Emits : Cursor → List Located → Prop
  | done {c d : Cursor} {t : Located} : c.next false = .ok (t, d) → t.token.isEnd = true →
    Emits c [t]
  | more {c d : Cursor} {t : Located} {ts : List Located} : c.next false = .ok (t, d) →
    t.token.isEnd = false → Emits d ts → Emits c (t :: ts)

theorem emits_of_tokensFrom : ∀ {n : Nat} {c : Cursor}, c.rest.length < n →
    (tokensFrom n c).fault = none → c.Emits (tokensFrom n c).tokens
  | 0, _, hn, _ => absurd hn (Nat.not_lt_zero _)
  | n + 1, c, hn, hfault => by
    cases hnext : c.next false with
    | error e => simp [tokensFrom, hnext] at hfault
    | ok td =>
      obtain ⟨t, d⟩ := td
      cases ht : t.token.isEnd with
      | true =>
        rw [tokensFrom_succ_of_end hnext ht]
        exact .done hnext ht
      | false =>
        have := length_next hnext ht
        rw [tokensFrom_succ_of_token hnext ht] at hfault ⊢
        exact .more hnext ht (emits_of_tokensFrom (by omega) hfault)

theorem Emits.tokensFrom {ts : List Located} (h : c.Emits ts) :
    ∀ {n : Nat}, c.rest.length < n → tokensFrom n c = ⟨ts, none⟩ := by
  induction h with
  | done hnext ht =>
    rintro (_ | n) hn
    · exact absurd hn (Nat.not_lt_zero _)
    · exact tokensFrom_succ_of_end hnext ht
  | more hnext ht _ ih =>
    rintro (_ | n) hn
    · exact absurd hn (Nat.not_lt_zero _)
    · have := length_next hnext ht
      rw [tokensFrom_succ_of_token hnext ht, ih (by omega)]

/-- Reading may as well start at the first token. -/
theorem Emits.toToken {ts : List Located} (h : c.Emits ts) : (c.toToken false).Emits ts := by
  cases h with
  | done hnext ht => exact .done ((next_toToken false c).trans hnext) ht
  | more hnext ht hrest => exact .more ((next_toToken false c).trans hnext) ht hrest

/-- **Back at a token, the same tokens follow.** -/
theorem Emits.rewind {ts before after : List Located} (h : c.Emits ts) (hin : c.In source)
    (hts : ts = before ++ t :: after) : (atSpan source t.span).Emits (t :: after) := by
  induction h generalizing before with
  | done hnext ht =>
    cases before with
    | nil =>
      obtain ⟨rfl, rfl⟩ := List.cons.inj hts
      rw [(hin.found hnext).back]
      exact (Emits.done hnext ht).toToken
    | cons u before => simp at hts
  | more hnext ht hrest ih =>
    cases before with
    | nil =>
      obtain ⟨rfl, rfl⟩ := List.cons.inj hts
      rw [(hin.found hnext).back]
      exact (Emits.more hnext ht hrest).toToken
    | cons u before => exact ih (hin.found hnext).behind (List.cons.inj hts).2

end Cursor

/-! ## The tiling -/

/-- The character at an offset belongs to the span. -/
def Span.Covers (s : Span) (i : Nat) : Prop := s.start ≤ i ∧ i < s.stop

/-- The spans of the tokens tile the text from an offset on. -/
structure Tiling (source : List Char) (first : Nat) (ts : List Located) : Prop where
  /-- One token stands behind the other. -/
  ordered : ts.Pairwise fun t u => t.span.start < u.span.start ∧ t.span.stop ≤ u.span.start
  first_le : ∀ t ∈ ts, first ≤ t.span.start
  nonempty : ∀ t ∈ ts, t.token ≠ .endOfInput → t.span.start < t.span.stop
  /-- The last token is the end of the text. -/
  ending : ∃ ts' t, ts = ts' ++ [t] ∧ t.token = .endOfInput
  atEnd : ∀ t ∈ ts, t.token = .endOfInput →
    t.span.start = source.length ∧ t.span.stop = source.length
  placed : ∀ t ∈ ts, t.span.Placed source
  /-- What belongs to no token is a blank, or it is in a comment of which nothing does. -/
  between : ∀ i, first ≤ i → i < source.length → (∀ t ∈ ts, ¬ t.span.Covers i) →
    (∃ ch, source[i]? = some ch ∧ Text.isBlank ch = true)
      ∨ ∃ start stop, first ≤ start ∧ start ≤ i ∧ i < stop ∧ Source.IsComment source start stop
        ∧ ∀ j, start ≤ j → j < stop → ∀ t ∈ ts, ¬ t.span.Covers j

namespace Tiling

variable {source : List Char} {first : Nat} {t : Located} {ts : List Located}

/-- A text without a token is a gap. -/
theorem last (hgap : Source.Gap source first source.length) (hfirst : first ≤ source.length)
    (ht : t.token = .endOfInput) (hstart : t.span.start = source.length)
    (hstop : t.span.stop = source.length) (hplaced : t.span.Placed source) :
    Tiling source first [t] where
  ordered := List.pairwise_singleton _ _
  first_le u hu := by
    rw [List.mem_singleton.1 hu, hstart]
    exact hfirst
  nonempty u hu hne := absurd (List.mem_singleton.1 hu ▸ ht) hne
  ending := ⟨[], t, rfl, ht⟩
  atEnd u hu _ := List.mem_singleton.1 hu ▸ ⟨hstart, hstop⟩
  placed u hu := List.mem_singleton.1 hu ▸ hplaced
  between i hi hlt _ := by
    have hempty : ∀ j, ∀ u ∈ [t], ¬ u.span.Covers j := by
      intro j u hu hcovers
      have := hcovers.1.trans_lt hcovers.2
      rw [List.mem_singleton.1 hu, hstart, hstop] at this
      exact Nat.lt_irrefl _ this
    refine (hgap i hi hlt).imp_right ?_
    rintro ⟨start, hfirst, hle, hcomment⟩
    exact ⟨start, source.length, hfirst, hle, hlt, hcomment, fun j _ _ => hempty j⟩

/-- **One more token in front**, with a gap before it. -/
theorem cons (h : Tiling source t.span.stop ts) (hgap : Source.Gap source first t.span.start)
    (hfirst : first ≤ t.span.start) (ht : t.token ≠ .endOfInput)
    (hlt : t.span.start < t.span.stop) (hplaced : t.span.Placed source) :
    Tiling source first (t :: ts) where
  ordered := List.pairwise_cons.2
    ⟨fun u hu => ⟨hlt.trans_le (h.first_le u hu), h.first_le u hu⟩, h.ordered⟩
  first_le := by
    refine List.forall_mem_cons.2 ⟨hfirst, fun u hu => ?_⟩
    exact hfirst.trans (hlt.le.trans (h.first_le u hu))
  nonempty := List.forall_mem_cons.2 ⟨fun _ => hlt, h.nonempty⟩
  ending := by
    obtain ⟨ts', last, rfl, hlast⟩ := h.ending
    exact ⟨t :: ts', last, rfl, hlast⟩
  atEnd := List.forall_mem_cons.2 ⟨fun hend => absurd hend ht, h.atEnd⟩
  placed := List.forall_mem_cons.2 ⟨hplaced, h.placed⟩
  between i hi hlength hfree := by
    obtain ⟨hhead, hrest⟩ := List.forall_mem_cons.1 hfree
    by_cases hbefore : i < t.span.start
    · -- In the gap before the token: nothing in it belongs to the token or to a later one.
      refine (hgap i hi hbefore).imp_right ?_
      rintro ⟨start, hstart, hle, hcomment⟩
      refine ⟨start, t.span.start, hstart, hle, hbefore, hcomment, fun j _ hj => ?_⟩
      refine List.forall_mem_cons.2 ⟨fun hcovers => ?_, fun u hu hcovers => ?_⟩
      · exact Nat.not_lt.2 hcovers.1 hj
      · have hafter := hlt.le.trans (h.first_le u hu)
        exact Nat.not_lt.2 (hafter.trans hcovers.1) hj
    · -- Behind the token, since it does not belong to it.
      have hafter : t.span.stop ≤ i := Nat.not_lt.1 fun hin => hhead ⟨Nat.not_lt.1 hbefore, hin⟩
      refine (h.between i hafter hlength hrest).imp_right ?_
      rintro ⟨start, stop, hstart, hle, hstop, hcomment, hfree⟩
      refine ⟨start, stop, hfirst.trans (hlt.le.trans hstart), hle, hstop, hcomment, ?_⟩
      intro j hj hjstop
      refine List.forall_mem_cons.2 ⟨fun hcovers => ?_, hfree j hj hjstop⟩
      exact Nat.not_lt.2 (hstart.trans hj) hcovers.2

end Tiling

/-- Tokens read one after the other tile the text. -/
theorem Cursor.Emits.tiling {source : List Char} {c : Cursor} {ts : List Located}
    (h : c.Emits ts) (hin : c.In source) : Tiling source c.offset ts := by
  induction h with
  | done hnext ht =>
    obtain ⟨hstart, hstop⟩ := hin.span_end hnext ht
    obtain ⟨-, hfirst, hgap, -, hplaced, -⟩ := hin.found hnext
    rw [hstart] at hfirst hgap
    exact .last hgap hfirst (Token.eq_endOfInput ht) hstart hstop hplaced
  | more hnext ht _ ih =>
    obtain ⟨hbehind, hfirst, hgap, hstops, hplaced, -⟩ := hin.found hnext
    have htiling := ih hbehind
    rw [← hstops] at htiling
    refine htiling.cons hgap hfirst (fun hend => ?_) (hin.span_lt hnext ht) hplaced
    rw [hend] at ht
    exact absurd ht (by decide)

/-- **The tokens of a text tile it, and reading can be taken up again at each of them.** The spans
lie one behind the other, only the end of the text is empty, what is left out are blanks and
comments, and every span has the line and the column of its first character. Back at the place of
any token, with leave to read as many tokens as there may be, the same tokens follow at the same
places. -/
theorem tokenize_tiling {source : String} {ts : List Located} (h : tokenize source = .ok ts) :
    Tiling source.toList 0 ts
      ∧ ∀ before t after, ts = before ++ t :: after →
        ∀ n, source.toList.length - t.span.start < n →
          tokensFrom n (Cursor.atSpan source.toList t.span) = ⟨t :: after, none⟩ := by
  obtain ⟨hfault, rfl⟩ := tokenize_eq_ok_iff.1 h
  have hemits := Cursor.emits_of_tokensFrom (Nat.lt_succ_self _) hfault
  have hin := Cursor.in_start source.toList
  refine ⟨hemits.tiling hin, fun before t after hts n hn => ?_⟩
  refine (hemits.rewind hin hts).tokensFrom ?_
  rw [Cursor.atSpan, List.length_drop]
  exact hn

/-- The tokens of a text with a string over two lines and a comment. -/
def tiledTokens : List Located :=
  [⟨.identifier "x", 0, 1, 1, 1⟩, ⟨.symbol .equals, 2, 3, 1, 3⟩, ⟨.string "a\nb", 4, 9, 1, 5⟩,
    ⟨.newline, 17, 18, 2, 11⟩, ⟨.identifier "x", 19, 20, 3, 2⟩, ⟨.endOfInput, 20, 20, 3, 3⟩]

theorem tokenize_tiling_comment :
    tokenize "x = 'a\nb' # note\r\n\tx" = .ok tiledTokens
      ∧ Tiling "x = 'a\nb' # note\r\n\tx".toList 0 tiledTokens
      ∧ tokensFrom 4 (Cursor.atSpan "x = 'a\nb' # note\r\n\tx".toList ⟨17, 18, 2, 11⟩)
        = ⟨tiledTokens.drop 3, none⟩ := by
  have htokens : tokenize "x = 'a\nb' # note\r\n\tx" = .ok tiledTokens := rfl
  obtain ⟨htiling, hback⟩ := tokenize_tiling htokens
  exact ⟨htokens, htiling, hback (tiledTokens.take 3) _ _ rfl 4 (by decide)⟩

end CommandScript
