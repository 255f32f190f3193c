import CommandScript.Proofs.Shell.Passes
import CommandScript.Proofs.Token.Lexes
import CommandScript.Proofs.Parser.Grammar

/-!
# Proofs/Shell/PlainLine — where a command line ends

The two ways to read a line, as tokens and as words, need not end at the same place: a line may go
on in brackets, a raw string may end in a backslash, a comment may stand close behind a token, and
all of these mean something else to a command line. A line is plain if both ways end at the same
place nevertheless (`Cursor.PlainLine`), as every line without them does
(`Cursor.FittingLine.plainLine`).
-/

namespace CommandScript

namespace Scan

/-- Blanks are skipped, and so are comments behind them. -/
theorem trivia_blanks : ∀ (cs : List Char), trivia false false cs
    = (cs.takeWhile Text.isBlank).length + trivia false false (cs.dropWhile Text.isBlank)
  | [] => rfl
  | c :: cs => by
    by_cases hblank : Text.isBlank c = true
    · have hline : c ≠ '\n' := by
        rintro rfl
        exact absurd hblank (by decide)
      have hcomment : c ≠ '#' := by
        rintro rfl
        exact absurd hblank (by decide)
      rw [trivia_cons hline, if_neg (by simp [hcomment]), if_pos hblank,
        List.takeWhile_cons_of_pos hblank, List.dropWhile_cons_of_pos hblank, trivia_blanks cs,
        List.length_cons]
      omega
    · rw [List.takeWhile_cons_of_neg hblank, List.dropWhile_cons_of_neg hblank, List.length_nil,
        Nat.zero_add]

end Scan

namespace Cursor

variable {c d target : Cursor} {t : Located} {inBlock : Bool}

/-! ## The place of a token -/

theorem rest_pastBlanks (c : Cursor) : c.pastBlanks.rest = c.rest.dropWhile Text.isBlank := by
  rw [pastBlanks, rest_skip]
  exact List.append_cancel_left
    ((Scan.take_length_takeWhile _ _).trans List.takeWhile_append_dropWhile.symm)

@[simp] theorem toToken_pastBlanks (c : Cursor) : c.pastBlanks.toToken false = c.toToken false := by
  rw [toToken, rest_pastBlanks, toToken, Scan.trivia_blanks c.rest, skip_add]
  rfl

/-- Where no comment follows the blanks, a token does. -/
theorem toToken_eq_pastBlanks (h : c.pastBlanks.rest.head? ≠ some '#') :
    c.toToken false = c.pastBlanks := by
  have hblank := List.head?_dropWhile_not Text.isBlank c.rest
  rw [← rest_pastBlanks] at hblank
  have hzero : Scan.trivia false false c.pastBlanks.rest = 0 := by
    cases hrest : c.pastBlanks.rest with
    | nil => rfl
    | cons ch rest =>
      rw [hrest] at h hblank
      by_cases hch : ch = '\n'
      · subst hch
        rfl
      · rw [Scan.trivia_cons hch, if_neg (by simpa using h), if_neg (by simpa using hblank)]
  rw [← toToken_pastBlanks, toToken, hzero, skip_zero]

theorem eq_of_next {t' : Located} {d' : Cursor} (h : c.next false = .ok (t, d))
    (h' : c.next false = .ok (t', d')) : t = t' ∧ d = d' :=
  Prod.mk.inj (Except.ok.inj (h.symm.trans h'))

/-- A comment ends the line. -/
theorem isLineEnd_of_comment (h : c.pastBlanks.rest.head? = some '#')
    (hnext : c.next false = .ok (t, d)) : t.token.isEnd = true ∨ t.token.isNewline = true := by
  obtain ⟨rest, hrest⟩ := List.head?_eq_some_iff.1 h
  have htoken : (c.toToken false).rest = rest.drop (Scan.trivia false true rest) := by
    rw [← toToken_pastBlanks, toToken, rest_skip, hrest]
    rfl
  obtain hnil | hline := Scan.trivia_comment rest
  · obtain ⟨n, hscan, -⟩ := next_eq_ok_iff.1 hnext
    rw [htoken, hnil, Token.scan_nil] at hscan
    obtain ⟨heq, -⟩ := Prod.mk.inj (Except.ok.inj hscan)
    exact .inl (by rw [← heq]; rfl)
  · exact .inr ((isNewline_next hnext).2 (by rw [htoken, hline]))

/-! ## The end of a command line -/

/-- Whether a line ends at the token. Inside a block a closing brace does. -/
def endsLine (inBlock : Bool) (t : Token) : Bool :=
  t.isEnd || t.isNewline || (t.isSymbol .rightBrace && inBlock)

/-- From the cursor on, which may stand inside a word, a command line goes up to the token at
`target`. -/
def LineEnds (inBlock : Bool) (c target : Cursor) : Prop :=
  ∃ k, (∀ position, ∃ parts, Scan.wordFrom inBlock none position 0 c.rest = .ok (parts, k))
    ∧ ∀ n, (c.skip k).rest.length < n → ∃ words e, wordsFrom inBlock n (c.skip k) = .ok (words, e)
      ∧ e.toToken false = target

theorem wordsFrom_succ (n : Nat) (c : Cursor) : wordsFrom inBlock (n + 1) c =
    match c.pastBlanks.rest with
    | [] => .ok ([], c.pastBlanks)
    | ch :: _ =>
      if ch = '#' then .ok ([], c.pastBlanks.toToken false)
      else if Scan.endsWord inBlock ch then .ok ([], c.pastBlanks)
      else
        match Scan.wordFrom inBlock none 0 0 c.pastBlanks.rest with
        | .error position => .error (.lex .openQuote (c.pastBlanks.skip position).here)
        | .ok (parts, width) => do
          let d := c.pastBlanks.skip width
          let (words, e) ← wordsFrom inBlock n d
          return (⟨.word parts, c.pastBlanks.spanTo d⟩ :: words, e) := rfl

/-- At the character of a token that ends a line, a word ends. -/
theorem endsWord_of_endsLine {ch : Char} {rest : List Char} {tok : Token} {n : Nat}
    (hscan : Token.scan (ch :: rest) = .ok (tok, n)) (h : endsLine inBlock tok = true) :
    Scan.endsWord inBlock ch = true := by
  obtain ⟨-, hend, hline⟩ := Token.scan_cons hscan
  rw [endsLine, hend, Bool.false_or, Bool.or_eq_true] at h
  obtain h | h := h
  · rw [hline h]
    simp [Scan.endsWord]
  · obtain ⟨hbrace, rfl⟩ := Bool.and_eq_true_iff.1 h
    rw [Token.isSymbol_iff.1 hbrace] at hscan
    obtain rfl : '\x7d' = ch := Option.some.inj (Token.scan_symbol hscan)
    rfl

/-- No word is left before a token that ends a line. -/
theorem wordsFrom_of_endsLine (hnext : c.next false = .ok (t, d))
    (ht : endsLine inBlock t.token = true) (n : Nat) :
    ∃ e, wordsFrom inBlock (n + 1) c = .ok ([], e) ∧ e.toToken false = c.toToken false := by
  rw [wordsFrom_succ]
  cases hrest : c.pastBlanks.rest with
  | nil => exact ⟨c.pastBlanks, rfl, toToken_pastBlanks c⟩
  | cons ch rest =>
    dsimp only
    by_cases hch : ch = '#'
    · rw [if_pos hch]
      exact ⟨_, rfl, by simp⟩
    · have hplace : c.toToken false = c.pastBlanks :=
        toToken_eq_pastBlanks (by simpa [hrest] using hch)
      obtain ⟨m, hscan, -⟩ := next_eq_ok_iff.1 hnext
      rw [hplace, hrest] at hscan
      rw [if_neg hch, if_pos (endsWord_of_endsLine hscan ht)]
      exact ⟨_, rfl, toToken_pastBlanks c⟩

theorem pastBlanks_of_not_blank {ch : Char} {rest : List Char} (hrest : c.rest = ch :: rest)
    (hch : Text.isBlank ch = false) : c.pastBlanks = c := by
  rw [pastBlanks, hrest, List.takeWhile_cons_of_neg (by simp [hch])]
  rfl

/-- A command line ends at a token that ends a line. -/
theorem lineEnds_of_endsLine (hnext : c.next false = .ok (t, d))
    (ht : endsLine inBlock t.token = true) (hcomment : c.rest.head? ≠ some '#') :
    LineEnds inBlock c (c.toToken false) := by
  refine ⟨0, fun position => ⟨[], ?_⟩, fun n hn => ?_⟩
  · cases hrest : c.rest with
    | nil => rw [Scan.wordFrom]
    | cons ch rest =>
      have hends : Scan.endsWord inBlock ch = true := by
        cases hblank : Text.isBlank ch with
        | true => simp [Scan.endsWord, hblank]
        | false =>
          have hpast := pastBlanks_of_not_blank hrest hblank
          have hplace := toToken_eq_pastBlanks (c := c) (by rwa [hpast])
          obtain ⟨m, hscan, -⟩ := next_eq_ok_iff.1 hnext
          rw [hplace, hpast, hrest] at hscan
          exact endsWord_of_endsLine hscan ht
      rw [Scan.wordFrom]
      simp [hends]
  · obtain ⟨n, rfl⟩ := Nat.exists_eq_succ_of_ne_zero (Nat.ne_of_gt (Nat.zero_lt_of_lt hn))
    obtain ⟨e, he, hplace⟩ := wordsFrom_of_endsLine hnext ht n
    exact ⟨[], e, he, hplace⟩

theorem not_comment_of_fitsWord (hnext : c.next false = .ok (t, d))
    (ht : t.token.fitsWord = true) : c.pastBlanks.rest.head? ≠ some '#' := by
  intro hcomment
  obtain h | h := isLineEnd_of_comment hcomment hnext
  all_goals
    generalize t.token = tok at h ht
    cases tok <;> simp [Token.isEnd, Token.isNewline, Token.fitsWord] at h ht

/-- A word goes on past a token that fits it. -/
theorem LineEnds.word (hnext : c.next false = .ok (t, d)) (ht : t.token.fitsWord = true) {k : Nat}
    (hword : ∀ position, ∃ parts, Scan.wordFrom inBlock none position 0 d.rest = .ok (parts, k)) :
    ∃ m, 0 < m ∧ d = c.pastBlanks.skip m ∧ c.pastBlanks.rest ≠ [] ∧ ∀ position, ∃ parts,
      Scan.wordFrom inBlock none position 0 c.pastBlanks.rest = .ok (parts, m + k) := by
  obtain ⟨m, hscan, hd, -⟩ := next_eq_ok_iff.1 hnext
  rw [toToken_eq_pastBlanks (not_comment_of_fitsWord hnext ht)] at hscan hd
  have hrest : c.pastBlanks.rest ≠ [] := by
    intro hnil
    rw [hnil, Token.scan_nil] at hscan
    rw [← (Prod.mk.inj (Except.ok.inj hscan)).1] at ht
    exact absurd ht (by decide)
  have hm : 0 < m := by
    obtain ⟨ch, rest, hcons⟩ := List.exists_cons_of_ne_nil hrest
    rw [hcons] at hscan
    exact (Token.scan_cons hscan).1
  refine ⟨m, hm, hd, hrest, fun position => ?_⟩
  obtain ⟨parts, hparts⟩ := hword (position + m)
  rw [hd, rest_skip] at hparts
  exact Scan.passes_of_scan hscan ht position parts k hparts

/-- A command line with a token ahead has a word. -/
theorem wordsFrom_of_token (hnext : c.next false = .ok (t, d)) (ht : t.token.fitsWord = true)
    (h : LineEnds inBlock d target) {n : Nat} (hn : c.rest.length ≤ n) :
    ∃ parts span words e, wordsFrom inBlock (n + 1) c = .ok (⟨.word parts, span⟩ :: words, e)
      ∧ e.toToken false = target := by
  obtain ⟨k, hword, hwords⟩ := h
  obtain ⟨m, hm, hd, hrest, hword⟩ := LineEnds.word hnext ht hword
  obtain ⟨parts, hparts⟩ := hword 0
  obtain ⟨ch, rest, hcons⟩ := List.exists_cons_of_ne_nil hrest
  have hlen : (d.skip k).rest.length < n := by
    have hle : c.pastBlanks.rest.length ≤ c.rest.length := by
      rw [rest_pastBlanks]
      exact List.length_dropWhile_le _ _
    have hpos : 0 < c.pastBlanks.rest.length := List.length_pos_iff.2 hrest
    rw [hd, ← skip_add, rest_skip, List.length_drop]
    omega
  obtain ⟨words, e, he, hplace⟩ := hwords n hlen
  have hch : ch ≠ '#' := by
    have := not_comment_of_fitsWord hnext ht
    rw [hcons] at this
    simpa using this
  have hends : Scan.endsWord inBlock ch = false := by
    rw [hcons, Scan.wordFrom] at hparts
    cases hends : Scan.endsWord inBlock ch with
    | false => rfl
    | true =>
      simp only [hends, Option.isNone_none, Bool.and_self, if_true, Except.ok.injEq,
        Prod.mk.injEq] at hparts
      omega
  refine ⟨parts, c.pastBlanks.spanTo (c.pastBlanks.skip (m + k)), words, e, ?_, hplace⟩
  have hskip : c.pastBlanks.skip (m + k) = d.skip k := by rw [hd, skip_add]
  rw [wordsFrom_succ, hcons]
  dsimp only
  rw [if_neg hch, if_neg (by simp [hends]), ← hcons, hparts]
  dsimp only
  rw [hskip, he]
  rfl

/-- A command line goes on past a token that fits a word. -/
theorem LineEnds.token (hnext : c.next false = .ok (t, d)) (ht : t.token.fitsWord = true)
    (h : LineEnds inBlock d target) : LineEnds inBlock c target := by
  obtain ⟨k, hword, hwords⟩ := h
  obtain ⟨m, hm, hd, hrest, hword'⟩ := LineEnds.word hnext ht hword
  cases hc : c.rest with
  | nil =>
    rw [rest_pastBlanks, hc] at hrest
    exact absurd rfl hrest
  | cons ch rest =>
    cases hblank : Text.isBlank ch with
    | false =>
      rw [pastBlanks_of_not_blank hc hblank] at hd hword'
      refine ⟨m + k, hword', ?_⟩
      rw [skip_add, ← hd]
      exact hwords
    | true =>
      refine ⟨0, fun position => ⟨[], ?_⟩, fun n hn => ?_⟩
      · rw [hc, Scan.wordFrom]
        simp [Scan.endsWord, hblank]
      · obtain ⟨n, rfl⟩ := Nat.exists_eq_succ_of_ne_zero (Nat.ne_of_gt (Nat.zero_lt_of_lt hn))
        obtain ⟨parts, span, words, e, he, hplace⟩ :=
          wordsFrom_of_token hnext ht ⟨k, hword, hwords⟩ (Nat.le_of_lt_succ hn)
        exact ⟨_, e, he, hplace⟩

/-! ## Plain lines -/

/-- From the cursor on, before which `n` groups are open, the tokens of the line go up to the token
`last` at `target`, which ends the line. No group goes over the end of a line. -/
inductive TokensEnd : Cursor → (n : Nat) → (last : Token) → (target : Cursor) → Prop
  | stop {n : Nat} {c d : Cursor} {t : Located} : c.next false = .ok (t, d) →
    endsLine true t.token = true → (t.token.isNewline = true → n = 0) →
    TokensEnd c n t.token (c.toToken false)
  | more {n : Nat} {c d target : Cursor} {t : Located} {last : Token} :
    c.next false = .ok (t, d) → endsLine true t.token = false →
    TokensEnd d (t.token.nestingAfter n) last target → TokensEnd c n last target

/-- The line at the cursor is plain: its words end where its tokens do. -/
def PlainLine (c : Cursor) : Prop :=
  ∃ last target, c.TokensEnd 0 last target ∧ ∀ inBlock, endsLine inBlock last = true →
    ∃ words e, c.commandLine inBlock = .ok (words, e) ∧ e.toToken false = target

/-- The token that ends the line and its place, found by reading at most `size` tokens. -/
def tokensEnd? : (size : Nat) → Cursor → (n : Nat) → Option (Token × Cursor)
  | 0, _, _ => none
  | size + 1, c, n =>
    match c.next false with
    | .error _ => none
    | .ok (t, d) =>
      if endsLine true t.token then
        if t.token.isNewline && n != 0 then none else some (t.token, c.toToken false)
      else tokensEnd? size d (t.token.nestingAfter n)

/-- Whether the words of the line end at the place. -/
def wordsEndAt (c target : Cursor) (inBlock : Bool) : Bool :=
  match c.commandLine inBlock with
  | .error _ => false
  | .ok (_, e) => e.toToken false = target

/-- Whether the line at the cursor is plain, found by reading at most `size` tokens. -/
def isPlainLine (size : Nat) (c : Cursor) : Bool :=
  match c.tokensEnd? size 0 with
  | none => false
  | some (last, target) =>
    [false, true].all fun inBlock => !endsLine inBlock last || c.wordsEndAt target inBlock

theorem tokensEnd_of_tokensEnd? {last : Token} : ∀ {size : Nat} {c : Cursor} {n : Nat},
    tokensEnd? size c n = some (last, target) → TokensEnd c n last target
  | 0, _, _, h => absurd h (Option.some_ne_none _).symm
  | size + 1, c, n, h => by
    rw [tokensEnd?] at h
    split at h
    · exact absurd h (Option.some_ne_none _).symm
    · next t d hnext =>
      split at h
      · next hends =>
        split at h
        · exact absurd h (Option.some_ne_none _).symm
        · next hline =>
          obtain ⟨rfl, rfl⟩ := Prod.mk.inj (Option.some.inj h)
          refine .stop hnext hends fun hnewline => ?_
          simpa [hnewline] using hline
      · next hends => exact .more hnext (Bool.eq_false_iff.2 hends) (tokensEnd_of_tokensEnd? h)

theorem plainLine_of_isPlainLine {size : Nat} (h : isPlainLine size c = true) : PlainLine c := by
  rw [isPlainLine] at h
  split at h
  · exact absurd h Bool.false_ne_true
  · next last target hends =>
    refine ⟨last, target, tokensEnd_of_tokensEnd? hends, fun inBlock hlast => ?_⟩
    have hwords := List.all_eq_true.1 h inBlock (by cases inBlock <;> simp)
    rw [hlast, Bool.not_true, Bool.false_or, wordsEndAt] at hwords
    split at hwords
    · exact absurd hwords Bool.false_ne_true
    · next words e hline => exact ⟨words, e, hline, of_decide_eq_true hwords⟩

theorem endsLine_in_block {tok : Token} (h : endsLine inBlock tok = true) :
    endsLine true tok = true := by
  cases inBlock with
  | true => exact h
  | false =>
    simp only [endsLine, Bool.and_false, Bool.or_false] at h
    rw [endsLine, h, Bool.true_or]

namespace TokensEnd

variable {n : Nat} {last : Token}

theorem eq_of_endsLine (h : TokensEnd c n last target) (hnext : c.next false = .ok (t, d))
    (ht : endsLine true t.token = true) : last = t.token ∧ target = c.toToken false := by
  obtain ⟨hnext', -, -⟩ | ⟨hnext', hmore, -⟩ := h
  · obtain ⟨rfl, -⟩ := eq_of_next hnext hnext'
    exact ⟨rfl, rfl⟩
  · obtain ⟨rfl, -⟩ := eq_of_next hnext hnext'
    exact absurd ht (by simp [hmore])

theorem behind (h : TokensEnd c n last target) (hnext : c.next false = .ok (t, d))
    (ht : endsLine true t.token = false) : TokensEnd d (t.token.nestingAfter n) last target := by
  obtain ⟨hnext', hends, -⟩ | ⟨hnext', -, hrest⟩ := h
  · obtain ⟨rfl, -⟩ := eq_of_next hnext hnext'
    exact absurd hends (by simp [ht])
  · obtain ⟨rfl, rfl⟩ := eq_of_next hnext hnext'
    exact hrest

theorem not_newline (h : TokensEnd c n last target) (hnext : c.next false = .ok (t, d))
    (hn : 0 < n) : t.token.isNewline = false := by
  obtain ⟨hnext', -, hline⟩ | ⟨hnext', hmore, -⟩ := h
  · obtain ⟨rfl, -⟩ := eq_of_next hnext hnext'
    exact Bool.eq_false_iff.2 fun hnewline => absurd (hline hnewline) (Nat.ne_of_gt hn)
  · obtain ⟨rfl, -⟩ := eq_of_next hnext hnext'
    simp only [endsLine, Bool.or_eq_false_iff] at hmore
    exact hmore.1.2

/-- Up to the end of the line it makes no difference that lines are crossed in groups. -/
theorem within (h : TokensEnd c n last target) :
    c.next (0 < n) = c.next false ∧ c.toToken (0 < n) = c.toToken false := by
  obtain ⟨t, d, hnext⟩ : ∃ t d, c.next false = .ok (t, d) := by
    obtain ⟨hnext, -, -⟩ | ⟨hnext, -, -⟩ := h
    · exact ⟨_, _, hnext⟩
    · exact ⟨_, _, hnext⟩
  by_cases hn : 0 < n
  · have ht := h.not_newline hnext hn
    rw [decide_eq_true hn]
    exact ⟨(next_across_of_not_newline hnext ht).trans hnext.symm,
      toToken_across_of_not_newline hnext ht⟩
  · rw [decide_eq_false hn]
    exact ⟨rfl, rfl⟩

end TokensEnd

/-! ## Lines of tokens that fit words -/

/-- The line at the cursor, before which `n` groups are open, does not go on in a group, its tokens
fit into words, and no comment stands close behind one. -/
inductive FittingLine : Cursor → (n : Nat) → Prop
  | stop {n : Nat} {c d : Cursor} {t : Located} : c.next false = .ok (t, d) →
    endsLine true t.token = true → (t.token.isNewline = true → n = 0) → FittingLine c n
  | more {n : Nat} {c d : Cursor} {t : Located} : c.next false = .ok (t, d) →
    t.token.fitsWord = true → endsLine true t.token = false → d.rest.head? ≠ some '#' →
    FittingLine d (t.token.nestingAfter n) → FittingLine c n

/-- From inside a word on, too, the words end where the tokens do. -/
theorem FittingLine.lineEnds {n : Nat} (h : FittingLine c n) : c.rest.head? ≠ some '#' →
    ∃ last target, TokensEnd c n last target
      ∧ ∀ inBlock, endsLine inBlock last = true → LineEnds inBlock c target := by
  induction h with
  | stop hnext hends hline =>
    intro hcomment
    exact ⟨_, _, .stop hnext hends hline,
      fun inBlock hlast => lineEnds_of_endsLine hnext hlast hcomment⟩
  | more hnext hfits hends hcomment _ ih =>
    intro _
    obtain ⟨last, target, htokens, hwords⟩ := ih hcomment
    exact ⟨last, target, .more hnext hends htokens,
      fun inBlock hlast => (hwords inBlock hlast).token hnext hfits⟩

/-- **The words of a line end where its tokens do**, if it does not go on in a group, none of its
tokens means something else in a word, and no comment stands close behind one. -/
theorem FittingLine.plainLine (h : FittingLine c 0) : PlainLine c := by
  obtain ⟨hnext, hends, hline⟩ | ⟨hnext, hfits, hends, hcomment, hrest⟩ := h
  · refine ⟨_, _, .stop hnext hends hline, fun inBlock hlast => ?_⟩
    obtain ⟨e, he, hplace⟩ := wordsFrom_of_endsLine hnext hlast c.rest.length
    exact ⟨[], e, he, hplace⟩
  · obtain ⟨last, target, htokens, hwords⟩ := hrest.lineEnds hcomment
    refine ⟨last, target, .more hnext hends htokens, fun inBlock hlast => ?_⟩
    obtain ⟨parts, span, words, e, he, hplace⟩ :=
      wordsFrom_of_token hnext hfits (hwords inBlock hlast) (Nat.le_refl _)
    exact ⟨_, e, he, hplace⟩

end Cursor

end CommandScript
