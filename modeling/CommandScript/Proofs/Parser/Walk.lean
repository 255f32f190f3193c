import CommandScript.Proofs.Parser.Grammar
import CommandScript.Proofs.Token.Lexes

/-!
# Proofs/Parser/Walk — the tokens a parser walks over

A parser of expressions moves in one way only: past the current token, opening a group at an opening
bracket and closing one at a closing bracket (`State.shift`). `Walk s ts t` says that it gets from
one state to another over the tokens `ts`; inside a group these hold no ends of lines. From the
start of a text a parser can walk to the end exactly if the text consists of tokens, and then it
walks over all of them but the ends of lines in groups (`walk_to_end_iff`).
-/

namespace CommandScript

namespace Parser

/-! ## Computations of a parser -/

section Monad

variable {α β : Type} {s t : State}

theorem bind_eq_ok_iff {p : Parser α} {f : α → Parser β} {b : β} :
    (p >>= f) s = .ok b t ↔ ∃ a u, p s = .ok a u ∧ f a u = .ok b t := by
  change EStateM.bind p f s = .ok b t ↔ _
  unfold EStateM.bind
  cases p s with
  | ok a u =>
    refine ⟨fun h => ⟨a, u, rfl, h⟩, ?_⟩
    rintro ⟨a', u', heq, h⟩
    cases heq
    exact h
  | error e u => simp

theorem bind_eq_of_ok {p : Parser α} {a : α} (h : p s = .ok a t) (f : α → Parser β) :
    (p >>= f) s = f a t := by
  change EStateM.bind p f s = f a t
  unfold EStateM.bind
  rw [h]

theorem pure_eq_ok_iff {a b : α} : (pure a : Parser α) s = .ok b t ↔ a = b ∧ s = t := by
  change EStateM.Result.ok a s = .ok b t ↔ _
  rw [EStateM.Result.ok.injEq]

@[simp] theorem pure_apply (a : α) : (pure a : Parser α) s = .ok a s := rfl

@[simp] theorem current_bind (f : Token → Parser β) : (current >>= f) s = f s.current.token s := rfl

@[simp] theorem check_bind (sign : Symbol) (f : Bool → Parser β) :
    (check sign >>= f) s = f (s.current.token.isSymbol sign) s := rfl

/-- A line end that is given up leaves nothing to see. -/
theorem State.dropGroupedNewlines_of_newline (hn : 0 < s.nesting)
    (h : s.current.token.isNewline = true) :
    s.dropGroupedNewlines = { s with current := front [] } := by
  rw [dropGroupedNewlines, if_pos hn, List.dropWhile_cons, if_pos h, List.dropWhile_nil]

theorem State.dropGroupedNewlines_of_not (h : s.current.token.isNewline = false) :
    s.dropGroupedNewlines = s := by
  unfold dropGroupedNewlines
  split
  · rw [List.dropWhile_cons, if_neg (ne_true_of_eq_false h)]
    rfl
  · rfl

theorem check_ite_pos {sign : Symbol} {p q : Parser β} (h : s.current.token = .symbol sign) :
    (check sign >>= fun b => if b = true then p else q) s = p s := by
  rw [check_bind, Token.isSymbol_iff.2 h, if_pos rfl]

theorem check_ite_neg {sign : Symbol} {p q : Parser β} (h : s.current.token ≠ .symbol sign) :
    (check sign >>= fun b => if b = true then p else q) s = q s := by
  rw [check_bind, if_neg (mt Token.isSymbol_iff.1 h)]

@[simp] theorem unexpected_ne_ok {wanted : String} {a : α} : unexpected wanted s ≠ .ok a t :=
  fun h => nomatch h

end Monad

/-! ## Reading a token -/

/-- Move past the current token; brackets open and close groups. -/
def State.shift (s : State) : Except Error State :=
  let n := s.current.token.nestingAfter s.nesting
  State.readFrom { s with nesting := n } (0 < n) s.cursor

theorem readFrom_eq_ok_iff {s t : State} {acrossLines : Bool} {c : Cursor} :
    s.readFrom acrossLines c = .ok t ↔ ∃ tok d, c.next acrossLines = .ok (tok, d)
      ∧ t = { s with current := tok, origin := c.toToken acrossLines, cursor := d } := by
  unfold State.readFrom
  split
  · next tok d h =>
    rw [Except.ok.injEq, h]
    constructor
    · rintro rfl
      exact ⟨tok, d, rfl, rfl⟩
    · rintro ⟨_, _, heq, rfl⟩
      cases heq
      rfl
  · next e h => simp [h]

/-- What reading a token leaves alone. -/
theorem readFrom_fields {s t : State} {acrossLines : Bool} {c : Cursor}
    (h : s.readFrom acrossLines c = .ok t) :
    t.nesting = s.nesting ∧ t.blockDepth = s.blockDepth ∧ t.depth = s.depth := by
  obtain ⟨tok, d, -, rfl⟩ := readFrom_eq_ok_iff.1 h
  exact ⟨rfl, rfl, rfl⟩

theorem advance_eq_ok_iff_readFrom {s t : State} {u : Unit} :
    advance s = .ok u t ↔ s.readFrom (0 < s.nesting) s.cursor = .ok t := by
  unfold advance
  split
  · next h => simp [h]
  · next h => simp [h]

/-! ## Walks -/

/-- The parser gets from one state to another over the given tokens. -/
inductive Walk : State → List Token → State → Prop
  | stop (s : State) : Walk s [] s
  | step {s t u : State} {ts : List Token} : s.shift = .ok t → Walk t ts u →
    Walk s (s.current.token :: ts) u

namespace Walk

variable {s t u : State} {ts us : List Token}

theorem single (h : s.shift = .ok t) : Walk s [s.current.token] t := .step h (.stop t)

theorem append (h : Walk s ts t) (h' : Walk t us u) : Walk s (ts ++ us) u := by
  induction h with
  | stop => exact h'
  | step hshift _ ih => exact .step hshift (ih h')

@[simp] theorem nil_iff : Walk s [] t ↔ s = t := by
  constructor
  · rintro ⟨⟩
    rfl
  · rintro rfl
    exact .stop s

theorem single_iff {tok : Token} : Walk s [tok] t ↔ s.current.token = tok ∧ s.shift = .ok t := by
  constructor
  · rintro (_ | ⟨hshift, hstop⟩)
    obtain rfl := nil_iff.1 hstop
    exact ⟨rfl, hshift⟩
  · rintro ⟨rfl, hshift⟩
    exact single hshift

theorem cons_iff {tok : Token} : Walk s (tok :: ts) u ↔ ∃ t, Walk s [tok] t ∧ Walk t ts u := by
  constructor
  · rintro (_ | ⟨hshift, hwalk⟩)
    exact ⟨_, single hshift, hwalk⟩
  · rintro ⟨t, hstep, hwalk⟩
    exact hstep.append hwalk

theorem append_iff : Walk s (ts ++ us) u ↔ ∃ t, Walk s ts t ∧ Walk t us u := by
  constructor
  · intro h
    induction ts generalizing s with
    | nil => exact ⟨s, .stop s, h⟩
    | cons tok ts ih =>
      obtain ⟨t, hstep, hwalk⟩ := cons_iff.1 h
      obtain ⟨v, hleft, hright⟩ := ih hwalk
      exact ⟨v, cons_iff.2 ⟨t, hstep, hleft⟩, hright⟩
  · rintro ⟨t, hleft, hright⟩
    exact hleft.append hright

/-- A walk starts at its first token. -/
theorem current_eq {tok : Token} (h : Walk s (tok :: ts) u) : s.current.token = tok := by
  obtain ⟨t, hstep, -⟩ := cons_iff.1 h
  exact (single_iff.1 hstep).1

/-- The open blocks and levels stay as they are on a walk. -/
theorem fields (h : Walk s ts t) : t.blockDepth = s.blockDepth ∧ t.depth = s.depth := by
  induction h with
  | stop => exact ⟨rfl, rfl⟩
  | step hshift _ ih =>
    obtain ⟨-, hblock, hdepth⟩ := readFrom_fields hshift
    exact ⟨ih.1.trans hblock, ih.2.trans hdepth⟩

/-- The open groups follow the brackets. -/
theorem nesting_eq (h : Walk s ts t) :
    t.nesting = Token.nestingAfterAll ts s.nesting := by
  induction h with
  | stop => rfl
  | step hshift _ ih => rw [ih, (readFrom_fields hshift).1, Token.nestingAfterAll_cons]

/-- The level at which a walk takes place does not matter. -/
theorem withDepth (h : Walk s ts t) (n : Nat) :
    Walk { s with depth := n } ts { t with depth := n } := by
  induction h with
  | stop => exact .stop _
  | @step s t u ts hshift _ ih =>
    obtain ⟨tok, d, hnext, rfl⟩ := readFrom_eq_ok_iff.1 hshift
    have hshift' : State.shift { s with depth := n }
        = .ok { s with
          depth := n, nesting := s.current.token.nestingAfter s.nesting, current := tok,
          origin := s.cursor.toToken (0 < s.current.token.nestingAfter s.nesting), cursor := d } :=
      readFrom_eq_ok_iff.2 ⟨tok, d, hnext, rfl⟩
    exact .step hshift' ih

end Walk

/-! ## Steps -/

/-- A step over a token that is no bracket. -/
theorem advance_eq_ok_iff {s t : State} {tok : Token} (h : s.current.token = tok)
    (hopen : tok.opens = false) (hclose : tok.closes = false) :
    advance s = .ok () t ↔ Walk s [tok] t := by
  have hn : s.current.token.nestingAfter s.nesting = s.nesting := by
    simp [Token.nestingAfter, h, hopen, hclose]
  rw [advance_eq_ok_iff_readFrom, Walk.single_iff, and_iff_right h, State.shift, hn]

/-- A step over an opening bracket. -/
theorem openGroup_eq_ok_iff {s t : State} {tok : Token} (h : s.current.token = tok)
    (hopen : tok.opens = true) : openGroup s = .ok () t ↔ Walk s [tok] t := by
  have hn : s.current.token.nestingAfter s.nesting = s.nesting + 1 := by
    simp [Token.nestingAfter, h, hopen]
  change advance { s with nesting := s.nesting + 1 } = .ok () t ↔ _
  rw [advance_eq_ok_iff_readFrom, Walk.single_iff, and_iff_right h, State.shift, hn]

/-- A step over a closing bracket. -/
theorem closeGroup_eq_ok_iff {s t : State} {sign : Symbol}
    (hclose : (Token.symbol sign).closes = true) (hopen : (Token.symbol sign).opens = false) :
    closeGroup sign s = .ok () t ↔ Walk s [.symbol sign] t := by
  unfold closeGroup
  rw [Walk.single_iff]
  by_cases h : s.current.token = .symbol sign
  · have hn : s.current.token.nestingAfter s.nesting = s.nesting - 1 := by
      simp [Token.nestingAfter, h, hopen, hclose]
    rw [check_ite_pos h, and_iff_right h]
    change advance { s with nesting := s.nesting - 1 } = .ok () t ↔ _
    rw [advance_eq_ok_iff_readFrom, State.shift, hn]
  · rw [check_ite_neg h]
    exact ⟨fun hok => absurd hok unexpected_ne_ok, fun hok => absurd hok.1 h⟩

theorem advance_of_next {s : State} {tok : Located} {d : Cursor} (hn : s.nesting = 0)
    (hnext : s.cursor.next false = .ok (tok, d)) : advance s
      = .ok () { s with current := tok, origin := s.cursor.toToken false, cursor := d } := by
  have houtside : decide (0 < s.nesting) = false := by simp [hn]
  rw [advance_eq_ok_iff_readFrom, houtside]
  exact readFrom_eq_ok_iff.2 ⟨tok, d, hnext, rfl⟩

theorem expect_of_current {s : State} {sign : Symbol} (h : s.current.token = .symbol sign) :
    expect sign s = advance s := check_ite_pos h

/-! ## Walks to the end of a text -/

theorem isNewline_of_isEnd {t : Token} (h : t.isEnd = true) : t.isNewline = false := by
  rw [Token.eq_endOfInput h]
  rfl

/-- A token is read whether lines are crossed or not, unless it ends a line inside a group. -/
theorem next_of_not_grouped {c d : Cursor} {tok : Located} {n : Nat}
    (h : c.next false = .ok (tok, d)) (hn : (tok.token.isNewline && decide (0 < n)) = false) :
    c.next (0 < n) = .ok (tok, d) := by
  by_cases hpos : 0 < n
  · have htok : tok.token.isNewline = false := by simpa [hpos] using hn
    simpa [hpos] using Cursor.next_across_of_not_newline h htok
  · simpa [hpos] using h

/-- Reading across lines may as well start behind the end of a line. -/
theorem readFrom_of_newline {s : State} {c d : Cursor} {tok : Located}
    (h : c.next false = .ok (tok, d)) (ht : tok.token.isNewline = true) :
    s.readFrom true c = s.readFrom true d := by
  rw [State.readFrom, State.readFrom, Cursor.next_across_of_newline h ht,
    Cursor.toToken_across_of_newline h ht]

/-- A parser can walk over all tokens of a text. -/
theorem walk_of_lexes {c : Cursor} {ts : List Token} (h : c.Lexes ts) : ∀ s : State,
    ∃ t u, s.readFrom (0 < s.nesting) c = .ok t ∧ Walk t (Token.dropGrouped s.nesting ts) u
      ∧ u.current.token.isEnd = true := by
  induction h with
  | @done c d tok hnext hend =>
    intro s
    have hread := next_of_not_grouped (n := s.nesting) hnext (by rw [isNewline_of_isEnd hend]; rfl)
    exact ⟨_, _, readFrom_eq_ok_iff.2 ⟨tok, d, hread, rfl⟩, .stop _, hend⟩
  | @more c d tok ts hnext hend _ ih =>
    intro s
    rw [Token.dropGrouped]
    cases hgroup : tok.token.isNewline && decide (0 < s.nesting) with
    | true =>
      obtain ⟨hnewline, hpos⟩ : tok.token.isNewline = true ∧ 0 < s.nesting := by simpa using hgroup
      obtain ⟨t, u, hread, hwalk, hu⟩ := ih s
      refine ⟨t, u, ?_, hwalk, hu⟩
      rw [decide_eq_true hpos] at hread ⊢
      rwa [readFrom_of_newline hnext hnewline]
    | false =>
      have hread := (readFrom_eq_ok_iff (s := s)).2 ⟨tok, d, next_of_not_grouped hnext hgroup, rfl⟩
      obtain ⟨t, u, hshift, hwalk, hu⟩ := ih { s with
        current := tok, origin := c.toToken (0 < s.nesting), cursor := d,
        nesting := tok.token.nestingAfter s.nesting }
      exact ⟨_, u, hread, .step hshift hwalk, hu⟩

/-- The tokens ahead, where `n` groups are open and the token `tok` is read up to the cursor `d`. -/
def Ahead (n : Nat) (tok : Located) (d : Cursor) (ts : List Token) : Prop :=
  (tok.token.isEnd = true ∧ ts = []) ∨ (tok.token.isEnd = false
    ∧ ∃ rest, d.Lexes rest ∧ ts = tok.token :: Token.dropGrouped (tok.token.nestingAfter n) rest)

theorem Ahead.lexes {n : Nat} {c d : Cursor} {tok : Located} {ts : List Token}
    (h : Ahead n tok d ts) (hnext : c.next false = .ok (tok, d))
    (hn : (tok.token.isNewline && decide (0 < n)) = false) :
    ∃ all, c.Lexes all ∧ ts = Token.dropGrouped n all := by
  obtain ⟨hend, rfl⟩ | ⟨hend, rest, hlex, rfl⟩ := h
  · exact ⟨[], .done hnext hend, rfl⟩
  · exact ⟨_, .more hnext hend hlex, by simp [Token.dropGrouped, hn]⟩

/-- …and the same if ends of lines were passed over to get to the token. -/
theorem Ahead.lexes_across {n : Nat} (hn : 0 < n) {d : Cursor} {tok : Located} {ts : List Token}
    (h : Ahead n tok d ts) (size : Nat) : ∀ c : Cursor, c.rest.length < size →
      c.next true = .ok (tok, d) → ∃ all, c.Lexes all ∧ ts = Token.dropGrouped n all := by
  induction size with
  | zero => exact fun c hc => absurd hc (Nat.not_lt_zero _)
  | succ size ih =>
    intro c hc hnext
    obtain ⟨hnext, hnewline⟩ | ⟨nl, d', hnext', hnewline, hrest⟩ := Cursor.next_across_cases hnext
    · exact h.lexes hnext (by rw [hnewline]; rfl)
    · have hend : nl.token.isEnd = false := by
        cases hend : nl.token.isEnd with
        | false => rfl
        | true =>
          rw [isNewline_of_isEnd hend] at hnewline
          exact absurd hnewline (by decide)
      have hlen := Cursor.length_next hnext' hend
      obtain ⟨all, hlex, rfl⟩ := ih d' (by omega) hrest
      exact ⟨_, .more hnext' hend hlex, by simp [Token.dropGrouped, hnewline, hn]⟩

theorem Ahead.lexes_of_read {s t : State} {c : Cursor} {ts : List Token}
    (hread : s.readFrom (0 < s.nesting) c = .ok t) (h : Ahead s.nesting t.current t.cursor ts) :
    ∃ all, c.Lexes all ∧ ts = Token.dropGrouped s.nesting all := by
  obtain ⟨tok, d, hnext, rfl⟩ := readFrom_eq_ok_iff.1 hread
  by_cases hpos : 0 < s.nesting
  · rw [decide_eq_true hpos] at hnext
    exact h.lexes_across hpos _ c (Nat.lt_succ_self _) hnext
  · rw [decide_eq_false hpos] at hnext
    exact h.lexes hnext (by simp [hpos])

/-- A text over which a parser can walk to the end consists of tokens. -/
theorem ahead_of_walk {t u : State} {ts : List Token} (hwalk : Walk t ts u)
    (hu : u.current.token.isEnd = true) (hts : ∀ tok ∈ ts, tok.isEnd = false) :
    Ahead t.nesting t.current t.cursor ts := by
  induction hwalk with
  | stop => exact .inl ⟨hu, rfl⟩
  | @step s t u ts hshift _ ih =>
    have ih := ih hu fun tok htok => hts tok (List.mem_cons_of_mem _ htok)
    rw [(readFrom_fields hshift).1] at ih
    obtain ⟨rest, hlex, heq⟩ := Ahead.lexes_of_read
      (s := { s with nesting := s.current.token.nestingAfter s.nesting }) hshift ih
    exact .inr ⟨hts _ List.mem_cons_self, rest, hlex, by rw [heq]⟩

/-- **Walking to the end of a text is reading all its tokens**: a parser that starts at a cursor
with no group open gets to the end exactly over the tokens there, less the ends of lines in
groups. -/
theorem walk_to_end_iff {s : State} {c : Cursor} {ts : List Token} (hs : s.nesting = 0) :
    (∃ t u, s.readFrom false c = .ok t ∧ Walk t ts u ∧ u.current.token.isEnd = true
        ∧ ∀ tok ∈ ts, tok.isEnd = false)
      ↔ ∃ all, c.Lexes all ∧ ts = Token.dropGrouped 0 all := by
  constructor
  · rintro ⟨t, u, hread, hwalk, hu, hts⟩
    have hahead := ahead_of_walk hwalk hu hts
    rw [(readFrom_fields hread).1] at hahead
    rw [← hs]
    exact hahead.lexes_of_read (by simpa [hs] using hread)
  · rintro ⟨all, hlex, rfl⟩
    obtain ⟨t, u, hread, hwalk, hu⟩ := walk_of_lexes hlex s
    rw [hs] at hread hwalk
    exact ⟨t, u, hread, hwalk, hu,
      fun tok htok => hlex.isEnd_eq_false (Token.mem_of_mem_dropGrouped htok)⟩

end Parser

end CommandScript
