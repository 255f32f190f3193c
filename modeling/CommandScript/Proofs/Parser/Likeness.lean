import CommandScript.Proofs.Parser.Action
import CommandScript.Proofs.Parser.Unbounded
import CommandScript.Proofs.Shell.Words

/-!
# Proofs/Parser/Likeness — the bounded and the unbounded parser side by side

A parser only sees the tokens ahead of it, so it takes the same way through two texts that are alike
from where it stands. What is alike may be chosen (`Likeness`): places of one text are alike if they
are the same, places of two texts if the same characters follow. `Follows L k r r'` compares how a
parser with bounds and one without end, from states that are alike: with the same value, or both
with an error, in states that are alike again; and if there is a value, then fewer than `k`
characters are left. That a parser moves on is the case where `k` is what was left before.
-/

namespace CommandScript

theorem Cursor.length_skip_le (n : Nat) (c : Cursor) : (c.skip n).rest.length ≤ c.rest.length := by
  rw [rest_skip, List.length_drop]
  exact Nat.sub_le _ _

namespace Parser

/-! ## States at a token -/

/-- The current token is the one at its place. -/
structure State.Stands (s : State) : Prop where
  next : s.origin.next false = .ok (s.current, s.cursor)
  origin : s.origin.toToken false = s.origin

/-- How many characters are left, from the current token on. -/
def State.left (s : State) : Nat := s.origin.rest.length

theorem readFrom_eq_error_iff {s : State} {acrossLines : Bool} {c : Cursor} {e : Error} :
    s.readFrom acrossLines c = .error e ↔ c.next acrossLines = .error e := by
  unfold State.readFrom
  split
  · next h => simp [h]
  · next h => simp [h]

theorem stands_of_readFrom {s t : State} {acrossLines : Bool} {c : Cursor}
    (h : s.readFrom acrossLines c = .ok t) : t.Stands ∧ t.left ≤ c.rest.length := by
  obtain ⟨tok, d, hnext, rfl⟩ := readFrom_eq_ok_iff.1 h
  exact ⟨⟨(Cursor.next_toToken _ _).trans hnext, Cursor.toToken_toToken _ _⟩,
    Cursor.length_skip_le _ _⟩

/-- The text goes on behind a token. -/
theorem State.Stands.cursor_lt {s : State} (h : s.Stands) (hend : s.current.token.isEnd = false) :
    s.cursor.rest.length < s.left := Cursor.length_next h.next hend

theorem State.Stands.cursor_le {s : State} (h : s.Stands) : s.cursor.rest.length ≤ s.left := by
  obtain ⟨n, -, hcursor, -⟩ := Cursor.next_eq_ok_iff.1 h.next
  rw [hcursor, h.origin]
  exact Cursor.length_skip_le _ _

/-! ## Places that are alike -/

/-- What it means for places, and errors at them, to be alike: the same text follows, also after a
step. -/
structure Likeness where
  cursor : Cursor → Cursor → Prop
  span : Span → Span → Prop
  error : Error → Error → Prop
  rest {c d : Cursor} : cursor c d → d.rest = c.rest
  skip {c d : Cursor} (n : Nat) : cursor c d → cursor (c.skip n) (d.skip n)
  spanTo {c c' d d' : Cursor} : cursor c c' → cursor d d' → span (c.spanTo d) (c'.spanTo d')
  unset : span Span.unset Span.unset
  lex {s s' : Span} (fault : ScanFault) : span s s' → error (.lex fault s) (.lex fault s')
  parse {s s' : Span} (fault : ParseFault) : span s s' → error (.parse fault s) (.parse fault s')

namespace Likeness

/-- Places of one text are alike if they are the same. -/
def same (source : List Char) : Likeness where
  cursor c d := d = c ∧ c.In source
  span s s' := s' = s
  error e e' := e' = e
  rest h := congrArg _ h.1
  skip n h := ⟨congrArg _ h.1, h.2.skip n⟩
  spanTo h h' := by rw [h.1, h'.1]
  unset := rfl
  lex fault h := by rw [h]
  parse fault h := by rw [h]

/-- Places of two texts are alike if the same characters follow. -/
def ahead : Likeness where
  cursor c d := d.rest = c.rest
  span _ _ := True
  error _ _ := True
  rest h := h
  skip n h := by rw [Cursor.rest_skip, Cursor.rest_skip, h]
  spanTo _ _ := trivial
  unset := trivial
  lex _ _ := trivial
  parse _ _ := trivial

variable (L : Likeness)

/-- States at the same token, at places that are alike. -/
structure Alike (s s' : State) : Prop where
  token : s'.current.token = s.current.token
  span : L.span s.current.span s'.current.span
  origin : L.cursor s.origin s'.origin
  cursor : L.cursor s.cursor s'.cursor
  nesting : s'.nesting = s.nesting
  blockDepth : s'.blockDepth = s.blockDepth
  depth : s'.depth = s.depth

variable {L} {c c' : Cursor} {s s' t t' : State}

theorem toToken (h : L.cursor c c') (acrossLines : Bool) :
    L.cursor (c.toToken acrossLines) (c'.toToken acrossLines) := by
  rw [Cursor.toToken, Cursor.toToken, L.rest h]
  exact L.skip _ h

/-- Reading on from places that are alike leads to states that are, or to errors that are. -/
theorem readFrom (h : L.Alike s s') (hc : L.cursor c c') (acrossLines : Bool) :
    (∃ t t', s.readFrom acrossLines c = .ok t ∧ s'.readFrom acrossLines c' = .ok t' ∧ L.Alike t t')
      ∨ ∃ e e', s.readFrom acrossLines c = .error e ∧ s'.readFrom acrossLines c' = .error e'
        ∧ L.error e e' := by
  have hplace := toToken hc acrossLines
  have hrest := L.rest hplace
  cases hscan : Token.scan (c.toToken acrossLines).rest with
  | ok r =>
    obtain ⟨tok, n⟩ := r
    have hbehind := L.skip n hplace
    refine .inl ⟨_, _, readFrom_eq_ok_iff.2 ⟨⟨tok, _⟩, _, Cursor.next_eq_ok_iff.2
        ⟨n, hscan, rfl, rfl⟩, rfl⟩,
      readFrom_eq_ok_iff.2 ⟨⟨tok, _⟩, _, Cursor.next_eq_ok_iff.2
        ⟨n, by rw [hrest, hscan], rfl, rfl⟩, rfl⟩, ?_⟩
    exact ⟨rfl, L.spanTo hplace hbehind, hplace, hbehind, h.nesting, h.blockDepth, h.depth⟩
  | error fault =>
    refine .inr ⟨.lex fault (c.toToken acrossLines).here, .lex fault (c'.toToken acrossLines).here,
      ?_, ?_, L.lex fault (L.spanTo hplace hplace)⟩
    · simp only [State.readFrom, Cursor.next, hscan]
    · simp only [State.readFrom, Cursor.next, hrest, hscan]

namespace Alike

theorem nested (h : L.Alike s s') (f : Nat → Nat) :
    L.Alike { s with depth := f s.depth } { s' with depth := f s'.depth } :=
  ⟨h.token, h.span, h.origin, h.cursor, h.nesting, h.blockDepth, congrArg f h.depth⟩

theorem group (h : L.Alike s s') {n n' : Nat} (hn : n' = n) :
    L.Alike { s with nesting := n } { s' with nesting := n' } :=
  ⟨h.token, h.span, h.origin, h.cursor, hn, h.blockDepth, h.depth⟩

theorem block (h : L.Alike s s') (f : Nat → Nat) :
    L.Alike { s with blockDepth := f s.blockDepth } { s' with blockDepth := f s'.blockDepth } :=
  ⟨h.token, h.span, h.origin, h.cursor, h.nesting, congrArg f h.blockDepth, h.depth⟩

theorem unread (h : L.Alike s s') :
    L.Alike { s with current := front [] } { s' with current := front [] } :=
  ⟨rfl, L.unset, h.origin, h.cursor, h.nesting, h.blockDepth, h.depth⟩

theorem atEnd (h : L.Alike s s') : s'.atEnd = s.atEnd := by
  rw [State.atEnd, h.token, h.blockDepth, State.atEnd]

theorem completes (h : L.Alike s s') (e : Expr) : s'.completes e = s.completes e := by
  cases e <;> simp only [State.completes, h.atEnd, h.token]

end Alike

end Likeness

/-! ## How parsers end -/

theorem modify_bind {β : Type} (change : State → State) (f : PUnit → Parser β) (s : State) :
    ((modify change : Parser PUnit) >>= f) s = f ⟨⟩ (change s) := rfl

theorem atStatementEnd_bind {β : Type} (f : Bool → Parser β) (s : State) :
    (atStatementEnd >>= f) s = f s.atEnd s := rfl

theorem bind_eq_of_error {α β : Type} {p : Parser α} {s t : State} {e : Error}
    (h : p s = .error e t) (f : α → Parser β) : (p >>= f) s = .error e t := by
  change EStateM.bind p f s = .error e t
  unfold EStateM.bind
  rw [h]

theorem bind_eq_of_eq {α β : Type} {p q : Parser α} {s t : State} (h : p s = q t) (f : α → Parser β) :
    (p >>= f) s = (q >>= f) t := by
  change EStateM.bind p f s = EStateM.bind q f t
  unfold EStateM.bind
  rw [h]

namespace Unbounded

variable {α β : Type} {s t : State} {a : α} {e : Error}

theorem bind_of_ok {p : Unbounded α} (h : p s = some (.ok a, t)) (f : α → Unbounded β) :
    (p >>= f) s = f a t := by
  change (p s >>= fun r => ExceptT.bindCont f r.1 r.2) = _
  rw [h]
  rfl

theorem bind_of_error {p : Unbounded α} (h : p s = some (.error e, t)) (f : α → Unbounded β) :
    (p >>= f) s = some (.error e, t) := by
  change (p s >>= fun r => ExceptT.bindCont f r.1 r.2) = _
  rw [h]
  rfl

theorem outcome_bind (p : Parser α) (f : α → Parser β) (s : State) :
    outcome ((p >>= f) s) = (ofParser p >>= fun a => ofParser (f a)) s := by
  cases h : p s with
  | ok a t =>
    have hp : ofParser p s = some (.ok a, t) := by rw [ofParser, h, outcome]
    rw [bind_eq_of_ok h, bind_of_ok hp, ofParser]
  | error e t =>
    have hp : ofParser p s = some (.error e, t) := by rw [ofParser, h, outcome]
    rw [bind_eq_of_error h, bind_of_error hp, outcome]

theorem get_bind (f : State → Unbounded β) : ((get : Unbounded State) >>= f) s = f s s := rfl

theorem modify_bind (change : State → State) (f : PUnit → Unbounded β) :
    ((modify change : Unbounded PUnit) >>= f) s = f ⟨⟩ (change s) := rfl

theorem atStatementEnd_bind (f : Bool → Unbounded β) :
    ((liftM atStatementEnd : Unbounded Bool) >>= f) s = f s.atEnd s := rfl

@[simp] theorem current_bind (f : Token → Unbounded β) :
    ((liftM current : Unbounded Token) >>= f) s = f s.current.token s := rfl

@[simp] theorem check_bind (sign : Symbol) (f : Bool → Unbounded β) :
    ((liftM (check sign) : Unbounded Bool) >>= f) s = f (s.current.token.isSymbol sign) s := rfl

end Unbounded

open Unbounded (outcome)

/-- The parser without bounds ends as the one with bounds, in a state that is alike; behind a value
fewer than `k` characters are left. -/
inductive Follows (L : Likeness) (k : Nat) {α : Type} :
    EStateM.Result Error State α → Option (Except Error α × State) → Prop
  | ok {a : α} {t t' : State} : L.Alike t t' → t.Stands → t.left < k →
    Follows L k (.ok a t) (some (.ok a, t'))
  | error {e e' : Error} {t t' : State} : L.error e e' → L.Alike t t' →
    Follows L k (.error e t) (some (.error e', t'))

section Follows

variable {L : Likeness} {α β : Type} {j k : Nat} {s s' : State}

theorem Follows.mono {r : EStateM.Result Error State α} {r' : Option (Except Error α × State)}
    (h : Follows L j r r') (hle : j ≤ k) : Follows L k r r' := by
  cases h with
  | ok halike hstands hleft => exact .ok halike hstands (Nat.lt_of_lt_of_le hleft hle)
  | error herror halike => exact .error herror halike

theorem Follows.bind {p : Parser α} {q : Unbounded α} {f : α → Parser β} {g : α → Unbounded β}
    (h : Follows L j (p s) (q s'))
    (hf : ∀ a t t', L.Alike t t' → t.Stands → t.left < j → Follows L k (f a t) (g a t')) :
    Follows L k ((p >>= f) s) ((q >>= g) s') := by
  cases hp : p s with
  | ok a t =>
    rw [hp] at h
    generalize hq : q s' = r at h
    cases h with
    | ok halike hstands hleft =>
      rw [bind_eq_of_ok hp, Unbounded.bind_of_ok hq]
      exact hf _ _ _ halike hstands hleft
  | error e t =>
    rw [hp] at h
    generalize hq : q s' = r at h
    cases h with
    | error herror halike =>
      rw [bind_eq_of_error hp, Unbounded.bind_of_error hq]
      exact .error herror halike

/-- …and for parsers without loops on both sides. -/
theorem Follows.bind_outcome {p : Parser α} {f : α → Parser β}
    (h : Follows L j (p s) (outcome (p s')))
    (hf : ∀ a t t', L.Alike t t' → t.Stands → t.left < j →
      Follows L k (f a t) (outcome (f a t'))) :
    Follows L k ((p >>= f) s) (outcome ((p >>= f) s')) := by
  rw [Unbounded.outcome_bind]
  exact h.bind hf

theorem follows_pure (halike : L.Alike s s') (hs : s.Stands) (hk : s.left < k) (a : α) :
    Follows L k ((pure a : Parser α) s) ((pure a : Unbounded α) s') := .ok halike hs hk

theorem follows_unexpected (halike : L.Alike s s') (wanted : String) :
    Follows L k ((unexpected wanted : Parser α) s)
      (outcome ((unexpected wanted : Parser α) s')) := by
  refine Follows.error ?_ halike
  rw [halike.token]
  exact L.parse _ halike.span

theorem follows_tooDeep (halike : L.Alike s s') :
    Follows L k ((tooDeep : Parser α) s) (outcome ((tooDeep : Parser α) s')) :=
  .error (L.parse _ halike.span) halike

/-! ## Parsers without loops -/

theorem follows_readOn (halike : L.Alike s s') :
    Follows L (s.cursor.rest.length + 1) (advance s) (outcome (advance s')) := by
  unfold advance
  rw [halike.nesting]
  obtain ⟨t, t', ht, ht', halike'⟩ | ⟨e, e', he, he', herror⟩ :=
    Likeness.readFrom halike halike.cursor (0 < s.nesting)
  · obtain ⟨hstands, hle⟩ := stands_of_readFrom ht
    rw [ht, ht']
    exact .ok halike' hstands (Nat.lt_succ_of_le hle)
  · rw [he, he']
    exact .error herror halike

/-- Behind a token that is not the end, less is left. -/
theorem follows_advance (halike : L.Alike s s') (hs : s.Stands)
    (hend : s.current.token.isEnd = false) :
    Follows L s.left (advance s) (outcome (advance s')) :=
  (follows_readOn halike).mono (hs.cursor_lt hend)

theorem follows_openGroup (halike : L.Alike s s') (hs : s.Stands)
    (hend : s.current.token.isEnd = false) :
    Follows L s.left (openGroup s) (outcome (openGroup s')) :=
  @follows_advance L { s with nesting := s.nesting + 1 } { s' with nesting := s'.nesting + 1 }
    (halike.group (congrArg (· + 1) halike.nesting)) ⟨hs.next, hs.origin⟩ hend

theorem isEnd_of_isSymbol {tok : Token} {sign : Symbol} (h : tok.isSymbol sign = true) :
    tok.isEnd = false := by
  rw [Token.isSymbol_iff.1 h]
  rfl

theorem isEnd_of_isKeyword {tok : Token} {word : Keyword} (h : tok.isKeyword word = true) :
    tok.isEnd = false := by
  rw [Token.isKeyword_iff.1 h]
  rfl

theorem follows_expect (halike : L.Alike s s') (hs : s.Stands) (sign : Symbol) :
    Follows L s.left (expect sign s) (outcome (expect sign s')) := by
  unfold expect
  rw [check_bind, check_bind, halike.token]
  cases hsign : s.current.token.isSymbol sign with
  | true => exact follows_advance halike hs (isEnd_of_isSymbol hsign)
  | false => exact follows_unexpected halike _

theorem follows_expectKeyword (halike : L.Alike s s') (hs : s.Stands) (word : Keyword) :
    Follows L s.left (expectKeyword word s) (outcome (expectKeyword word s')) := by
  unfold expectKeyword
  rw [current_bind, current_bind, halike.token]
  cases hword : s.current.token.isKeyword word with
  | true => exact follows_advance halike hs (isEnd_of_isKeyword hword)
  | false => exact follows_unexpected halike _

theorem follows_closeGroup (halike : L.Alike s s') (hs : s.Stands) (sign : Symbol) :
    Follows L s.left (closeGroup sign s) (outcome (closeGroup sign s')) := by
  unfold closeGroup
  rw [check_bind, check_bind, halike.token]
  cases hsign : s.current.token.isSymbol sign with
  | true =>
    exact @follows_advance L { s with nesting := s.nesting - 1 }
      { s' with nesting := s'.nesting - 1 } (halike.group (congrArg (· - 1) halike.nesting))
      ⟨hs.next, hs.origin⟩ (isEnd_of_isSymbol hsign)
  | false => exact follows_unexpected halike _

/-- Move past a token and give a value. -/
theorem follows_finish (halike : L.Alike s s') (hs : s.Stands)
    (hend : s.current.token.isEnd = false) (a : α) :
    Follows L s.left ((do advance; return a : Parser α) s)
      (outcome ((do advance; return a : Parser α) s')) :=
  (follows_advance halike hs hend).bind_outcome fun _ _ _ halike hstands hleft =>
    .ok halike hstands hleft

theorem follows_expectName (halike : L.Alike s s') (hs : s.Stands) (wanted : String) :
    Follows L s.left (expectName wanted s) (outcome (expectName wanted s')) := by
  unfold expectName
  rw [current_bind, current_bind, halike.token]
  cases htok : s.current.token with
  | identifier name => exact follows_finish halike hs (by rw [htok]; rfl) name
  | _ => exact follows_unexpected halike _

theorem expectStatementEnd_eq (s : State) : expectStatementEnd s =
    if s.atEnd then if s.current.token.isSeparator then advance s else .ok () s
    else unexpected "end of statement" s := by
  have hatEnd : atStatementEnd s = .ok s.atEnd s := rfl
  unfold expectStatementEnd
  rw [bind_eq_of_ok hatEnd]
  cases s.atEnd with
  | true =>
    change (atSeparator >>= fun b => if b = true then advance else pure ()) s = _
    rw [if_pos rfl, atSeparator_bind]
    split <;> rfl
  | false => rfl

theorem follows_expectStatementEnd (halike : L.Alike s s') (hs : s.Stands) :
    Follows L (s.left + 1) (expectStatementEnd s) (outcome (expectStatementEnd s')) := by
  rw [expectStatementEnd_eq, expectStatementEnd_eq, halike.atEnd, halike.token]
  cases s.atEnd with
  | false => exact follows_unexpected halike _
  | true =>
    cases hsep : s.current.token.isSeparator with
    | true => exact (follows_advance halike hs (isEnd_of_isSeparator hsep)).mono (Nat.le_succ _)
    | false => exact .ok halike hs (Nat.lt_succ_self _)

/-- The token behind the current one is seen alike. -/
theorem peek?_alike (halike : L.Alike s s') :
    ∃ next, peek? s = .ok next s ∧ peek? s' = .ok next s' := by
  unfold peek?
  rw [halike.nesting]
  obtain ⟨t, t', ht, ht', halike'⟩ | ⟨e, e', he, he', -⟩ :=
    Likeness.readFrom halike halike.cursor (0 < s.nesting)
  · obtain ⟨tok, d, hnext, rfl⟩ := readFrom_eq_ok_iff.1 ht
    obtain ⟨tok', d', hnext', rfl⟩ := readFrom_eq_ok_iff.1 ht'
    rw [hnext, hnext']
    exact ⟨some tok.token, rfl, by rw [← halike'.token]⟩
  · rw [readFrom_eq_error_iff.1 he, readFrom_eq_error_iff.1 he']
    exact ⟨none, rfl, rfl⟩

theorem knownCommand?_alike (commands : CommandSet) (halike : L.Alike s s') :
    ∃ known, knownCommand? commands s = .ok known s ∧ knownCommand? commands s' = .ok known s' := by
  obtain ⟨next, hpeek, hpeek'⟩ := peek?_alike halike
  unfold knownCommand?
  rw [current_bind, current_bind, halike.token]
  cases s.current.token with
  | identifier name =>
    dsimp only
    cases commands.contains name with
    | false => exact ⟨none, rfl, rfl⟩
    | true =>
      simp only [if_true]
      rw [bind_eq_of_ok hpeek, bind_eq_of_ok hpeek']
      cases marksVariable next with
      | true => exact ⟨none, rfl, rfl⟩
      | false => exact ⟨some name, rfl, rfl⟩
  | _ => exact ⟨none, rfl, rfl⟩

/-- To look for `else` moves to it, or not at all. -/
theorem follows_skipToElse (halike : L.Alike s s') (hs : s.Stands) :
    Follows L (s.left + 1) (skipToElse s) (outcome (skipToElse s')) := by
  have hstay {b : Bool} : Follows L (s.left + 1) (.ok b s) (outcome (.ok b s')) :=
    .ok halike hs (Nat.lt_succ_self _)
  unfold skipToElse
  rw [halike.token]
  split
  · exact hstay
  split
  · obtain ⟨t, t', ht, ht', halike'⟩ | ⟨e, e', he, he', herror⟩ :=
      Likeness.readFrom halike halike.cursor true
    · obtain ⟨hstands, hle⟩ := stands_of_readFrom ht
      rw [ht, ht']
      dsimp only
      rw [halike'.token]
      split
      · exact .ok halike' hstands (Nat.lt_succ_of_le (hle.trans hs.cursor_le))
      · exact hstay
    · rw [he, he']
      exact .error herror halike
  · exact hstay

end Follows

end Parser

end CommandScript
