import CommandScript.Proofs.Parser.Progress
import CommandScript.Proofs.Token.NextLine

/-!
# Proofs/Parser/Extension — a parser in a text that is longer by a line

A parser stands at the same token of two texts, of which the second goes on with a further line
where the first ends (`Extends`). Up to that end it sees the same tokens; at the end it sees the end
of the text in one and the end of a line in the other. `Carried` compares two such runs: what the
first one reads the second one reads too, and they come to places that correspond again.

Here this is shown for expressions and what is made of them on a line. An expression leaves no group
open, and if it is read then the end of the text was not met within a group; so it does not matter
that an open group would go on in the new line (`carries_expression`). An action is carried if it is
no command (`carries_action`). A line may be a command only because an expression on it does not
come to its end, and this the new line can change.
-/

namespace CommandScript

namespace Parser

open Readable

/-- The groups, blocks and levels that are open. -/
def State.opened (s : State) : Nat × Nat × Nat := (s.nesting, s.blockDepth, s.depth)

theorem origin_of_readFrom {s t : State} {acrossLines : Bool} {c : Cursor}
    (h : s.readFrom acrossLines c = .ok t) : t.origin = c.toToken acrossLines := by
  obtain ⟨tok, d, -, rfl⟩ := readFrom_eq_ok_iff.1 h
  rfl

theorem opened_of_readFrom {s t : State} {acrossLines : Bool} {c : Cursor}
    (h : s.readFrom acrossLines c = .ok t) : t.opened = s.opened := by
  obtain ⟨tok, d, -, rfl⟩ := readFrom_eq_ok_iff.1 h
  rfl

theorem State.Stands.scan {s : State} (h : s.Stands) :
    ∃ n, Token.scan s.origin.rest = .ok (s.current.token, n)
      ∧ s.cursor.rest = s.origin.rest.drop n := by
  obtain ⟨n, hscan, hcursor, -⟩ := Cursor.next_eq_ok_iff.1 h.next
  rw [h.origin] at hscan hcursor
  exact ⟨n, hscan, by rw [hcursor, Cursor.rest_skip]⟩

/-- A parser is at the end exactly if no text is left. -/
theorem State.Stands.isEnd_iff {s : State} (h : s.Stands) :
    s.current.token.isEnd = true ↔ s.origin.rest = [] := by
  obtain ⟨n, hscan, -⟩ := h.scan
  cases hrest : s.origin.rest with
  | nil =>
    rw [hrest, Token.scan_nil] at hscan
    rw [← (Prod.mk.inj (Except.ok.inj hscan)).1]
    exact iff_of_true rfl rfl
  | cons c cs =>
    rw [hrest] at hscan
    rw [(Token.scan_cons hscan).2.1]
    exact iff_of_false Bool.false_ne_true (List.cons_ne_nil c cs)

/-- A token can be read wherever the text ahead starts with one. -/
theorem exists_readFrom {acrossLines : Bool} {c : Cursor} {r : Token × Nat} (s : State)
    (h : Token.scan (c.toToken acrossLines).rest = .ok r) : ∃ t, s.readFrom acrossLines c = .ok t
      ∧ t.current.token = r.1 :=
  ⟨_, readFrom_eq_ok_iff.2 ⟨⟨r.1, _⟩, _, Cursor.next_eq_ok_iff.2 ⟨r.2, h, rfl, rfl⟩, rfl⟩, rfl⟩

/-! ## Places in both texts -/

/-- States at the same place of two texts: the text of the second one goes on with a further line,
`tail`, where that of the first ends. There are less than `size` characters left in the first text,
and in both states the same is open. -/
structure Extends (tail : List Char) (size : Nat) (o : Nat × Nat × Nat) (s s' : State) : Prop where
  stands : s.Stands
  stands' : s'.Stands
  rest : s'.origin.rest = s.origin.rest ++ '\n' :: tail
  left : s.left < size
  opened : s.opened = o
  opened' : s'.opened = o

namespace Extends

variable {tail : List Char} {size n b d : Nat} {o o' : Nat × Nat × Nat} {s s' t : State}

theorem nesting (h : Extends tail size (n, b, d) s s') : s.nesting = n ∧ s'.nesting = n :=
  ⟨congrArg Prod.fst h.opened, congrArg Prod.fst h.opened'⟩

/-- At a token of the first text the other parser sees the same. -/
theorem of_token (h : Extends tail size o s s') (hend : s.current.token.isEnd = false) :
    s'.current.token = s.current.token ∧ s'.cursor.rest = s.cursor.rest ++ '\n' :: tail := by
  obtain ⟨n, hscan, hcursor⟩ := h.stands.scan
  obtain ⟨n', hscan', hcursor'⟩ := h.stands'.scan
  have hne : s.origin.rest ≠ [] := by
    rw [Ne, ← h.stands.isEnd_iff, hend]
    exact Bool.false_ne_true
  rw [h.rest, Token.scan_nextLine tail hne hscan] at hscan'
  obtain ⟨htoken, rfl⟩ := Prod.mk.inj (Except.ok.inj hscan')
  refine ⟨htoken.symm, ?_⟩
  rw [hcursor', h.rest, List.drop_append_of_le_length (Token.scan_le hscan), hcursor]

/-- At the end of the first text the other parser sees the end of a line, and the new line behind
it. -/
theorem of_end (h : Extends tail size o s s') (hend : s.current.token.isEnd = true) :
    s'.current.token = .newline ∧ s'.cursor.rest = tail := by
  obtain ⟨n', hscan', hcursor'⟩ := h.stands'.scan
  have hnil := h.stands.isEnd_iff.1 hend
  rw [h.rest, hnil, List.nil_append, Token.scan_newline] at hscan'
  obtain ⟨htoken, rfl⟩ := Prod.mk.inj (Except.ok.inj hscan')
  refine ⟨htoken.symm, ?_⟩
  rw [hcursor', h.rest, hnil]
  rfl

theorem cases_token (h : Extends tail size o s s') : s'.current.token = s.current.token
    ∨ s.current.token = .endOfInput ∧ s'.current.token = .newline := by
  cases hend : s.current.token.isEnd with
  | false => exact .inl (h.of_token hend).1
  | true => exact .inr ⟨Token.eq_endOfInput hend, (h.of_end hend).1⟩

/-- Ends of lines and texts are no symbols, … -/
theorem isSymbol (h : Extends tail size o s s') (sign : Symbol) :
    s'.current.token.isSymbol sign = s.current.token.isSymbol sign := by
  obtain htoken | ⟨hs, hs'⟩ := h.cases_token
  · rw [htoken]
  · rw [hs, hs']
    rfl

/-- … no keywords, … -/
theorem isKeyword (h : Extends tail size o s s') (word : Keyword) :
    s'.current.token.isKeyword word = s.current.token.isKeyword word := by
  obtain htoken | ⟨hs, hs'⟩ := h.cases_token
  · rw [htoken]
  · rw [hs, hs']
    rfl

/-- … no operators, … -/
theorem binds (h : Extends tail size o s s') :
    s'.current.token.binds = s.current.token.binds := by
  obtain htoken | ⟨hs, hs'⟩ := h.cases_token
  · rw [htoken]
  · rw [hs, hs']
    rfl

/-- … and both end a statement. -/
theorem atEnd (h : Extends tail size o s s') : s'.atEnd = s.atEnd := by
  have hblock : s'.blockDepth = s.blockDepth := congrArg (·.2.1) (h.opened'.trans h.opened.symm)
  unfold State.atEnd
  rw [hblock]
  obtain htoken | ⟨hs, hs'⟩ := h.cases_token
  · rw [htoken]
  · rw [hs, hs']
    rfl

theorem completes (h : Extends tail size o s s') (e : Expr) : s'.completes e = s.completes e := by
  cases e <;> simp only [State.completes, h.atEnd, h.isSymbol]

/-- Reading a token in both texts, unless that crosses lines up to the end of the first one. -/
theorem of_readFrom {u u' : State} {acrossLines : Bool} {c c' : Cursor}
    (hc : c'.rest = c.rest ++ '\n' :: tail) (hsize : c.rest.length < size) (hu : u.opened = o)
    (hu' : u'.opened = o) (hread : u.readFrom acrossLines c = .ok t)
    (hacross : acrossLines = true → t.current.token.isEnd = false) :
    ∃ t', u'.readFrom acrossLines c' = .ok t' ∧ Extends tail size o t t' := by
  obtain ⟨hstands, hleft⟩ := stands_of_readFrom hread
  obtain ⟨n, hscan, -⟩ := hstands.scan
  have horigin := origin_of_readFrom hread
  have hrest : (c'.toToken acrossLines).rest
      = (c.toToken acrossLines).rest ++ '\n' :: tail := by
    refine Cursor.rest_toToken_nextLine hc fun hlines => ?_
    rw [Ne, ← horigin, ← hstands.isEnd_iff, hacross hlines]
    exact Bool.false_ne_true
  obtain ⟨r, hscan'⟩ := Token.exists_scan_nextLine tail hscan
  rw [horigin, ← hrest] at hscan'
  obtain ⟨t', hread', -⟩ := exists_readFrom u' hscan'
  refine ⟨t', hread', hstands, (stands_of_readFrom hread').1, ?_, Nat.lt_of_le_of_lt hleft hsize,
    (opened_of_readFrom hread).trans hu, (opened_of_readFrom hread').trans hu'⟩
  rw [origin_of_readFrom hread', horigin, hrest]

theorem readFrom {u u' : State} {acrossLines : Bool} (h : Extends tail size o s s')
    (hend : s.current.token.isEnd = false) (hu : u.opened = o') (hu' : u'.opened = o')
    (hread : u.readFrom acrossLines s.cursor = .ok t)
    (hacross : acrossLines = true → t.current.token.isEnd = false) :
    ∃ t', u'.readFrom acrossLines s'.cursor = .ok t' ∧ Extends tail size o' t t' :=
  of_readFrom (h.of_token hend).2 (Nat.lt_trans (h.stands.cursor_lt hend) h.left) hu hu' hread
    hacross

theorem group (h : Extends tail size (n, b, d) s s') (f : Nat → Nat) : Extends tail size (f n, b, d)
    { s with nesting := f s.nesting } { s' with nesting := f s'.nesting } :=
  ⟨⟨h.stands.next, h.stands.origin⟩, ⟨h.stands'.next, h.stands'.origin⟩, h.rest, h.left,
    congrArg (fun o => (f o.1, o.2)) h.opened, congrArg (fun o => (f o.1, o.2)) h.opened'⟩

theorem block (h : Extends tail size (n, b, d) s s') (f : Nat → Nat) : Extends tail size (n, f b, d)
    { s with blockDepth := f s.blockDepth } { s' with blockDepth := f s'.blockDepth } :=
  ⟨⟨h.stands.next, h.stands.origin⟩, ⟨h.stands'.next, h.stands'.origin⟩, h.rest, h.left,
    congrArg (fun o => (o.1, f o.2.1, o.2.2)) h.opened,
    congrArg (fun o => (o.1, f o.2.1, o.2.2)) h.opened'⟩

theorem nested (h : Extends tail size (n, b, d) s s') (f : Nat → Nat) :
    Extends tail size (n, b, f d) { s with depth := f s.depth } { s' with depth := f s'.depth } :=
  ⟨⟨h.stands.next, h.stands.origin⟩, ⟨h.stands'.next, h.stands'.origin⟩, h.rest, h.left,
    congrArg (fun o => (o.1, o.2.1, f o.2.2)) h.opened,
    congrArg (fun o => (o.1, o.2.1, f o.2.2)) h.opened'⟩

end Extends

/-! ## Runs in both texts -/

/-- What the first run reads, as far as `P` holds of it, the second one reads too, and the two end
in states that `R` relates. -/
def Carried {α : Type} (P : α → State → Prop) (R : State → State → Prop)
    (r r' : EStateM.Result Error State α) : Prop :=
  ∀ ⦃a : α⦄ ⦃t : State⦄, r = .ok a t → P a t → ∃ t', r' = .ok a t' ∧ R t t'

/-- Whatever is read. -/
def Any {α : Type} (_ : α) (_ : State) : Prop := True

/-- No command is read. -/
def Commandless {α : Type} [Readable α] (a : α) (_ : State) : Prop := isPure a = true

/-- No operator follows. -/
def Unbound {α : Type} (_ : α) (t : State) : Prop := t.current.token.binds = 0

/-- The text goes on. -/
def Inside {α : Type} (_ : α) (t : State) : Prop := t.current.token.isEnd = false

/-- Where no group is open, what the parser reads is carried as far as `P` holds of it. -/
def Carries (tail : List Char) (size : Nat) {α : Type} (P : α → State → Prop) (p : Parser α) :
    Prop :=
  ∀ ⦃b d : Nat⦄ ⦃s s' : State⦄, Extends tail size (0, b, d) s s' →
    Carried P (Extends tail size (0, b, d)) (p s) (p s')

section Carried

variable {α β : Type} {P : α → State → Prop} {Q : β → State → Prop} {R S : State → State → Prop}
  {s s' : State}

theorem Carried.bind {p : Parser α} {f : α → Parser β} (h : Carried P R (p s) (p s'))
    (hP : ∀ {a u b t}, f a u = .ok b t → Q b t → P a u)
    (hf : ∀ a u u', p s = .ok a u → P a u → R u u' → Carried Q S (f a u) (f a u')) :
    Carried Q S ((p >>= f) s) ((p >>= f) s') := by
  intro b t hb hQ
  obtain ⟨a, u, ha, hb⟩ := bind_eq_ok_iff.1 hb
  have hPa := hP hb hQ
  obtain ⟨u', ha', hR⟩ := h ha hPa
  obtain ⟨t', hb', hS⟩ := hf a u u' ha hPa hR hb hQ
  exact ⟨t', by rw [bind_eq_of_ok ha', hb'], hS⟩

/-- First something that is carried whatever it is. -/
theorem Carried.andThen {p : Parser α} {f : α → Parser β} (h : Carried Any R (p s) (p s'))
    (hf : ∀ a u u', R u u' → Carried Q S (f a u) (f a u')) :
    Carried Q S ((p >>= f) s) ((p >>= f) s') :=
  h.bind (fun _ _ => trivial) fun a u u' _ _ hR => hf a u u' hR

theorem carried_pure (h : R s s') (a : α) :
    Carried P R ((pure a : Parser α) s) ((pure a : Parser α) s') := by
  rintro b t hb -
  obtain ⟨rfl, rfl⟩ := pure_eq_ok_iff.1 hb
  exact ⟨s', rfl, h⟩

/-- What is read is made part of something. -/
theorem Carried.map {p : Parser α} {g : α → β} (h : Carried P R (p s) (p s'))
    (hP : ∀ {a t}, Q (g a) t → P a t) :
    Carried Q R ((do let a ← p; return g a) s) ((do let a ← p; return g a) s') := by
  refine h.bind (fun hb hQ => ?_) fun a u u' _ _ hR => carried_pure hR (g a)
  obtain ⟨rfl, rfl⟩ := pure_eq_ok_iff.1 hb
  exact hP hQ

theorem Carried.mono {r r' : EStateM.Result Error State α} (h : Carried P R r r')
    (hR : ∀ {t t'}, R t t' → S t t') : Carried P S r r' := by
  intro a t ha hP
  obtain ⟨t', ha', ht⟩ := h ha hP
  exact ⟨t', ha', hR ht⟩

theorem carried_unexpected (wanted : String) {r : EStateM.Result Error State α} :
    Carried P R (unexpected wanted s) r := fun _ _ h => absurd h unexpected_ne_ok

end Carried

section Steps

variable {tail : List Char} {size n b d : Nat} {s s' : State}

/-- Within a group one comes to the next token only if there is one in the first text. -/
theorem carried_advance_group (h : Extends tail size (n, b, d) s s')
    (hend : s.current.token.isEnd = false) : Carried (fun a t => 0 < n → Inside a t)
      (Extends tail size (n, b, d)) (advance s) (advance s') := by
  intro a t ha hinside
  obtain ⟨hn, hn'⟩ := h.nesting
  rw [advance_eq_ok_iff_readFrom, hn] at ha
  obtain ⟨t', hread, ht⟩ := h.readFrom hend h.opened h.opened' ha fun hpos =>
    hinside (of_decide_eq_true hpos)
  refine ⟨t', ?_, ht⟩
  rwa [advance_eq_ok_iff_readFrom, hn']

theorem carried_advance (h : Extends tail size (0, b, d) s s')
    (hend : s.current.token.isEnd = false) :
    Carried Any (Extends tail size (0, b, d)) (advance s) (advance s') := fun _ _ ha _ =>
  carried_advance_group h hend ha fun hpos => absurd hpos (Nat.lt_irrefl 0)

theorem carried_expect (h : Extends tail size (0, b, d) s s') (sign : Symbol) :
    Carried Any (Extends tail size (0, b, d)) (expect sign s) (expect sign s') := by
  unfold expect
  rw [check_bind, check_bind, h.isSymbol]
  cases hsign : s.current.token.isSymbol sign with
  | true => exact carried_advance h (isEnd_of_isSymbol hsign)
  | false => exact carried_unexpected _

theorem carried_expectKeyword (h : Extends tail size (0, b, d) s s') (word : Keyword) :
    Carried Any (Extends tail size (0, b, d)) (expectKeyword word s) (expectKeyword word s') := by
  unfold expectKeyword
  rw [current_bind, current_bind, h.isKeyword]
  cases hword : s.current.token.isKeyword word with
  | true => exact carried_advance h (isEnd_of_isKeyword hword)
  | false => exact carried_unexpected _

theorem carried_expectName_group (h : Extends tail size (n, b, d) s s') (wanted : String) :
    Carried (fun a t => 0 < n → Inside a t) (Extends tail size (n, b, d)) (expectName wanted s)
      (expectName wanted s') := by
  unfold expectName
  rw [current_bind, current_bind]
  cases htok : s.current.token with
  | identifier name =>
    have hend : s.current.token.isEnd = false := by
      rw [htok]
      rfl
    rw [(h.of_token hend).1, htok]
    exact (carried_advance_group h hend).map fun hinside => hinside
  | _ => exact carried_unexpected _

theorem carried_expectName (h : Extends tail size (0, b, d) s s') (wanted : String) :
    Carried Any (Extends tail size (0, b, d)) (expectName wanted s) (expectName wanted s') :=
  fun _ _ ha _ => carried_expectName_group h wanted ha fun hpos => absurd hpos (Nat.lt_irrefl 0)

end Steps

/-! ## Expressions -/

/-- A walk that does not come to the end of the first text within a group is one in both texts. -/
theorem Extends.walk {tail : List Char} {size : Nat} {s t : State} {ts : List Token}
    (hwalk : Walk s ts t) : ∀ {o : Nat × Nat × Nat} {s' : State}, Extends tail size o s s' →
      (∀ tok ∈ ts, tok.isEnd = false) → (0 < t.nesting → t.current.token.isEnd = false) →
      ∃ t', Walk s' ts t' ∧ Extends tail size t.opened t t' := by
  induction hwalk with
  | stop s =>
    intro o s' h _ _
    exact ⟨s', .stop s', by rwa [h.opened]⟩
  | @step s u t ts hshift hwalk ih =>
    intro o s' h hts ht
    obtain ⟨hend, hts⟩ := List.forall_mem_cons.1 hts
    have htoken := (h.of_token hend).1
    have hnesting : s'.nesting = s.nesting := congrArg Prod.fst (h.opened'.trans h.opened.symm)
    -- a token that is walked over is not the end, and behind the last one no group is open
    have hu : 0 < u.nesting → u.current.token.isEnd = false := by
      cases hwalk with
      | stop => exact ht
      | step => exact fun _ => hts _ List.mem_cons_self
    rw [(readFrom_fields hshift).1] at hu
    have hopened : State.opened { s' with nesting := s.current.token.nestingAfter s.nesting }
        = State.opened { s with nesting := s.current.token.nestingAfter s.nesting } :=
      congrArg (s.current.token.nestingAfter s.nesting, ·)
        (congrArg Prod.snd (h.opened'.trans h.opened.symm))
    obtain ⟨u', hread, hext⟩ := h.readFrom hend rfl hopened hshift fun hpos =>
      hu (of_decide_eq_true hpos)
    have hshift' : s'.shift = .ok u' := by
      unfold State.shift
      rw [htoken, hnesting]
      exact hread
    obtain ⟨t', hwalk', hext'⟩ := ih hext hts ht
    refine ⟨t', ?_, hext'⟩
    rw [← htoken]
    exact .step hshift' hwalk'

/-- Every token of a walk takes a character. -/
theorem Walk.length_le {s t : State} {ts : List Token} (h : Walk s ts t) :
    s.Stands → (∀ tok ∈ ts, tok.isEnd = false) → ts.length ≤ s.left := by
  induction h with
  | stop => exact fun _ _ => Nat.zero_le _
  | step hshift _ ih =>
    intro hs hts
    obtain ⟨hend, hts⟩ := List.forall_mem_cons.1 hts
    obtain ⟨hstands, hleft⟩ := stands_of_readFrom hshift
    have hlength := ih hstands hts
    have hlt := hs.cursor_lt hend
    rw [List.length_cons]
    omega

section Expressions

variable {tail : List Char} {size levels b d : Nat} {commands : CommandSet} {s s' t : State}

/-- **An expression is carried** if no operator follows it. -/
theorem carries_expression (size levels : Nat) :
    Carries tail size Unbound (expression size levels) := by
  intro b d s s' h e t he hbinds
  obtain ⟨ts, hwalk, hphrase⟩ := (reads_expression size levels).sound he
  have hproper := (Grammar.proper_operand levels).expressionOf
  have hopened : t.opened = (0, b, d) := by
    have hnesting : t.nesting = s.nesting := by rw [hwalk.nesting_eq, hproper.balanced hphrase]
    obtain ⟨hblock, hdepth⟩ := hwalk.fields
    rw [← h.opened, State.opened, hnesting, hblock, hdepth, State.opened]
  have hend : ∀ tok ∈ ts, tok.isEnd = false := fun tok htok =>
    isEnd_of_isOrdinary (hproper.ordinary hphrase tok htok)
  have hnesting : t.nesting = 0 := congrArg Prod.fst hopened
  obtain ⟨t', hwalk', hext⟩ := h.walk hwalk hend fun hpos =>
    absurd hnesting (Nat.ne_of_gt hpos)
  rw [hopened] at hext
  refine ⟨t', (reads_expression size levels).complete hphrase hwalk' ?_ ?_, hext⟩
  · exact Nat.le_of_lt (Nat.lt_of_le_of_lt (hwalk.length_le h.stands hend) h.left)
  · rw [hext.binds, show t.current.token.binds = 0 from hbinds]
    exact Nat.zero_lt_one

/-- No operator follows an expression that fills its line. -/
theorem binds_of_completes {e : Expr} (h : t.completes e = true) : t.current.token.binds = 0 := by
  have hend : t.atEnd = true ∨ t.current.token.isSymbol .equals = true := by
    cases e with
    | index target place => exact Bool.or_eq_true_iff.1 h
    | _ => exact .inl h
  unfold State.atEnd at hend
  unfold Token.binds
  split <;> first | rfl | simp_all [Token.isNewline, Token.isSymbol, Token.isEnd]

/-- Behind a name that starts an expression there is a token. -/
theorem readFrom_of_expression {name : String} {e : Expr} (hn : s.nesting = 0)
    (hname : s.current.token = .identifier name) (h : expression size levels s = .ok e t) :
    ∃ u, s.readFrom false s.cursor = .ok u := by
  obtain ⟨ts, hwalk, hphrase⟩ := (reads_expression size levels).sound h
  obtain ⟨tok, us, rfl, -⟩ := (Grammar.proper_operand levels).expressionOf.starts hphrase
  obtain ⟨u, hstep, -⟩ := Walk.cons_iff.1 hwalk
  obtain ⟨rfl, hshift⟩ := Walk.single_iff.1 hstep
  have hadvance := (advance_eq_ok_iff hname rfl rfl).2 (Walk.single_iff.2 ⟨hname, hshift⟩)
  rw [advance_eq_ok_iff_readFrom, hn, decide_eq_false (Nat.lt_irrefl 0)] at hadvance
  exact ⟨u, hadvance⟩

/-- The token behind the current one is the same or ends the line, if there is one. -/
theorem Extends.peek? {u : State} (h : Extends tail size (0, b, d) s s')
    (hend : s.current.token.isEnd = false) (hread : s.readFrom false s.cursor = .ok u) :
    ∃ u', Extends tail size (0, b, d) u u' ∧ s.cursor.peek? = some u.current.token
      ∧ s'.cursor.peek? = some u'.current.token := by
  obtain ⟨u', hread', hext⟩ :=
    h.readFrom hend h.opened h.opened' hread (absurd · Bool.false_ne_true)
  obtain ⟨tok, d, hnext, rfl⟩ := readFrom_eq_ok_iff.1 hread
  obtain ⟨tok', d', hnext', rfl⟩ := readFrom_eq_ok_iff.1 hread'
  exact ⟨_, hext, by rw [Cursor.peek?, hnext], by rw [Cursor.peek?, hnext']⟩

/-- A command leads the line in both texts or in none, if a token follows a leading name. -/
theorem Extends.leads (h : Extends tail size (0, b, d) s s')
    (hread : ∀ name, s.current.token = .identifier name → ∃ u, s.readFrom false s.cursor = .ok u) :
    commands.leads s'.current.token s'.cursor = commands.leads s.current.token s.cursor := by
  obtain htoken | ⟨hs, hs'⟩ := h.cases_token
  · rw [htoken]
    cases hname : s.current.token with
    | identifier name =>
      obtain ⟨u, hu⟩ := hread name hname
      have hend : s.current.token.isEnd = false := by
        rw [hname]
        rfl
      obtain ⟨u', hext, hpeek, hpeek'⟩ := h.peek? hend hu
      have hmarks : marksVariable s'.cursor.peek? = marksVariable s.cursor.peek? := by
        rw [hpeek, hpeek']
        obtain htoken | ⟨hu, hu'⟩ := hext.cases_token
        · rw [htoken]
        · rw [hu, hu']
          rfl
      rw [CommandSet.leads, CommandSet.leads, hmarks]
    | _ => rfl
  · rw [hs, hs']
    rfl

/-- An action that is no command is an expression that fills its line. -/
theorem expression_of_pure {expr : Parser Expr} {a : Action} (hn : s.nesting = 0)
    (h : action commands expr s = .ok a t) (hpure : isPure a = true) :
    ∃ e, a = .expression e ∧ knownCommand? commands s = .ok none s ∧ expr s = .ok e t
      ∧ t.completes e = true := by
  obtain ⟨e, rfl⟩ := Action.eq_expression_of_isPure hpure
  obtain hknown | ⟨name, -, -, hknown⟩ := knownCommand?_cases commands hn
  · exact ⟨e, rfl, hknown, (expression_of_action hknown h).2⟩
  · nomatch (expression_of_action hknown h).1

/-- **An action is carried** if it is an expression. -/
theorem carries_action (commands : CommandSet) (size levels : Nat) :
    Carries tail size Commandless (action commands (expression size levels)) := by
  intro b d s s' h a t ha hpure
  obtain ⟨hn, hn'⟩ := h.nesting
  obtain ⟨e, rfl, hknown, hexpr, hcomplete⟩ := expression_of_pure hn ha hpure
  obtain ⟨t', hexpr', hext⟩ := carries_expression size levels h hexpr (binds_of_completes hcomplete)
  refine ⟨t', ?_, hext⟩
  have hknown' : knownCommand? commands s' = .ok none s' := by
    rw [knownCommand?_eq_none_iff commands hn] at hknown
    rw [knownCommand?_eq_none_iff commands hn',
      h.leads fun name hname => readFrom_of_expression hn hname hexpr, hknown]
  rw [action_of_ok hknown' hexpr', hext.completes, hcomplete]

end Expressions

end Parser

end CommandScript
