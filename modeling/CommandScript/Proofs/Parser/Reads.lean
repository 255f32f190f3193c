import CommandScript.Proofs.Parser.Walk

/-!
# Proofs/Parser/Reads — a parser reads exactly a language

`Reads p L size level` says that the parser `p` accepts the phrases of `L` and nothing else, and
gives their meaning. A parser takes as much as it can; so it reads a phrase only if what follows
binds more loosely than `level`, the level of the loosest operator the parser itself would take
(`Token.binds`).

There is one statement for each rule of the grammar, and so expressions are read as the grammar says
(`reads_expressionOf`, `reads_operand`).
-/

namespace CommandScript

/-- How tightly the token binds what is before it; `0` if it is no operator. -/
def Token.binds : Token → Nat
  | symbol .orOr => 1
  | symbol .andAnd => 2
  | symbol .equalEqual | symbol .notEqual | symbol .less | symbol .greater => 3
  | symbol .lessEqual | symbol .greaterEqual => 3
  | symbol .dotDot => 4
  | symbol .plus | symbol .minus => 5
  | symbol .star | symbol .slash => 6
  | symbol .caret => 7
  | symbol .dot | symbol .leftBracket | symbol .leftParen => 8
  | _ => 0

namespace Parser

open Grammar

/-- The parser reads the language, in phrases of at most `size` tokens. -/
structure Reads {α : Type} (p : Parser α) (L : Lang α) (size level : Nat) : Prop where
  sound {s t : State} {a : α} : p s = .ok a t → ∃ ts, Walk s ts t ∧ L ts a
  complete {s t : State} {ts : List Token} {a : α} : L ts a → Walk s ts t → ts.length ≤ size →
    t.current.token.binds < level → p s = .ok a t

/-! ## Operators -/

/-- The function recognises the symbols of the operators, which bind at the given level. -/
structure Recognises (op? : Token → Option BinaryOp) (ops : List BinaryOp) (level : Nat) :
    Prop where
  sound {t : Token} {op : BinaryOp} : op? t = some op → op ∈ ops ∧ t = .symbol op.sign
  complete : ∀ op ∈ ops, op? (.symbol op.sign) = some op
  binds : ∀ op ∈ ops, (Token.symbol op.sign).binds = level

theorem recognises_or : Recognises orOp? disjunction 1 where
  sound := by
    intro t op h
    unfold orOp? at h
    split at h <;> cases h
    exact ⟨by decide, rfl⟩
  complete := by decide
  binds := by decide

theorem recognises_and : Recognises andOp? conjunction 2 where
  sound := by
    intro t op h
    unfold andOp? at h
    split at h <;> cases h
    exact ⟨by decide, rfl⟩
  complete := by decide
  binds := by decide

theorem recognises_compare : Recognises compareOp? comparison 3 where
  sound := by
    intro t op h
    unfold compareOp? at h
    split at h <;> cases h <;> exact ⟨by decide, rfl⟩
  complete := by decide
  binds := by decide

theorem recognises_sum : Recognises sumOp? sum 5 where
  sound := by
    intro t op h
    unfold sumOp? at h
    split at h <;> cases h <;> exact ⟨by decide, rfl⟩
  complete := by decide
  binds := by decide

theorem recognises_product : Recognises productOp? product 6 where
  sound := by
    intro t op h
    unfold productOp? at h
    split at h <;> cases h <;> exact ⟨by decide, rfl⟩
  complete := by decide
  binds := by decide

theorem signOp?_eq_some_iff {t : Token} {op : UnaryOp} :
    signOp? t = some op ↔ t = .symbol op.sign := by
  constructor
  · unfold signOp?
    split <;> rintro ⟨⟩ <;> rfl
  · rintro rfl
    cases op <;> rfl

theorem flat_binarySign (op : BinaryOp) :
    (Token.symbol op.sign).opens = false ∧ (Token.symbol op.sign).closes = false := by
  cases op <;> exact ⟨rfl, rfl⟩

theorem flat_unarySign (op : UnaryOp) :
    (Token.symbol op.sign).opens = false ∧ (Token.symbol op.sign).closes = false := by
  cases op <;> exact ⟨rfl, rfl⟩

/-! ## Behind a token

What is read behind a token that is no bracket, and then gone on with. -/

section Behind

variable {α β : Type} {q : Parser α} {D : Lang α} {size level : Nat} {k : α → Parser β}
  {s t u : State} {tok : Token}

theorem Reads.behind_sound (hq : Reads q D size level) (hs : s.current.token = tok)
    (hflat : tok.opens = false ∧ tok.closes = false) {b : β}
    (h : (do advance; let a ← q; k a) s = .ok b t) :
    ∃ a u ts, Walk s (tok :: ts) u ∧ D ts a ∧ k a u = .ok b t := by
  obtain ⟨_, v, hadvance, h⟩ := bind_eq_ok_iff.1 h
  obtain ⟨a, u, ha, h⟩ := bind_eq_ok_iff.1 h
  obtain ⟨ts, hts, hD⟩ := hq.sound ha
  have hstep := (advance_eq_ok_iff hs hflat.1 hflat.2).1 hadvance
  exact ⟨a, u, ts, Walk.cons_iff.2 ⟨v, hstep, hts⟩, hD, h⟩

theorem Reads.behind_complete (hq : Reads q D size level) {ts : List Token} {a : α}
    (hwalk : Walk s (tok :: ts) u) (hflat : tok.opens = false ∧ tok.closes = false) (hD : D ts a)
    (hsize : ts.length ≤ size) (hu : u.current.token.binds < level) :
    (do advance; let a ← q; k a) s = k a u := by
  have hs := hwalk.current_eq
  obtain ⟨v, hstep, hts⟩ := Walk.cons_iff.1 hwalk
  rw [bind_eq_of_ok ((advance_eq_ok_iff hs hflat.1 hflat.2).2 hstep),
    bind_eq_of_ok (hq.complete hD hts hsize hu)]

end Behind

/-! ## Chains -/

section Chain

variable {op? : Token → Option BinaryOp} {ops : List BinaryOp} {p : Parser Expr} {L : Lang Expr}
  {size level : Nat}

theorem chainFrom_sound (hop : Recognises op? ops level) (hp : Reads p L size (level + 1)) :
    ∀ {n : Nat} {left e : Expr} {s t : State}, chainFrom op? p n left s = .ok e t →
      ∃ ts, Walk s ts t ∧ ChainFrom ops L left ts e
  | 0, left, e, s, t, h => by
    obtain ⟨rfl, rfl⟩ := pure_eq_ok_iff.1 h
    exact ⟨[], .stop s, .stop left⟩
  | n + 1, left, e, s, t, h => by
    rw [chainFrom, current_bind] at h
    cases hop? : op? s.current.token with
    | none =>
      rw [hop?] at h
      obtain ⟨rfl, rfl⟩ := pure_eq_ok_iff.1 h
      exact ⟨[], .stop s, .stop left⟩
    | some op =>
      rw [hop?] at h
      obtain ⟨hmem, hcur⟩ := hop.sound hop?
      obtain ⟨right, u, us, hus, hL, h⟩ := hp.behind_sound hcur (flat_binarySign op) h
      obtain ⟨vs, hvs, hrest⟩ := chainFrom_sound hop hp h
      exact ⟨_, hus.append hvs, .more hmem hL hrest⟩

/-- What follows an operand of a chain binds more loosely than what is in the operand. -/
theorem binds_of_chainFrom (hop : Recognises op? ops level) {left e : Expr} {ts : List Token}
    {s t : State} (h : ChainFrom ops L left ts e) (hwalk : Walk s ts t)
    (ht : t.current.token.binds < level) : s.current.token.binds < level + 1 := by
  cases h with
  | stop =>
    obtain rfl := Walk.nil_iff.1 hwalk
    omega
  | more hmem _ _ =>
    rw [hwalk.current_eq, hop.binds _ hmem]
    omega

theorem chainFrom_complete (hop : Recognises op? ops level) (hp : Reads p L size (level + 1))
    {left e : Expr} {ts : List Token} (h : ChainFrom ops L left ts e) :
    ∀ {n : Nat} {s t : State}, Walk s ts t → ts.length ≤ n → ts.length ≤ size →
      t.current.token.binds < level → chainFrom op? p n left s = .ok e t := by
  induction h with
  | stop left =>
    intro n s t hwalk _ _ ht
    obtain rfl := Walk.nil_iff.1 hwalk
    cases n with
    | zero => rfl
    | succ n =>
      have hnone : op? s.current.token = none := by
        cases hsome : op? s.current.token with
        | none => rfl
        | some op =>
          obtain ⟨hmem, hcur⟩ := hop.sound hsome
          rw [hcur, hop.binds op hmem] at ht
          omega
      rw [chainFrom, current_bind, hnone]
      rfl
  | @more op left right e us vs hmem hright hrest ih =>
    intro n s t hwalk hn hsize ht
    rw [← List.cons_append] at hwalk
    obtain ⟨v, hus, hvs⟩ := Walk.append_iff.1 hwalk
    rw [List.length_cons, List.length_append] at hn hsize
    obtain ⟨n, rfl⟩ := Nat.exists_eq_succ_of_ne_zero (by omega : n ≠ 0)
    have hv := binds_of_chainFrom hop hrest hvs ht
    rw [chainFrom, current_bind, hus.current_eq, hop.complete op hmem]
    dsimp only
    rw [hp.behind_complete hus (flat_binarySign op) hright (by omega) hv]
    exact ih hvs (by omega) (by omega) ht

theorem Reads.chain (hp : Reads p L size (level + 1)) (hop : Recognises op? ops level) :
    Reads (chain size op? p) (Chain ops L) size level where
  sound := by
    intro s t e h
    obtain ⟨left, u, hleft, h⟩ := bind_eq_ok_iff.1 h
    obtain ⟨us, hus, hL⟩ := hp.sound hleft
    obtain ⟨vs, hvs, hrest⟩ := chainFrom_sound hop hp h
    exact ⟨us ++ vs, hus.append hvs, .intro hL hrest⟩
  complete := by
    rintro s t _ e ⟨hL, hrest⟩ hwalk hsize ht
    obtain ⟨u, hus, hvs⟩ := Walk.append_iff.1 hwalk
    rw [List.length_append] at hsize
    have hu := binds_of_chainFrom hop hrest hvs ht
    unfold Parser.chain
    rw [bind_eq_of_ok (hp.complete hL hus (by omega) hu)]
    exact chainFrom_complete hop hp hrest hvs (by omega) (by omega) ht

end Chain

/-! ## Ranges -/

theorem Reads.rangeOf {p : Parser Expr} {L : Lang Expr} {size : Nat} (hp : Reads p L size 5) :
    Reads (rangeOf p) (RangeOf L) size 4 where
  sound := by
    intro s t e h
    obtain ⟨start, u, hstart, h⟩ := bind_eq_ok_iff.1 h
    obtain ⟨us, hus, hLstart⟩ := hp.sound hstart
    by_cases hu : u.current.token = .symbol .dotDot
    · rw [check_ite_pos hu] at h
      obtain ⟨stop, v, vs, hvs, hLstop, h⟩ := hp.behind_sound hu ⟨rfl, rfl⟩ h
      by_cases hv : v.current.token = .symbol .dotDot
      · rw [check_ite_pos hv] at h
        obtain ⟨step, w, ws, hws, hLstep, h⟩ := hp.behind_sound hv ⟨rfl, rfl⟩ h
        obtain ⟨rfl, rfl⟩ := pure_eq_ok_iff.1 h
        exact ⟨_, hus.append (hvs.append hws), .stepped hLstart hLstop hLstep⟩
      · rw [check_ite_neg hv] at h
        obtain ⟨rfl, rfl⟩ := pure_eq_ok_iff.1 h
        exact ⟨_, hus.append hvs, .between hLstart hLstop⟩
    · rw [check_ite_neg hu] at h
      obtain ⟨rfl, rfl⟩ := pure_eq_ok_iff.1 h
      exact ⟨us, hus, .single hLstart⟩
  complete := by
    intro s t ts e h hwalk hsize ht
    have hne : t.current.token ≠ .symbol .dotDot := by
      intro heq
      rw [heq] at ht
      exact absurd ht (by decide)
    unfold Parser.rangeOf
    rcases h with h | ⟨hstart, hstop⟩ | ⟨hstart, hstop, hstep⟩
    · rw [bind_eq_of_ok (hp.complete h hwalk hsize (by omega)), check_ite_neg hne]
      rfl
    · obtain ⟨u, hus, hvs⟩ := Walk.append_iff.1 hwalk
      have hu := hvs.current_eq
      rw [List.length_append, List.length_cons] at hsize
      rw [bind_eq_of_ok (hp.complete hstart hus (by omega) (by rw [hu]; decide)), check_ite_pos hu,
        hp.behind_complete hvs ⟨rfl, rfl⟩ hstop (by omega) (by omega), check_ite_neg hne]
      rfl
    · obtain ⟨u, hus, hwalk⟩ := Walk.append_iff.1 hwalk
      have hu := hwalk.current_eq
      rw [← List.cons_append] at hwalk
      obtain ⟨v, hvs, hws⟩ := Walk.append_iff.1 hwalk
      have hv := hws.current_eq
      rw [List.length_append, List.length_cons, List.length_append, List.length_cons] at hsize
      rw [bind_eq_of_ok (hp.complete hstart hus (by omega) (by rw [hu]; decide)), check_ite_pos hu,
        hp.behind_complete hvs ⟨rfl, rfl⟩ hstop (by omega) (by rw [hv]; decide), check_ite_pos hv,
        hp.behind_complete hws ⟨rfl, rfl⟩ hstep (by omega) (by omega)]
      rfl

/-- An expression is read where no operator follows. -/
theorem Reads.expressionOf {p : Parser Expr} {L : Lang Expr} {size : Nat} (hp : Reads p L size 7) :
    Reads (expressionOf size p) (ExpressionOf L) size 1 :=
  ((((hp.chain recognises_product).chain recognises_sum).rangeOf.chain recognises_compare).chain
    recognises_and).chain recognises_or

/-! ## Groups -/

/-- The brackets of a group. -/
inductive Brackets : Symbol → Symbol → Prop
  | round : Brackets .leftParen .rightParen
  | square : Brackets .leftBracket .rightBracket

theorem Brackets.opens {opener closer : Symbol} (h : Brackets opener closer) :
    (Token.symbol opener).opens = true := by
  cases h <;> rfl

theorem Brackets.closes {opener closer : Symbol} (h : Brackets opener closer) :
    (Token.symbol closer).closes = true ∧ (Token.symbol closer).opens = false := by
  cases h <;> exact ⟨rfl, rfl⟩

section Group

variable {α β : Type} {p : Parser α} {L : Lang α} {opener closer : Symbol} {f : α → Parser β}
  {s t : State}

theorem group_sound (hp : ∀ {v w : State} {a : α}, p v = .ok a w → ∃ ts, Walk v ts w ∧ L ts a)
    (hb : Brackets opener closer) (hs : s.current.token = .symbol opener) {b : β}
    (h : (do openGroup; let a ← p; closeGroup closer; f a) s = .ok b t) :
    ∃ ts a u, L ts a ∧ f a u = .ok b t ∧
      ∀ {vs}, Walk u vs t → Walk s (.symbol opener :: (ts ++ .symbol closer :: vs)) t := by
  obtain ⟨_, v, hopened, h⟩ := bind_eq_ok_iff.1 h
  obtain ⟨a, w, ha, h⟩ := bind_eq_ok_iff.1 h
  obtain ⟨_, u, hclosed, h⟩ := bind_eq_ok_iff.1 h
  obtain ⟨ts, hts, hL⟩ := hp ha
  have hfirst := (openGroup_eq_ok_iff hs hb.opens).1 hopened
  have hlast := (closeGroup_eq_ok_iff hb.closes.1 hb.closes.2).1 hclosed
  refine ⟨ts, a, u, hL, h, fun hvs => ?_⟩
  exact Walk.cons_iff.2 ⟨v, hfirst, hts.append (Walk.cons_iff.2 ⟨u, hlast, hvs⟩)⟩

theorem group_complete {ts vs : List Token} {a : α}
    (hp : ∀ {v w : State}, Walk v ts w → w.current.token = .symbol closer → p v = .ok a w)
    (hb : Brackets opener closer)
    (h : Walk s (.symbol opener :: (ts ++ .symbol closer :: vs)) t) :
    ∃ u, Walk u vs t ∧ (do openGroup; let a ← p; closeGroup closer; f a) s = f a u := by
  have hs := h.current_eq
  obtain ⟨v, hfirst, h⟩ := Walk.cons_iff.1 h
  obtain ⟨w, hts, h⟩ := Walk.append_iff.1 h
  have hw := h.current_eq
  obtain ⟨u, hlast, hvs⟩ := Walk.cons_iff.1 h
  refine ⟨u, hvs, ?_⟩
  rw [bind_eq_of_ok ((openGroup_eq_ok_iff hs hb.opens).2 hfirst), bind_eq_of_ok (hp hts hw),
    bind_eq_of_ok ((closeGroup_eq_ok_iff hb.closes.1 hb.closes.2).2 hlast)]

end Group

/-! ## Items -/

section Items

variable {p : Parser Expr} {L : Lang Expr} {size : Nat} {opener closer : Symbol}

theorem itemsFrom_sound (hp : Reads p L size 1) : ∀ {n : Nat} {es : List Expr} {s t : State},
    itemsFrom p closer n s = .ok es t → ∃ ts, Walk s ts t ∧ Items L ts es
  | 0, es, s, t, h => by
    obtain ⟨rfl, rfl⟩ := pure_eq_ok_iff.1 h
    exact ⟨[], .stop s, .none⟩
  | n + 1, es, s, t, h => by
    rw [itemsFrom] at h
    by_cases hs : s.current.token = .symbol closer
    · rw [check_ite_pos hs] at h
      obtain ⟨rfl, rfl⟩ := pure_eq_ok_iff.1 h
      exact ⟨[], .stop s, .none⟩
    · rw [check_ite_neg hs] at h
      obtain ⟨e, u, he, h⟩ := bind_eq_ok_iff.1 h
      obtain ⟨us, hus, hL⟩ := hp.sound he
      by_cases hu : u.current.token = .symbol .comma
      · rw [check_ite_pos hu] at h
        obtain ⟨_, v, hadvance, h⟩ := bind_eq_ok_iff.1 h
        obtain ⟨es', w, hes, h⟩ := bind_eq_ok_iff.1 h
        obtain ⟨rfl, rfl⟩ := pure_eq_ok_iff.1 h
        obtain ⟨vs, hvs, hrest⟩ := itemsFrom_sound hp hes
        have hcomma := (advance_eq_ok_iff hu rfl rfl).1 hadvance
        exact ⟨_, hus.append (Walk.cons_iff.2 ⟨v, hcomma, hvs⟩), .more hL hrest⟩
      · rw [check_ite_neg hu] at h
        obtain ⟨rfl, rfl⟩ := pure_eq_ok_iff.1 h
        exact ⟨us, hus, .last hL⟩

/-- An item does not start with a closing bracket. -/
theorem not_closer_of_item (hb : Brackets opener closer) (hL : Proper L) {ts us : List Token}
    {e : Expr} {s t : State} (h : L ts e) (hwalk : Walk s (ts ++ us) t) :
    s.current.token ≠ .symbol closer := by
  obtain ⟨tok, ts, rfl, htok⟩ := hL.starts h
  rw [List.cons_append] at hwalk
  rw [hwalk.current_eq]
  rintro rfl
  cases hb <;> exact absurd htok (by decide)

theorem itemsFrom_complete (hp : Reads p L size 1) (hb : Brackets opener closer) (hL : Proper L)
    {ts : List Token} {es : List Expr} (h : Items L ts es) :
    ∀ {n : Nat} {s t : State}, Walk s ts t → ts.length ≤ n →
      ts.length ≤ size → t.current.token = .symbol closer → itemsFrom p closer n s = .ok es t := by
  induction h with
  | none =>
    intro n s t hwalk _ _ ht
    obtain rfl := Walk.nil_iff.1 hwalk
    cases n with
    | zero => rfl
    | succ n =>
      rw [itemsFrom, check_ite_pos ht]
      rfl
  | @last e ts h =>
    intro n s t hwalk hn hsize ht
    have hwalk' : Walk s (ts ++ []) t := by rwa [List.append_nil]
    have hs := not_closer_of_item hb hL h hwalk'
    obtain ⟨tok, us, rfl, -⟩ := hL.starts h
    obtain ⟨n, rfl⟩ := Nat.exists_eq_succ_of_ne_zero (by rw [List.length_cons] at hn; omega : n ≠ 0)
    have hbinds : t.current.token.binds < 1 := by
      rw [ht]
      cases hb <;> decide
    have hcomma : t.current.token ≠ .symbol .comma := by
      rw [ht]
      cases hb <;> simp
    rw [itemsFrom, check_ite_neg hs, bind_eq_of_ok (hp.complete h hwalk hsize hbinds),
      check_ite_neg hcomma]
    rfl
  | @more e es us vs h _ ih =>
    intro n s t hwalk hn hsize ht
    have hs := not_closer_of_item hb hL h hwalk
    obtain ⟨u, hus, hwalk⟩ := Walk.append_iff.1 hwalk
    have hu := hwalk.current_eq
    obtain ⟨v, hcomma, hvs⟩ := Walk.cons_iff.1 hwalk
    rw [List.length_append, List.length_cons] at hn hsize
    obtain ⟨n, rfl⟩ := Nat.exists_eq_succ_of_ne_zero (by omega : n ≠ 0)
    rw [itemsFrom, check_ite_neg hs,
      bind_eq_of_ok (hp.complete h hus (by omega) (by rw [hu]; decide)), check_ite_pos hu,
      bind_eq_of_ok ((advance_eq_ok_iff hu rfl rfl).2 hcomma),
      bind_eq_of_ok (ih hvs (by omega) (by omega) ht)]
    rfl

theorem items_sound (hp : Reads p L size 1) (hb : Brackets opener closer) {β : Type} {b : β}
    {s t : State} {f : List Expr → Parser β} (hs : s.current.token = .symbol opener)
    (h : (items size p closer >>= f) s = .ok b t) :
    ∃ ts es u, Items L ts es ∧ f es u = .ok b t ∧
      ∀ {vs}, Walk u vs t → Walk s (.symbol opener :: (ts ++ .symbol closer :: vs)) t := by
  simp only [items, bind_assoc, pure_bind] at h
  exact group_sound (itemsFrom_sound hp) hb hs h

theorem items_complete (hp : Reads p L size 1) (hb : Brackets opener closer) (hL : Proper L)
    {β : Type} {s t : State} {ts vs : List Token} {es : List Expr} {f : List Expr → Parser β}
    (h : Items L ts es) (hwalk : Walk s (.symbol opener :: (ts ++ .symbol closer :: vs)) t)
    (hsize : ts.length ≤ size) : ∃ u, Walk u vs t ∧ (items size p closer >>= f) s = f es u := by
  simp only [items, bind_assoc, pure_bind]
  exact group_complete (fun hts hw => itemsFrom_complete hp hb hL h hts hsize hsize hw) hb hwalk

end Items

/-! ## Primary expressions -/

section Primary

variable {p : Parser Expr} {L : Lang Expr} {size : Nat}

theorem finish_eq_ok_iff {tok : Token} {e e' : Expr} {s t : State} (h : s.current.token = tok)
    (hopen : tok.opens = false) (hclose : tok.closes = false) :
    primary.finish e s = .ok e' t ↔ e = e' ∧ Walk s [tok] t := by
  unfold primary.finish
  rw [bind_eq_ok_iff]
  constructor
  · rintro ⟨_, u, hadvance, hpure⟩
    obtain ⟨rfl, rfl⟩ := pure_eq_ok_iff.1 hpure
    exact ⟨rfl, (advance_eq_ok_iff h hopen hclose).1 hadvance⟩
  · rintro ⟨rfl, hwalk⟩
    exact ⟨(), t, (advance_eq_ok_iff h hopen hclose).2 hwalk, rfl⟩

theorem primary_sound (hp : Reads p L size 1) {s t : State} {e : Expr}
    (h : primary size p s = .ok e t) : ∃ ts, Walk s ts t ∧ Primary L ts e := by
  unfold primary at h
  rw [current_bind] at h
  generalize hs : s.current.token = tok at h
  split at h
  case h_8 =>
    obtain ⟨ts, e', u, hL, hpure, hwalk⟩ := group_sound hp.sound .round hs h
    obtain ⟨rfl, rfl⟩ := pure_eq_ok_iff.1 hpure
    exact ⟨_, hwalk (.stop u), .group hL⟩
  case h_9 =>
    obtain ⟨ts, es, u, hL, hpure, hwalk⟩ := items_sound hp .square hs h
    obtain ⟨rfl, rfl⟩ := pure_eq_ok_iff.1 hpure
    exact ⟨_, hwalk (.stop u), .list hL⟩
  case h_10 => exact absurd h unexpected_ne_ok
  all_goals
    obtain ⟨rfl, hwalk⟩ := (finish_eq_ok_iff hs rfl rfl).1 h
    exact ⟨_, hwalk, by constructor⟩

theorem primary_complete (hp : Reads p L size 1) (hL : Proper L) {s t : State} {ts : List Token}
    {e : Expr} (h : Primary L ts e) (hwalk : Walk s ts t) (hsize : ts.length ≤ size) :
    primary size p s = .ok e t := by
  unfold primary
  cases h with
  | group h =>
    rw [List.length_cons, List.length_append] at hsize
    rw [current_bind, hwalk.current_eq]
    obtain ⟨u, hstop, heq⟩ := group_complete (f := pure)
      (fun hts hw => hp.complete h hts (by omega) (by rw [hw]; decide)) .round hwalk
    obtain rfl := Walk.nil_iff.1 hstop
    exact heq
  | list h =>
    rw [List.length_cons, List.length_append] at hsize
    rw [current_bind, hwalk.current_eq]
    obtain ⟨u, hstop, heq⟩ := items_complete (f := fun es => pure (Expr.list es)) hp .square hL h
      hwalk (by omega)
    obtain rfl := Walk.nil_iff.1 hstop
    exact heq
  | _ =>
    rw [current_bind, hwalk.current_eq]
    exact (finish_eq_ok_iff hwalk.current_eq rfl rfl).2 ⟨rfl, hwalk⟩

end Primary

/-! ## Members, indices, calls -/

section Suffixes

variable {p : Parser Expr} {L : Lang Expr} {size : Nat}

theorem expectName_eq_ok_iff {wanted name : String} {s t : State} :
    expectName wanted s = .ok name t ↔ Walk s [.identifier name] t := by
  unfold expectName
  rw [current_bind]
  generalize hs : s.current.token = tok
  constructor
  · intro h
    split at h
    · obtain ⟨_, u, hadvance, hpure⟩ := bind_eq_ok_iff.1 h
      obtain ⟨rfl, rfl⟩ := pure_eq_ok_iff.1 hpure
      exact (advance_eq_ok_iff hs rfl rfl).1 hadvance
    · exact absurd h unexpected_ne_ok
  · intro h
    obtain rfl := hs.symm.trans h.current_eq
    exact bind_eq_ok_iff.2 ⟨(), t, (advance_eq_ok_iff hs rfl rfl).2 h, rfl⟩

theorem suffixesFrom_sound (hp : Reads p L size 1) : ∀ {n : Nat} {e e' : Expr} {s t : State},
    suffixesFrom size p n e s = .ok e' t → ∃ ts, Walk s ts t ∧ SuffixesFrom L e ts e'
  | 0, e, e', s, t, h => by
    obtain ⟨rfl, rfl⟩ := pure_eq_ok_iff.1 h
    exact ⟨[], .stop s, .stop e⟩
  | n + 1, e, e', s, t, h => by
    rw [suffixesFrom, current_bind] at h
    generalize hs : s.current.token = tok at h
    split at h
    · obtain ⟨_, u, hadvance, h⟩ := bind_eq_ok_iff.1 h
      obtain ⟨name, v, hname, h⟩ := bind_eq_ok_iff.1 h
      have hdot := (advance_eq_ok_iff hs rfl rfl).1 hadvance
      have hname := expectName_eq_ok_iff.1 hname
      dsimp only at h
      by_cases hv : v.current.token = .symbol .leftParen
      · rw [check_ite_pos hv] at h
        obtain ⟨us, args, w, hL, h, hwalk⟩ := items_sound hp .round hv h
        obtain ⟨vs, hvs, hrest⟩ := suffixesFrom_sound hp h
        exact ⟨_, Walk.cons_iff.2 ⟨u, hdot, Walk.cons_iff.2 ⟨v, hname, hwalk hvs⟩⟩,
          .memberCall hL hrest⟩
      · rw [check_ite_neg hv, pure_bind] at h
        obtain ⟨vs, hvs, hrest⟩ := suffixesFrom_sound hp h
        refine ⟨_, Walk.cons_iff.2 ⟨u, hdot, Walk.cons_iff.2 ⟨v, hname, hvs⟩⟩, .member ?_ hrest⟩
        intro hhead
        obtain ⟨ws, rfl⟩ := List.head?_eq_some_iff.1 hhead
        exact hv hvs.current_eq
    · obtain ⟨ts, place, u, hL, h, hwalk⟩ := group_sound hp.sound .square hs h
      obtain ⟨vs, hvs, hrest⟩ := suffixesFrom_sound hp h
      exact ⟨_, hwalk hvs, .index hL hrest⟩
    · obtain ⟨ts, args, u, hL, h, hwalk⟩ := items_sound hp .round hs h
      obtain ⟨vs, hvs, hrest⟩ := suffixesFrom_sound hp h
      exact ⟨_, hwalk hvs, .call hL hrest⟩
    · obtain ⟨rfl, rfl⟩ := pure_eq_ok_iff.1 h
      exact ⟨[], .stop s, .stop e⟩

/-- Where nothing is taken from an expression, it ends. -/
theorem suffixesFrom_of_binds {n : Nat} {e : Expr} {s : State} (h : s.current.token.binds < 8) :
    suffixesFrom size p n e s = .ok e s := by
  cases n with
  | zero => rfl
  | succ n =>
    rw [suffixesFrom, current_bind]
    generalize s.current.token = tok at h
    split
    case h_4 => rfl
    all_goals exact absurd h (by decide)

/-- A member without arguments is not followed by an opening bracket. -/
theorem not_leftParen_of_member {ts : List Token} {s t : State}
    (hhead : ts.head? ≠ some (.symbol .leftParen)) (hwalk : Walk s ts t)
    (ht : t.current.token.binds < 8) : s.current.token ≠ .symbol .leftParen := by
  intro heq
  cases ts with
  | nil =>
    obtain rfl := Walk.nil_iff.1 hwalk
    rw [heq] at ht
    exact absurd ht (by decide)
  | cons tok ts => exact hhead (by rw [← heq, hwalk.current_eq, List.head?_cons])

theorem suffixesFrom_complete (hp : Reads p L size 1) (hL : Proper L) {e e' : Expr}
    {ts : List Token} (h : SuffixesFrom L e ts e') : ∀ {n : Nat} {s t : State}, Walk s ts t →
      ts.length ≤ n → ts.length ≤ size → t.current.token.binds < 8 →
      suffixesFrom size p n e s = .ok e' t := by
  induction h with
  | stop e =>
    intro n s t hwalk _ _ ht
    obtain rfl := Walk.nil_iff.1 hwalk
    exact suffixesFrom_of_binds ht
  | @member e e' name ts hhead hrest ih =>
    intro n s t hwalk hn hsize ht
    have hs := hwalk.current_eq
    obtain ⟨u, hdot, hwalk⟩ := Walk.cons_iff.1 hwalk
    obtain ⟨v, hname, hvs⟩ := Walk.cons_iff.1 hwalk
    rw [List.length_cons, List.length_cons] at hn hsize
    obtain ⟨n, rfl⟩ := Nat.exists_eq_succ_of_ne_zero (by omega : n ≠ 0)
    rw [suffixesFrom, current_bind, hs]
    dsimp only
    rw [bind_eq_of_ok ((advance_eq_ok_iff hs rfl rfl).2 hdot),
      bind_eq_of_ok (expectName_eq_ok_iff.2 hname),
      check_ite_neg (not_leftParen_of_member hhead hvs ht), pure_bind]
    exact ih hvs (by omega) (by omega) ht
  | @memberCall e e' name args us vs hargs hrest ih =>
    intro n s t hwalk hn hsize ht
    have hs := hwalk.current_eq
    obtain ⟨u, hdot, hwalk⟩ := Walk.cons_iff.1 hwalk
    obtain ⟨v, hname, hwalk⟩ := Walk.cons_iff.1 hwalk
    simp only [List.length_cons, List.length_append] at hn hsize
    obtain ⟨n, rfl⟩ := Nat.exists_eq_succ_of_ne_zero (by omega : n ≠ 0)
    obtain ⟨w, hvs, heq⟩ := items_complete
      (f := fun args => suffixesFrom size p n (.member e name args)) hp .round hL hargs hwalk
      (by omega)
    rw [suffixesFrom, current_bind, hs]
    dsimp only
    rw [bind_eq_of_ok ((advance_eq_ok_iff hs rfl rfl).2 hdot),
      bind_eq_of_ok (expectName_eq_ok_iff.2 hname), check_ite_pos hwalk.current_eq, heq]
    exact ih hvs (by omega) (by omega) ht
  | @index e e' place us vs hplace hrest ih =>
    intro n s t hwalk hn hsize ht
    simp only [List.length_cons, List.length_append] at hn hsize
    obtain ⟨n, rfl⟩ := Nat.exists_eq_succ_of_ne_zero (by omega : n ≠ 0)
    obtain ⟨u, hvs, heq⟩ := group_complete
      (f := fun place => suffixesFrom size p n (.index e place))
      (fun hts hw => hp.complete hplace hts (by omega) (by rw [hw]; decide)) .square hwalk
    rw [suffixesFrom, current_bind, hwalk.current_eq]
    exact heq.trans (ih hvs (by omega) (by omega) ht)
  | @call e e' args us vs hargs hrest ih =>
    intro n s t hwalk hn hsize ht
    simp only [List.length_cons, List.length_append] at hn hsize
    obtain ⟨n, rfl⟩ := Nat.exists_eq_succ_of_ne_zero (by omega : n ≠ 0)
    obtain ⟨u, hvs, heq⟩ := items_complete (f := fun args => suffixesFrom size p n (.call e args))
      hp .round hL hargs hwalk (by omega)
    rw [suffixesFrom, current_bind, hwalk.current_eq]
    exact heq.trans (ih hvs (by omega) (by omega) ht)

end Suffixes

/-! ## Operands -/

section Operand

variable {p q : Parser Expr} {L D : Lang Expr} {size : Nat}

/-- A primary expression with what is taken from it. -/
theorem Reads.suffixed (hp : Reads p L size 1) (hL : Proper L) :
    Reads (do suffixesFrom size p size (← primary size p)) (Suffixed L) size 8 where
  sound := by
    intro s t e h
    obtain ⟨e', u, hprimary, h⟩ := bind_eq_ok_iff.1 h
    obtain ⟨us, hus, hPrimary⟩ := primary_sound hp hprimary
    obtain ⟨vs, hvs, hSuffixes⟩ := suffixesFrom_sound hp h
    exact ⟨us ++ vs, hus.append hvs, .intro hPrimary hSuffixes⟩
  complete := by
    rintro s t _ e ⟨hPrimary, hSuffixes⟩ hwalk hsize ht
    obtain ⟨u, hus, hvs⟩ := Walk.append_iff.1 hwalk
    rw [List.length_append] at hsize
    rw [bind_eq_of_ok (primary_complete hp hL hPrimary hus (by omega))]
    exact suffixesFrom_complete hp hL hSuffixes hvs (by omega) (by omega) ht

theorem operandOf_eq (s : State) : operandOf size p q s =
    match signOp? s.current.token with
    | some op => (do advance; let e ← q; return Expr.unary op e) s
    | none => (do
      let base ← (do suffixesFrom size p size (← primary size p))
      if ← check .caret then
        advance
        let exponent ← q
        return Expr.binary .power base exponent
      else return base) s := by
  unfold operandOf
  rw [current_bind]
  cases signOp? s.current.token with
  | some op => rfl
  | none => simp only [bind_assoc]

theorem Reads.operandOf (hp : Reads p L size 1) (hL : Proper L) (hq : Reads q D size 7) :
    Reads (operandOf size p q) (OperandOf L D) size 7 where
  sound := by
    intro s t e h
    rw [operandOf_eq] at h
    cases hsign : signOp? s.current.token with
    | some op =>
      rw [hsign] at h
      have hs := signOp?_eq_some_iff.1 hsign
      obtain ⟨e', u, ts, hts, hD, h⟩ := hq.behind_sound hs (flat_unarySign op) h
      obtain ⟨rfl, rfl⟩ := pure_eq_ok_iff.1 h
      exact ⟨_, hts, .sign hD⟩
    | none =>
      rw [hsign] at h
      obtain ⟨base, u, hbase, h⟩ := bind_eq_ok_iff.1 h
      obtain ⟨us, hus, hSuffixed⟩ := (hp.suffixed hL).sound hbase
      by_cases hu : u.current.token = .symbol .caret
      · rw [check_ite_pos hu] at h
        obtain ⟨exponent, v, vs, hvs, hD, h⟩ := hq.behind_sound hu ⟨rfl, rfl⟩ h
        obtain ⟨rfl, rfl⟩ := pure_eq_ok_iff.1 h
        exact ⟨_, hus.append hvs, .power hSuffixed hD⟩
      · rw [check_ite_neg hu] at h
        obtain ⟨rfl, rfl⟩ := pure_eq_ok_iff.1 h
        exact ⟨us, hus, .plain hSuffixed⟩
  complete := by
    intro s t ts e h hwalk hsize ht
    rw [operandOf_eq]
    rcases h with @⟨op, e, ts, h⟩ | h | ⟨hbase, hexponent⟩
    · rw [List.length_cons] at hsize
      rw [signOp?_eq_some_iff.2 hwalk.current_eq]
      dsimp only
      rw [hq.behind_complete hwalk (flat_unarySign op) h (by omega) ht]
      rfl
    · have hcaret : t.current.token ≠ .symbol .caret := by
        intro heq
        rw [heq] at ht
        exact absurd ht (by decide)
      obtain ⟨tok, us, rfl, -, hsign⟩ := h.starts
      rw [hwalk.current_eq, hsign]
      dsimp only
      rw [bind_eq_of_ok ((hp.suffixed hL).complete h hwalk hsize (by omega)), check_ite_neg hcaret]
      rfl
    · obtain ⟨u, hus, hvs⟩ := Walk.append_iff.1 hwalk
      have hu := hvs.current_eq
      rw [List.length_append, List.length_cons] at hsize
      obtain ⟨tok, us, rfl, -, hsign⟩ := hbase.starts
      rw [hus.current_eq, hsign]
      dsimp only
      rw [bind_eq_of_ok ((hp.suffixed hL).complete hbase hus (by omega) (by rw [hu]; decide)),
        check_ite_pos hu, hq.behind_complete hvs ⟨rfl, rfl⟩ hexponent (by omega) ht]
      rfl

/-- The level a parser runs on does not matter. -/
theorem Reads.nested {level : Nat} (hp : Reads p L size level) : Reads (nested p) L size level where
  sound := by
    intro s t e h
    unfold Parser.nested at h
    split at h
    · next e' u hp' =>
      obtain ⟨rfl, rfl⟩ : e' = e ∧ { u with depth := u.depth - 1 } = t := by simpa using h
      obtain ⟨ts, hts, hL⟩ := hp.sound hp'
      have hdepth : u.depth = s.depth + 1 := hts.fields.2
      refine ⟨ts, ?_, hL⟩
      have hwalk := hts.withDepth s.depth
      rw [hdepth]
      exact hwalk
    · exact absurd h (by simp)
  complete := by
    intro s t ts e h hwalk hsize ht
    have hdepth : t.depth = s.depth := hwalk.fields.2
    have hrun := hp.complete h (hwalk.withDepth (s.depth + 1)) hsize ht
    unfold Parser.nested
    rw [hrun]
    dsimp only
    rw [Nat.add_sub_cancel, ← hdepth]

/-- **Operands are read as the grammar says**, at every level. -/
theorem reads_operand : ∀ levels : Nat, Reads (operand size levels) (Operand levels) size 7
  | 0 => ⟨(fun h => nomatch h), False.elim⟩
  | levels + 1 =>
    ((reads_operand levels).expressionOf.operandOf (proper_operand levels).expressionOf
      (reads_operand levels)).nested

end Operand

end Parser

end CommandScript
