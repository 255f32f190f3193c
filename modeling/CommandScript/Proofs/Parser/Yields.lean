import CommandScript.Proofs.Parser.Progress
import CommandScript.Proofs.Program.WellFormed

/-!
# Proofs/Parser/Yields — what parsers end with

`Yields F p Q` says how a parser ends wherever in a text it starts: at a token of the text again,
and either with a value for which `Q` holds or with an error that `F` allows. It is put together
like the parser itself, from the steps of its state up to whole expressions: these are well formed,
and if there is none, the error is at a place of the text where a token starts
(`yields_expression`).
-/

namespace CommandScript

/-- The error is at a place of the text where a token starts, the end of the text included. -/
def Error.Points (source : List Char) (e : Error) : Prop :=
  ∃ (c : Cursor) (n : Nat), c.In source ∧ c.toToken false = c
    ∧ e.span? = some (c.spanTo (c.skip n))

namespace Parser

/-! ## Places of a text -/

section Places

variable {source : List Char} {s t : State} {c : Cursor} {acrossLines : Bool}

theorem State.At.cursor (h : s.At source) : s.cursor.In source := h.alike.cursor.2

/-- The current token stands at its place, and ends behind it. -/
theorem State.At.points (h : s.At source) {e : Error} (he : e.span? = some s.current.span) :
    e.Points source := by
  obtain ⟨n, -, hcursor, hspan⟩ := Cursor.next_eq_ok_iff.1 h.stands.next
  rw [hcursor, h.stands.origin] at hspan
  exact ⟨s.origin, n, h.place, h.stands.origin, by rw [he, hspan]⟩

theorem State.At.named (h : s.At source) : s.current.token.Named s.origin.rest := by
  obtain ⟨n, hscan, -⟩ := Cursor.next_eq_ok_iff.1 h.stands.next
  rw [h.stands.origin] at hscan
  exact Token.named_of_scan hscan

theorem points_of_readFrom (hc : c.In source) {e : Error}
    (h : s.readFrom acrossLines c = .error e) : e.Points source := by
  have hnext := readFrom_eq_error_iff.1 h
  unfold Cursor.next at hnext
  dsimp only at hnext
  split at hnext
  · nomatch hnext
  · obtain rfl := Except.error.inj hnext
    exact ⟨c.toToken acrossLines, 0, hc.skip _, Cursor.toToken_toToken _ _, rfl⟩

end Places

/-! ## How parsers end -/

/-- Errors that parsers of a text may end with, those at a token of the text among them. -/
structure Faults (source : List Char) where
  Allows : Error → Prop
  points {e : Error} : e.Points source → Allows e

/-- Only errors at a token of the text. -/
def Faults.pointing (source : List Char) : Faults source := ⟨Error.Points source, id⟩

/-- Any error. -/
def Faults.any (source : List Char) : Faults source := ⟨fun _ => True, fun _ => trivial⟩

/-- The parser ended at a token of the text with a value as wanted, or with an error that is
allowed. -/
inductive Ends {source : List Char} (F : Faults source) {α : Type} (Q : α → Prop) :
    EStateM.Result Error State α → Prop
  | ok {a : α} {t : State} : t.At source → Q a → Ends F Q (.ok a t)
  | error {e : Error} {t : State} : F.Allows e → Ends F Q (.error e t)

/-- Wherever in the text the parser starts, it ends so. -/
def Yields {source : List Char} (F : Faults source) {α : Type} (p : Parser α) (Q : α → Prop) :
    Prop := ∀ ⦃s : State⦄, s.At source → Ends F Q (p s)

variable {source : List Char} {F : Faults source} {α β : Type} {Q : α → Prop} {R : β → Prop}

theorem Ends.bind {p : Parser α} {f : α → Parser β} {s : State} (hp : Ends F Q (p s))
    (hf : ∀ a, Q a → Yields F (f a) R) : Ends F R ((p >>= f) s) := by
  cases hr : p s with
  | ok a t =>
    rw [hr] at hp
    cases hp with
    | ok ht ha =>
      rw [bind_eq_of_ok hr]
      exact hf a ha ht
  | error e t =>
    rw [hr] at hp
    cases hp with
    | error he =>
      rw [bind_eq_of_error hr]
      exact .error he

theorem Yields.bind {p : Parser α} {f : α → Parser β} (hp : Yields F p Q)
    (hf : ∀ a, Q a → Yields F (f a) R) : Yields F (p >>= f) R := fun _ hs => (hp hs).bind hf

/-- …where the value of the first parser does not matter. -/
theorem Yields.next {p : Parser α} {f : α → Parser β} (hp : Yields F p Q)
    (hf : ∀ a, Yields F (f a) R) : Yields F (p >>= f) R := hp.bind fun a _ => hf a

theorem yields_pure {a : α} (h : Q a) : Yields F (pure a) Q := fun _ hs => .ok hs h

theorem yields_ite {c : Prop} [Decidable c] {p q : Parser α} (hp : Yields F p Q)
    (hq : Yields F q Q) : Yields F (if c then p else q) Q := by
  split
  · exact hp
  · exact hq

/-! ## Steps -/

/-- Nothing is said of the value. -/
def Anything (_ : α) : Prop := True

theorem yields_current : Yields F current fun tok => ∃ cs, tok.Named cs :=
  fun _ hs => .ok hs ⟨_, hs.named⟩

theorem yields_check (sign : Symbol) : Yields F (check sign) Anything := fun _ hs => .ok hs trivial

theorem yields_atSeparator : Yields F atSeparator Anything := fun _ hs => .ok hs trivial

theorem yields_unexpected (wanted : String) : Yields F (unexpected wanted) Q :=
  fun _ hs => .error (F.points (hs.points rfl))

theorem yields_tooDeep : Yields F tooDeep Q := fun _ hs => .error (F.points (hs.points rfl))

theorem yields_advance : Yields F advance Anything := by
  intro s hs
  unfold advance
  split
  · next hread => exact .ok (at_of_readFrom hs.cursor hread) trivial
  · next hread => exact .error (F.points (points_of_readFrom hs.cursor hread))

/-- What is open may be counted anew, as long as the token stays. -/
theorem yields_modify {change : State → State} (hchange : ∀ s, s.At source → (change s).At source) :
    Yields F (modify change) Anything := fun s hs => .ok (hchange s hs) trivial

theorem State.At.congr {s t : State} (h : s.At source) (hcurrent : t.current = s.current)
    (horigin : t.origin = s.origin) (hcursor : t.cursor = s.cursor) : t.At source :=
  ⟨⟨by rw [horigin, hcurrent, hcursor]; exact h.stands.next,
    by rw [horigin]; exact h.stands.origin⟩, by rw [horigin]; exact h.place⟩

theorem yields_nesting (f : Nat → Nat) :
    Yields F (modify fun s => { s with nesting := f s.nesting }) Anything :=
  yields_modify fun _ hs => hs.congr rfl rfl rfl

theorem Yields.nested {p : Parser α} (h : Yields F p Q) : Yields F (nested p) Q := by
  intro s hs
  have hends := h (hs.congr rfl rfl rfl : ({ s with depth := s.depth + 1 } : State).At source)
  unfold Parser.nested
  generalize p { s with depth := s.depth + 1 } = r at hends
  cases hends with
  | ok ht ha => exact .ok (ht.congr rfl rfl rfl) ha
  | error he => exact .error he

theorem yields_openGroup : Yields F openGroup Anything :=
  (yields_nesting (· + 1)).next fun _ => yields_advance

theorem yields_closeGroup (sign : Symbol) : Yields F (closeGroup sign) Anything :=
  (yields_check sign).next fun _ =>
    yields_ite ((yields_nesting (· - 1)).next fun _ => yields_advance) (yields_unexpected _)

theorem yields_expect (sign : Symbol) : Yields F (expect sign) Anything :=
  (yields_check sign).next fun _ => yields_ite yields_advance (yields_unexpected _)

theorem yields_expectKeyword (word : Keyword) : Yields F (expectKeyword word) Anything :=
  yields_current.next fun _ => yields_ite yields_advance (yields_unexpected _)

theorem yields_expectName (wanted : String) :
    Yields F (expectName wanted) fun name => Scan.isIdentifier name = true := by
  refine yields_current.bind fun tok ⟨_, htok⟩ => ?_
  split
  · exact yields_advance.next fun _ => yields_pure htok.1
  · exact yields_unexpected _

theorem yields_skipSeparators : ∀ n : Nat, Yields F (skipSeparators n) Anything
  | 0 => yields_pure trivial
  | n + 1 => yields_atSeparator.next fun _ =>
    yields_ite (yields_advance.next fun _ => yields_skipSeparators n) (yields_pure trivial)

/-! ## Expressions -/

section Expressions

variable {op? : Token → Option BinaryOp} {p inner deeper : Parser Expr} {size : Nat}

theorem yields_chainFrom (h : Yields F p Expr.WellFormed) : ∀ (n : Nat) {left : Expr},
    left.WellFormed → Yields F (chainFrom op? p n left) Expr.WellFormed
  | 0, _, hleft => yields_pure hleft
  | n + 1, _, hleft => by
    refine yields_current.next fun tok => ?_
    split
    · exact yields_pure hleft
    · exact yields_advance.next fun _ => h.bind fun _ hright =>
        yields_chainFrom h n (.binary hleft hright)

theorem Yields.chain (h : Yields F p Expr.WellFormed) :
    Yields F (chain size op? p) Expr.WellFormed :=
  h.bind fun _ hleft => yields_chainFrom h size hleft

theorem Yields.rangeOf (h : Yields F p Expr.WellFormed) :
    Yields F (rangeOf p) Expr.WellFormed := by
  refine h.bind fun start hstart => (yields_check _).next fun _ => ?_
  refine yields_ite ?_ (yields_pure hstart)
  refine yields_advance.next fun _ => h.bind fun stop hstop => (yields_check _).next fun _ => ?_
  refine yields_ite ?_ (yields_pure (.range hstart hstop fun _ he => nomatch he))
  refine yields_advance.next fun _ => h.bind fun step hstep => yields_pure ?_
  exact .range hstart hstop fun e he => Option.mem_some_iff.1 he ▸ hstep

theorem Yields.expressionOf (h : Yields F p Expr.WellFormed) :
    Yields F (expressionOf size p) Expr.WellFormed :=
  h.chain.chain.rangeOf.chain.chain.chain

theorem yields_itemsFrom (h : Yields F inner Expr.WellFormed) (closer : Symbol) : ∀ n : Nat,
    Yields F (itemsFrom inner closer n) fun es => ∀ e ∈ es, e.WellFormed
  | 0 => yields_pure (List.forall_mem_nil _)
  | n + 1 => by
    refine (yields_check _).next fun _ => yields_ite (yields_pure (List.forall_mem_nil _)) ?_
    refine h.bind fun e he => (yields_check _).next fun _ => ?_
    refine yields_ite ?_ (yields_pure (List.forall_mem_singleton.2 he))
    refine yields_advance.next fun _ => (yields_itemsFrom h closer n).bind fun es hes => ?_
    exact yields_pure (List.forall_mem_cons.2 ⟨he, hes⟩)

theorem Yields.items (h : Yields F inner Expr.WellFormed) (closer : Symbol) :
    Yields F (items size inner closer) fun es => ∀ e ∈ es, e.WellFormed :=
  yields_openGroup.next fun _ => (yields_itemsFrom h closer size).bind fun _ hes =>
    (yields_closeGroup closer).next fun _ => yields_pure hes

/-- An expression in brackets. -/
theorem Yields.group (h : Yields F inner Expr.WellFormed) (closer : Symbol) {f : Expr → Parser β}
    (hf : ∀ e, e.WellFormed → Yields F (f e) R) :
    Yields F (do openGroup; let e ← inner; closeGroup closer; f e) R :=
  yields_openGroup.next fun _ => h.bind fun e he =>
    (yields_closeGroup closer).next fun _ => hf e he

theorem yields_finish {e : Expr} (he : e.WellFormed) :
    Yields F (primary.finish e) Expr.WellFormed :=
  yields_advance.next fun _ => yields_pure he

theorem Yields.primary (h : Yields F inner Expr.WellFormed) :
    Yields F (primary size inner) Expr.WellFormed := by
  refine yields_current.bind fun tok ⟨_, htok⟩ => ?_
  cases tok with
  | number x => exact yields_finish (.number x)
  | string text => exact yields_finish (.string text)
  | template parts => exact yields_finish (.template htok)
  | identifier name => exact yields_finish (.var htok.1)
  | keyword word =>
    cases word with
    | trueWord | falseWord => exact yields_finish (.boolean _)
    | noneWord => exact yields_finish .none
    | _ => exact yields_unexpected _
  | symbol sign =>
    cases sign with
    | leftParen => exact h.group _ fun _ he => yields_pure he
    | leftBracket => exact (h.items _).bind fun _ hes => yields_pure (.list hes)
    | _ => exact yields_unexpected _
  | _ => exact yields_unexpected _

theorem yields_suffixesFrom (h : Yields F inner Expr.WellFormed) : ∀ (n : Nat) {e : Expr},
    e.WellFormed → Yields F (suffixesFrom size inner n e) Expr.WellFormed
  | 0, _, he => yields_pure he
  | n + 1, e, he => by
    refine yields_current.next fun tok => ?_
    cases tok with
    | symbol sign =>
      cases sign with
      | dot =>
        refine yields_advance.next fun _ => (yields_expectName _).bind fun name hname => ?_
        refine (yields_check _).next fun found => ?_
        cases found with
        | true => exact (h.items _).bind fun args hargs =>
            yields_suffixesFrom h n (.member he hname hargs)
        | false => exact yields_suffixesFrom h n (.member he hname (List.forall_mem_nil _))
      | leftBracket => exact h.group _ fun _ hplace => yields_suffixesFrom h n (.index he hplace)
      | leftParen => exact (h.items _).bind fun _ hargs => yields_suffixesFrom h n (.call he hargs)
      | _ => exact yields_pure he
    | _ => exact yields_pure he

theorem Yields.operandOf (hinner : Yields F inner Expr.WellFormed)
    (hdeeper : Yields F deeper Expr.WellFormed) :
    Yields F (operandOf size inner deeper) Expr.WellFormed := by
  refine yields_current.next fun tok => ?_
  split
  · exact yields_advance.next fun _ => hdeeper.bind fun _ he => yields_pure (.unary he)
  · refine hinner.primary.bind fun e he => ?_
    refine (yields_suffixesFrom hinner size he).bind fun base hbase => ?_
    refine (yields_check _).next fun _ => yields_ite ?_ (yields_pure hbase)
    exact yields_advance.next fun _ => hdeeper.bind fun _ hexponent =>
      yields_pure (.binary hbase hexponent)

theorem yields_operand (size : Nat) : ∀ levels : Nat,
    Yields F (operand size levels) Expr.WellFormed
  | 0 => yields_tooDeep
  | levels + 1 =>
    ((yields_operand size levels).expressionOf.operandOf (yields_operand size levels)).nested

/-- **Expressions are well formed**, and an error points at a token of the text. -/
theorem yields_expression (size levels : Nat) :
    Yields F (expression size levels) Expr.WellFormed := (yields_operand size levels).expressionOf

end Expressions

end Parser

end CommandScript
