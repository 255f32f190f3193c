import CommandScript.Proofs.Parser.Likeness

/-!
# Proofs/Parser/Keeps — what expressions leave alone

An expression reads tokens and counts groups and levels. What neither touches is the same behind it,
also where it fails and the parser goes back to read the line in another way (`keeps_expression`).
The number of open blocks is such (`stable_blockDepth`).
-/

namespace CommandScript

namespace Parser

/-- A property of states that is left alone by reading on and by counting groups and levels. -/
structure Stable (P : State → Prop) : Prop where
  readFrom {s t : State} {acrossLines : Bool} {c : Cursor} :
    P s → s.readFrom acrossLines c = .ok t → P t
  nesting {s : State} (n : Nat) : P s → P { s with nesting := n }
  depth {s : State} (n : Nat) : P s → P { s with depth := n }

/-- The number of open blocks is such. -/
theorem stable_blockDepth (n : Nat) : Stable fun s => s.blockDepth = n where
  readFrom h hread := (readFrom_fields hread).2.1.trans h
  nesting _ h := h
  depth _ h := h

/-- A parser ended in a state with the property, with a value or not. -/
def EndsIn (P : State → Prop) {α : Type} : EStateM.Result Error State α → Prop
  | .ok _ t => P t
  | .error _ t => P t

/-- The parser keeps a property of states, also where it fails. -/
def Keeps (P : State → Prop) {α : Type} (p : Parser α) : Prop := ∀ ⦃s : State⦄, P s → EndsIn P (p s)

section Keeps

variable {P : State → Prop} {α β : Type}

theorem Keeps.bind {p : Parser α} {f : α → Parser β} (hp : Keeps P p) (hf : ∀ a, Keeps P (f a)) :
    Keeps P (p >>= f) := by
  intro s hs
  have hends := hp hs
  cases hr : p s with
  | ok a t =>
    rw [hr] at hends
    rw [bind_eq_of_ok hr]
    exact hf a hends
  | error e t =>
    rw [hr] at hends
    rwa [bind_eq_of_error hr]

theorem keeps_pure (a : α) : Keeps P (pure a) := fun _ hs => hs

theorem keeps_current : Keeps P current := fun _ hs => hs

theorem keeps_check (sign : Symbol) : Keeps P (check sign) := fun _ hs => hs

theorem keeps_unexpected (wanted : String) : Keeps P (unexpected wanted : Parser α) :=
  fun _ hs => hs

theorem keeps_tooDeep : Keeps P (tooDeep : Parser α) := fun _ hs => hs

theorem keeps_ite {c : Prop} [Decidable c] {p q : Parser α} (hp : Keeps P p) (hq : Keeps P q) :
    Keeps P (if c then p else q) := by
  split
  · exact hp
  · exact hq

variable (hP : Stable P)
include hP

theorem keeps_advance : Keeps P advance := by
  intro s hs
  unfold advance
  cases hread : s.readFrom (0 < s.nesting) s.cursor with
  | ok t => exact hP.readFrom hs hread
  | error e => exact hs

theorem keeps_nesting (f : Nat → Nat) :
    Keeps P (modify fun s => { s with nesting := f s.nesting }) := fun _ hs => hP.nesting _ hs

theorem Keeps.nested {p : Parser α} (hp : Keeps P p) : Keeps P (nested p) := by
  intro s hs
  have hends := hp (hP.depth (s.depth + 1) hs)
  unfold Parser.nested
  cases hr : p { s with depth := s.depth + 1 } with
  | ok a t =>
    rw [hr] at hends
    exact hP.depth _ hends
  | error e t =>
    rw [hr] at hends
    exact hP.depth _ hends

theorem keeps_openGroup : Keeps P openGroup :=
  (keeps_nesting hP (· + 1)).bind fun _ => keeps_advance hP

theorem keeps_closeGroup (sign : Symbol) : Keeps P (closeGroup sign) :=
  (keeps_check sign).bind fun _ => keeps_ite
    ((keeps_nesting hP (· - 1)).bind fun _ => keeps_advance hP) (keeps_unexpected _)

theorem keeps_expectName (wanted : String) : Keeps P (expectName wanted) := by
  refine keeps_current.bind fun tok => ?_
  split
  · exact (keeps_advance hP).bind fun _ => keeps_pure _
  · exact keeps_unexpected _

variable {p inner deeper : Parser Expr}

theorem keeps_chainFrom (op? : Token → Option BinaryOp) (h : Keeps P p) :
    ∀ (size : Nat) (left : Expr), Keeps P (chainFrom op? p size left)
  | 0, left => keeps_pure left
  | size + 1, left => by
    refine keeps_current.bind fun tok => ?_
    split
    · exact keeps_pure left
    · exact (keeps_advance hP).bind fun _ => h.bind fun _ => keeps_chainFrom op? h size _

theorem Keeps.chain (size : Nat) (op? : Token → Option BinaryOp) (h : Keeps P p) :
    Keeps P (chain size op? p) := h.bind fun left => keeps_chainFrom hP op? h size left

theorem Keeps.rangeOf (h : Keeps P p) : Keeps P (rangeOf p) :=
  h.bind fun _ => (keeps_check _).bind fun _ => keeps_ite
    ((keeps_advance hP).bind fun _ => h.bind fun _ => (keeps_check _).bind fun _ => keeps_ite
      ((keeps_advance hP).bind fun _ => h.bind fun _ => keeps_pure _) (keeps_pure _))
    (keeps_pure _)

theorem Keeps.expressionOf (size : Nat) (h : Keeps P p) :
    Keeps P (expressionOf size p) :=
  (((((h.chain hP size _).chain hP size _).rangeOf hP).chain hP size _).chain hP size _).chain hP
    size _

theorem keeps_itemsFrom (h : Keeps P inner) (closer : Symbol) :
    ∀ size : Nat, Keeps P (itemsFrom inner closer size)
  | 0 => keeps_pure _
  | size + 1 => (keeps_check _).bind fun _ => keeps_ite (keeps_pure _) <|
    h.bind fun _ => (keeps_check _).bind fun _ => keeps_ite
      ((keeps_advance hP).bind fun _ => (keeps_itemsFrom h closer size).bind fun _ => keeps_pure _)
      (keeps_pure _)

theorem Keeps.items (size : Nat) (h : Keeps P inner) (closer : Symbol) :
    Keeps P (items size inner closer) :=
  (keeps_openGroup hP).bind fun _ => (keeps_itemsFrom hP h closer size).bind fun _ =>
    (keeps_closeGroup hP closer).bind fun _ => keeps_pure _

theorem Keeps.primary (size : Nat) (h : Keeps P inner) : Keeps P (primary size inner) := by
  have hfinish (e : Expr) : Keeps P (primary.finish e) :=
    (keeps_advance hP).bind fun _ => keeps_pure e
  refine keeps_current.bind fun tok => ?_
  split
  case h_8 => exact (keeps_openGroup hP).bind fun _ => h.bind fun _ =>
    (keeps_closeGroup hP _).bind fun _ => keeps_pure _
  case h_9 => exact (h.items hP size _).bind fun _ => keeps_pure _
  case h_10 => exact keeps_unexpected _
  all_goals exact hfinish _

theorem keeps_suffixesFrom (bound : Nat) (h : Keeps P inner) :
    ∀ (size : Nat) (e : Expr), Keeps P (suffixesFrom bound inner size e)
  | 0, e => keeps_pure e
  | size + 1, e => by
    refine keeps_current.bind fun tok => ?_
    split
    · exact (keeps_advance hP).bind fun _ => (keeps_expectName hP _).bind fun name =>
        (keeps_check _).bind fun _ => keeps_ite
          ((h.items hP bound _).bind fun _ => keeps_suffixesFrom bound h size _)
          ((keeps_pure _).bind fun _ => keeps_suffixesFrom bound h size _)
    · exact (keeps_openGroup hP).bind fun _ => h.bind fun _ =>
        (keeps_closeGroup hP _).bind fun _ => keeps_suffixesFrom bound h size _
    · exact (h.items hP bound _).bind fun _ => keeps_suffixesFrom bound h size _
    · exact keeps_pure e

theorem Keeps.operandOf (size : Nat) (hinner : Keeps P inner) (hdeeper : Keeps P deeper) :
    Keeps P (operandOf size inner deeper) := by
  refine keeps_current.bind fun tok => ?_
  split
  · exact (keeps_advance hP).bind fun _ => hdeeper.bind fun _ => keeps_pure _
  · refine (hinner.primary hP size).bind fun _ => ?_
    refine (keeps_suffixesFrom hP size hinner size _).bind fun _ => ?_
    exact (keeps_check _).bind fun _ => keeps_ite
      ((keeps_advance hP).bind fun _ => hdeeper.bind fun _ => keeps_pure _) (keeps_pure _)

theorem keeps_operand (size : Nat) : ∀ levels : Nat, Keeps P (operand size levels)
  | 0 => keeps_tooDeep
  | levels + 1 => Keeps.nested hP (((keeps_operand size levels).expressionOf hP size).operandOf hP
      size (keeps_operand size levels))

/-- **What reading on leaves alone, an expression does, also where it fails.** -/
theorem keeps_expression (size levels : Nat) : Keeps P (expression size levels) :=
  (keeps_operand hP size levels).expressionOf hP size

end Keeps

end Parser

end CommandScript
