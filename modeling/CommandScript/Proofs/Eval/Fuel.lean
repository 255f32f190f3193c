import CommandScript.Proofs.Eval.Balance
import CommandScript.Proofs.Value.Progression
import CommandScript.Session

/-!
# Proofs/Eval/Fuel — every program ends if its ranges do

`Stmt.exec` ends because of how it is written: it recurses on the statement, on the calls that may
still be opened and on a number of rounds fixed before a loop starts. `Stmt.execWithin` promises
nothing of that kind. It spends fuel wherever it goes on to something else, looks the number of open
calls up on the machine when a function is called, runs whatever body the store holds, and goes on
with a loop for as long as there is a next item; without fuel it has no outcome. Whatever comes of
it, it says over which ranges it began to loop (`Fuelled.ranges`).

`runWithin_settles` says that for every statement and every program on every machine there is an
amount of fuel from which on the outcome is the evaluator's, if the ranges it meets end. What
decreases are the calls that may still be opened, then the program text, then what a loop has left:
the elements a list had at first, the characters of a string, or the indices up to the first that a
range does not reach. A range without an end has no such index, and a loop over it, if no round
returns or fails, has no outcome with any amount of fuel (`Fuelled.loopWithin_endless`).
-/

namespace CommandScript

/-- Computations that may run out of fuel, and have no outcome then. They list the ranges that were
met, whether they have an outcome or not. -/
def Fuelled (α : Type) := Machine → List Range × Option (EStateM.Result Error Machine α)

namespace Fuelled

variable {α β : Type}

/-- The ranges over which loops were begun. -/
def ranges (x : Fuelled α) (m : Machine) : List Range := (x m).1

/-- What came of the computation, if it had enough fuel. -/
def outcome (x : Fuelled α) (m : Machine) : Option (EStateM.Result Error Machine α) := (x m).2

/-- There is no fuel left. -/
def exhausted : Fuelled α := fun _ => ([], none)

/-- A computation that needs no fuel. -/
def lift (x : Exec α) : Fuelled α := fun m => ([], some (x m))

/-- A loop over a range is begun. -/
def meet (r : Range) : Fuelled Unit := fun m => ([r], some (.ok () m))

instance : Monad Fuelled where
  pure a := lift (pure a)
  bind x f := fun m =>
    match x m with
    | (met, some (.ok a n)) => (met ++ (f a n).1, (f a n).2)
    | (met, some (.error e n)) => (met, some (.error e n))
    | (met, none) => (met, none)

/-- Run a computation in another scope. -/
def inScope (e : ScopeRef) (x : Fuelled α) : Fuelled α := fun m =>
  (x.ranges { m with current := e },
    (x.outcome { m with current := e }).map fun result => Exec.inScope e (fun _ => result) m)

/-- Run a computation as a call. -/
def inCall (x : Fuelled α) : Fuelled α := fun m =>
  (x.ranges { m with callDepth := m.callDepth + 1 },
    (x.outcome { m with callDepth := m.callDepth + 1 }).map fun result =>
      Exec.inCall (fun _ => result) m)

theorem outcome_inScope (e : ScopeRef) (x : Fuelled α) (m : Machine) :
    (inScope e x).outcome m
      = (x.outcome { m with current := e }).map fun result => Exec.inScope e (fun _ => result) m :=
  rfl

theorem outcome_inCall (x : Fuelled α) (m : Machine) :
    (inCall x).outcome m = (x.outcome { m with callDepth := m.callDepth + 1 }).map
      fun result => Exec.inCall (fun _ => result) m := rfl

/-- Run a computation in a new scope inside the current one. -/
def inChild (x : Fuelled α) : Fuelled α := do
  inScope (← lift (Exec.newScope (← lift get).current)) x

section Bind

variable {x : Fuelled α} {f : α → Fuelled β} {m n : Machine}

theorem bind_apply (x : Fuelled α) (f : α → Fuelled β) (m : Machine) :
    (x >>= f) m = match x m with
      | (met, some (.ok a n)) => (met ++ (f a n).1, (f a n).2)
      | (met, some (.error e n)) => (met, some (.error e n))
      | (met, none) => (met, none) := rfl

theorem apply_eq {result : Option (EStateM.Result Error Machine α)} (h : x.outcome m = result) :
    x m = (x.ranges m, result) := Prod.ext rfl h

theorem outcome_bind_of_ok {a : α} (h : x.outcome m = some (.ok a n)) :
    (x >>= f).outcome m = (f a).outcome n := by
  rw [outcome, bind_apply, apply_eq h]
  rfl

theorem outcome_bind_of_error {e : Error} (h : x.outcome m = some (.error e n)) :
    (x >>= f).outcome m = some (.error e n) := by
  rw [outcome, bind_apply, apply_eq h]

theorem outcome_bind_of_none (h : x.outcome m = none) : (x >>= f).outcome m = none := by
  rw [outcome, bind_apply, apply_eq h]

/-- A sequence meets what its first part does, and then what its second part does. -/
theorem mem_ranges_bind {r : Range} : r ∈ (x >>= f).ranges m ↔
    r ∈ x.ranges m ∨ ∃ a n, x.outcome m = some (.ok a n) ∧ r ∈ (f a).ranges n := by
  unfold ranges outcome
  rw [bind_apply]
  rcases x m with ⟨met, _ | ⟨a, n⟩ | ⟨e, n⟩⟩
  · simp
  · rw [List.mem_append]
    refine or_congr_right ⟨fun h => ⟨a, n, rfl, h⟩, ?_⟩
    rintro ⟨_, _, heq, h⟩
    cases heq
    exact h
  · simp

theorem lift_pure_bind (a : α) (f : α → Fuelled β) : lift (pure a) >>= f = f a := rfl

theorem lift_bind_bind {γ : Type} (x : Exec α) (g : α → Exec β) (f : β → Fuelled γ) :
    lift (x >>= g) >>= f = lift x >>= fun a => lift (g a) >>= f := by
  funext m
  cases hx : x m with
  | ok a n => simp only [bind_apply, lift, Exec.bind_of_ok hx, hx, List.nil_append]
  | error e n => simp only [bind_apply, lift, Exec.bind_of_error hx, hx]

end Bind

end Fuelled

/-! ## The evaluator with fuel -/

/-- What a loop has still to go over. -/
inductive Supply
  /-- The values of a range from an index on. -/
  | range (r : Range) (index : UInt64)
  /-- The elements of a list from an index on, up to where the list ended at first. -/
  | list (r : ListRef) (index stop : Nat)
  | chars (cs : List Char)

namespace Supply

/-- What a loop over a value goes over. -/
def ofValue : Value → Fuelled Supply
  | .range r => do
    Fuelled.meet r
    return .range r 0
  | .list r => do return .list r 0 ((← Fuelled.lift get).store.list r).length
  | .string r => do return .chars ((← Fuelled.lift get).store.string r).toList
  | v => Fuelled.lift (throw (.type (.notIterable v.kind)))

/-- The next item and what is left behind it. A list is looked at anew each time, and the index of a
range goes round. -/
def next : Supply → Exec (Option (Value × Supply))
  | .range r i => return (r.value? i).map fun x => (.number x, .range r (i + 1))
  | .list r i stop => do
    if i < stop then return (((← get).store.list r)[i]?).map fun v => (v, .list r (i + 1) stop)
    else return none
  | .chars [] => return none
  | .chars (c :: cs) => do return some (← Exec.allocate fun store => store.newChar c, .chars cs)

end Supply

open Fuelled (lift)

mutual
/-- The value of an expression. -/
def Expr.evalWithin (host : Host) : (fuel : Nat) → Expr → Fuelled Value
  | 0, _ => .exhausted
  | _ + 1, .number x => pure (.number x)
  | _ + 1, .string s => lift (Exec.allocate fun store => store.newString s)
  | _ + 1, .template parts => do
    let text ← lift (Part.fill Exec.insertionOf parts)
    lift (Exec.allocate fun store => store.newString text)
  | _ + 1, .boolean b => pure (.boolean b)
  | _ + 1, .none => pure .none
  | _ + 1, .var name => lift (Exec.lookup name)
  | n + 1, .list items => do
    let values ← Expr.evalAllWithin host n items
    lift (Exec.allocate fun store => store.newList values)
  | n + 1, .range start stop .none => do
    let a ← lift (Exec.bound .start (← start.evalWithin host n))
    let b ← lift (Exec.bound .stop (← stop.evalWithin host n))
    lift (Exec.makeRange a b .none)
  | n + 1, .range start stop (.some step) => do
    let a ← lift (Exec.bound .start (← start.evalWithin host n))
    let b ← lift (Exec.bound .stop (← stop.evalWithin host n))
    let c ← lift (Exec.bound .step (← step.evalWithin host n))
    lift (Exec.makeRange a b (.some c))
  | n + 1, .binary op left right => do
    let a ← left.evalWithin host n
    match op with
    | .and => if ← lift (Exec.isTruthy a) then right.evalWithin host n else pure a
    | .or => if ← lift (Exec.isTruthy a) then pure a else right.evalWithin host n
    | op =>
      let b ← right.evalWithin host n
      lift (Exec.compute fun store => store.binary op a b)
  | n + 1, .unary op operand => do
    let v ← operand.evalWithin host n
    lift (Exec.look fun m => m.store.unary op v)
  | n + 1, .call callee args => do
    let f ← callee.evalWithin host n
    let values ← Expr.evalAllWithin host n args
    match f with
    | .function f => callWithin host n f values
    | v => lift (throw (.type (.notCallable v.kind)))
  | n + 1, .member receiver name args => do
    let v ← receiver.evalWithin host n
    let values ← Expr.evalAllWithin host n args
    lift (Exec.onStore fun store => store.callMember v name values)
  | n + 1, .index target place => do
    let v ← target.evalWithin host n
    let i ← place.evalWithin host n
    lift (Exec.compute fun store => store.element v i)
termination_by structural fuel => fuel

/-- The values of expressions, in order. -/
def Expr.evalAllWithin (host : Host) : (fuel : Nat) → List Expr → Fuelled (List Value)
  | 0, _ => .exhausted
  | _ + 1, [] => pure []
  | n + 1, e :: es => do
    let v ← e.evalWithin host n
    let vs ← Expr.evalAllWithin host n es
    return v :: vs
termination_by structural fuel => fuel

/-- The value of an action. -/
def Action.evalWithin (host : Host) : (fuel : Nat) → Action → Fuelled Value
  | 0, _ => .exhausted
  | n + 1, .expression e => e.evalWithin host n
  | n + 1, .command c => do
    match ← lift c.boundReading? with
    | some e => e.evalWithin host n
    | none => lift (c.capture host)
termination_by structural fuel => fuel

/-- Perform an action as a statement. -/
def Action.performWithin (host : Host) : (fuel : Nat) → Action → Fuelled Value
  | 0, _ => .exhausted
  | n + 1, .expression e => e.evalWithin host n
  | n + 1, .command c => do
    match ← lift c.boundReading? with
    | some e => e.evalWithin host n
    | none => lift (c.stream host)
termination_by structural fuel => fuel

/-- Run a statement. -/
def Stmt.execWithin (host : Host) : (fuel : Nat) → Stmt → Fuelled Flow
  | 0, _ => .exhausted
  | n + 1, .assign name value => do
    let v ← value.evalWithin host n
    lift (Exec.assign name v)
    return .normal
  | n + 1, .assignAt target place value => do
    let t ← target.evalWithin host n
    let i ← place.evalWithin host n
    let v ← value.evalWithin host n
    lift (Exec.onStore fun store => (store.setElement t i v).map fun store => ((), store))
    return .normal
  | n + 1, .perform action => do
    let _ ← action.performWithin host n
    return .normal
  | n + 1, .choose test body rest => do
    if ← lift (Exec.isTruthy (← test.evalWithin host n)) then
      .inChild (Stmt.execAllWithin host n body)
    else rest.execWithin host n
  | n + 1, .forEach name items body => do
    let supply ← Supply.ofValue (← items.evalWithin host n)
    loopWithin host n name body supply
  | _ + 1, .function name params body => do
    let e := (← lift get).current
    let f ← lift (Exec.allocate fun store => store.newFunction ⟨name, params, body, e⟩)
    lift (Exec.define name f)
    return .normal
  | _ + 1, .giveBack .none => return .returned .none
  | n + 1, .giveBack (.some value) => do return .returned (← value.evalWithin host n)
  | n + 1, .block body => .inChild (Stmt.execAllWithin host n body)
termination_by structural fuel => fuel

/-- Run what follows the block of a conditional whose test failed. -/
def Otherwise.execWithin (host : Host) : (fuel : Nat) → Otherwise → Fuelled Flow
  | 0, _ => .exhausted
  | _ + 1, .nothing => return .normal
  | n + 1, .orElse body => .inChild (Stmt.execAllWithin host n body)
  | n + 1, .orIf test body rest => do
    if ← lift (Exec.isTruthy (← test.evalWithin host n)) then
      .inChild (Stmt.execAllWithin host n body)
    else rest.execWithin host n
termination_by structural fuel => fuel

/-- Run statements up to the first that returns. -/
def Stmt.execAllWithin (host : Host) : (fuel : Nat) → List Stmt → Fuelled Flow
  | 0, _ => .exhausted
  | _ + 1, [] => return .normal
  | n + 1, s :: ss => do
    match ← s.execWithin host n with
    | .normal => Stmt.execAllWithin host n ss
    | .returned v => return .returned v
termination_by structural fuel => fuel

/-- Run the body of a loop for every item there is, up to the first round that returns. -/
def loopWithin (host : Host) : (fuel : Nat) → (name : String) → (body : List Stmt) → Supply →
    Fuelled Flow
  | 0, _, _, _ => .exhausted
  | n + 1, name, body, supply => do
    match ← lift supply.next with
    | none => return .normal
    | some (item, rest) =>
      let round : Fuelled Flow := .inChild do
        lift (Exec.define name item)
        Stmt.execAllWithin host n body
      match ← round with
      | .normal => loopWithin host n name body rest
      | .returned v => return .returned v
termination_by structural fuel => fuel

/-- Call a function, unless too many calls are open. -/
def callWithin (host : Host) : (fuel : Nat) → FunctionRef → List Value → Fuelled Value
  | 0, _, _ => .exhausted
  | n + 1, f, args => do
    let c ← lift (Exec.closure f args)
    if host.maxCallDepth ≤ (← lift get).callDepth then lift (throw (.callDepth host.maxCallDepth))
    else
      let e ← lift (Exec.newScope c.scope)
      lift (Exec.defineAll e (c.params.zip args))
      match ← Fuelled.inCall (.inScope e (Stmt.execAllWithin host n c.body)) with
      | .normal => return .none
      | .returned v => return v
termination_by structural fuel => fuel
end

/-- One round of a loop. -/
def Fuelled.roundWithin (host : Host) (name : String) (body : List Stmt) (fuel : Nat)
    (item : Value) : Fuelled Flow :=
  .inChild do
    lift (Exec.define name item)
    Stmt.execAllWithin host fuel body

/-! ## Settling

A computation settles at an amount of fuel: below it there is no outcome, and from it on the outcome
is the right one. A sequence settles when both its parts have. That the ranges met end is asked for
large amounts of fuel only, since what comes later in a sequence is reached with those. -/

namespace Fuelled

/-- With enough fuel, all ranges that are met end. -/
def RangesEnd {α : Type} (x : Nat → Fuelled α) (m : Machine) : Prop :=
  ∃ n, ∀ k, n ≤ k → ∀ r ∈ (x k).ranges m, r.Ends

/-- From some amount of fuel on, the computation has the outcome of `y`, and before it none; and it
closes the calls it opens. -/
structure Settles {α : Type} (x : Nat → Fuelled α) (y : Exec α) (m : Machine) : Prop where
  exists_fuel : ∃ n, ∀ k, (x k).outcome m = if n ≤ k then some (y m) else none
  callDepth_eq : (endOf (y m)).callDepth = m.callDepth

/-- Where `levels` calls may still be opened, the computation settles if the ranges it meets end. -/
def Meets {α : Type} (host : Host) (levels : Nat) (x : Nat → Fuelled α) (y : Exec α) : Prop :=
  ∀ m : Machine, host.maxCallDepth - m.callDepth = levels → RangesEnd x m → Settles x y m

variable {α β : Type} {x : Nat → Fuelled α} {y : Exec α} {m n : Machine}

theorem RangesEnd.left {f : Nat → α → Fuelled β} (h : RangesEnd (fun k => x k >>= f k) m) :
    RangesEnd x m := by
  obtain ⟨n, hn⟩ := h
  exact ⟨n, fun k hk r hr => hn k hk r (mem_ranges_bind.2 (.inl hr))⟩

theorem RangesEnd.right {f : Nat → α → Fuelled β} (h : RangesEnd (fun k => x k >>= f k) m)
    {a : α} {fuel : Nat} (hx : ∀ k, fuel ≤ k → (x k).outcome m = some (.ok a n)) :
    RangesEnd (fun k => f k a) n := by
  obtain ⟨fuel', hend⟩ := h
  refine ⟨max fuel fuel', fun k hk r hr => hend k (Nat.max_le.1 hk).2 r ?_⟩
  exact mem_ranges_bind.2 (.inr ⟨a, n, hx k (Nat.max_le.1 hk).1, hr⟩)

namespace Meets

variable {host : Host} {levels : Nat}

theorem prim (hy : y.Steady) : Meets host levels (fun _ => lift y) y :=
  fun m _ _ => ⟨⟨0, fun _ => rfl⟩, (hy m).callDepth⟩

theorem pure (a : α) : Meets host levels (fun _ => Pure.pure a) (Pure.pure a) := prim (.pure a)

theorem bind {f : Nat → α → Fuelled β} {g : α → Exec β} (hx : Meets host levels x y)
    (hf : ∀ a, Meets host levels (fun k => f k a) (g a)) :
    Meets host levels (fun k => x k >>= f k) (y >>= g) := by
  intro m hm hranges
  obtain ⟨⟨n, hn⟩, hend⟩ := hx m hm hranges.left
  have hnone {k : Nat} (hk : ¬ n ≤ k) : (x k >>= f k).outcome m = none :=
    outcome_bind_of_none (by rw [hn, if_neg hk])
  cases hy : y m with
  | ok a m' =>
    rw [hy] at hend hn
    have hdepth : m'.callDepth = m.callDepth := hend
    have hright := hranges.right fun k hk => by rw [hn, if_pos hk]
    obtain ⟨⟨n', hn'⟩, hend'⟩ := hf a m' ((congrArg _ hdepth).trans hm) hright
    refine ⟨⟨max n n', fun k => ?_⟩, ?_⟩
    · by_cases hk : n ≤ k
      · refine (outcome_bind_of_ok (by rw [hn, if_pos hk])).trans ((hn' k).trans ?_)
        simp only [Nat.max_le, hk, true_and, Exec.bind_of_ok hy]
      · rw [if_neg fun h => hk ((Nat.max_le.1 h).1)]
        exact hnone hk
    · rw [Exec.bind_of_ok hy]
      exact hend'.trans hdepth
  | error e m' =>
    rw [hy] at hend hn
    refine ⟨⟨n, fun k => ?_⟩, ?_⟩
    · rw [Exec.bind_of_error hy]
      by_cases hk : n ≤ k
      · rw [if_pos hk]
        exact outcome_bind_of_error (by rw [hn, if_pos hk])
      · rw [if_neg hk]
        exact hnone hk
    · rw [Exec.bind_of_error hy]
      exact hend

/-- What is done with a unit of fuel less settles a unit later. -/
theorem succ (hx : x 0 = .exhausted) (h : Meets host levels (fun k => x (k + 1)) y) :
    Meets host levels x y := by
  intro m hm hranges
  have hlater : RangesEnd (fun k => x (k + 1)) m := by
    obtain ⟨n, hn⟩ := hranges
    exact ⟨n, fun k hk => hn (k + 1) (by omega)⟩
  obtain ⟨⟨n, hn⟩, hend⟩ := h m hm hlater
  refine ⟨⟨n + 1, fun k => ?_⟩, hend⟩
  cases k with
  | zero =>
    rw [hx]
    rfl
  | succ k => exact (hn k).trans (by simp only [Nat.add_le_add_iff_right])

/-- The machine may be looked at first. -/
theorem ofGet {f : Nat → Machine → Fuelled α}
    (h : ∀ m, host.maxCallDepth - m.callDepth = levels → Meets host levels (fun k => f k m) y) :
    Meets host levels (fun k => lift get >>= f k) y := by
  intro m hm hranges
  obtain ⟨hfuel, hdepth⟩ := h m hm m hm hranges
  exact ⟨hfuel, hdepth⟩

/-- A loop that is begun over a range may rely on its end. -/
theorem ofMeet {r : Range} (h : r.Ends → Meets host levels x y) :
    Meets host levels (fun k => meet r >>= fun _ => x k) y := by
  intro m hm hranges
  obtain ⟨n, hn⟩ := hranges.left
  have hend : r.Ends := hn n n.le_refl r (List.mem_singleton_self r)
  have hmeet (k : Nat) (_ : 0 ≤ k) : (meet r).outcome m = some (.ok () m) := rfl
  obtain ⟨hfuel, hdepth⟩ := h hend m hm (hranges.right hmeet)
  exact ⟨hfuel, hdepth⟩

theorem inScope (e : ScopeRef) (h : Meets host levels x y) :
    Meets host levels (fun k => .inScope e (x k)) (Exec.inScope e y) := by
  intro m hm hranges
  obtain ⟨⟨n, hn⟩, hend⟩ := h { m with current := e } hm hranges
  refine ⟨⟨n, fun k => ?_⟩, ?_⟩
  · rw [outcome_inScope, hn]
    split <;> rfl
  · unfold Exec.inScope
    dsimp only
    cases hy : y { m with current := e } <;> rw [hy] at hend
    all_goals exact hend

/-- The body of a call runs where one call less may be opened. -/
theorem inCall (h : Meets host levels x y) :
    Meets host (levels + 1) (fun k => .inCall (x k)) (Exec.inCall y) := by
  intro m hm hranges
  obtain ⟨⟨n, hn⟩, hend⟩ :=
    h { m with callDepth := m.callDepth + 1 } (by dsimp only; omega) hranges
  refine ⟨⟨n, fun k => ?_⟩, ?_⟩
  · rw [outcome_inCall, hn]
    split <;> rfl
  · unfold Exec.inCall
    cases hy : y { m with callDepth := m.callDepth + 1 } <;> rw [hy] at hend
    all_goals exact congrArg (· - 1) hend

theorem inChild (h : Meets host levels x y) :
    Meets host levels (fun k => .inChild (x k)) (Exec.inChild y) :=
  (prim .get).bind fun _ => (prim (.newScope _)).bind fun e => h.inScope e

end Meets

end Fuelled

/-! ## Every construct settles -/

section Evaluator

open Fuelled (Meets)

variable {host : Host} {levels : Nat} {call : Caller}

/-- Calls settle where `levels` of them may still be opened. -/
def Fuelled.CallsMeet (host : Host) (levels : Nat) (call : Caller) : Prop :=
  ∀ f args, Meets host levels (fun k => callWithin host k f args) (call f args)

open Fuelled (CallsMeet)

mutual
/-- **The evaluation of an expression settles**, if calls do. -/
theorem Expr.meets (hcall : CallsMeet host levels call) :
    ∀ e : Expr, Meets host levels (fun k => e.evalWithin host k) (e.eval call)
  | .number _ => .succ rfl (.pure _)
  | .string _ => .succ rfl (.prim (.allocate _))
  | .template _ => .succ rfl ((Meets.prim (.fill _)).bind fun _ => .prim (.allocate _))
  | .boolean _ => .succ rfl (.pure _)
  | .none => .succ rfl (.pure _)
  | .var _ => .succ rfl (.prim (.look _))
  | .list items => .succ rfl ((Expr.meets_all hcall items).bind fun _ => .prim (.allocate _))
  | .range start stop .none =>
    .succ rfl ((Expr.meets hcall start).bind fun _ => (Meets.prim (.look _)).bind fun _ =>
      (Expr.meets hcall stop).bind fun _ => (Meets.prim (.look _)).bind fun _ =>
      .prim (.makeRange _ _ _))
  | .range start stop (.some step) =>
    .succ rfl ((Expr.meets hcall start).bind fun _ => (Meets.prim (.look _)).bind fun _ =>
      (Expr.meets hcall stop).bind fun _ => (Meets.prim (.look _)).bind fun _ =>
      (Expr.meets hcall step).bind fun _ => (Meets.prim (.look _)).bind fun _ =>
      .prim (.makeRange _ _ _))
  | .binary op left right => by
    have hright := Expr.meets hcall right
    refine .succ rfl ((Expr.meets hcall left).bind fun a => ?_)
    cases op
    case and =>
      refine (Meets.prim (.look _)).bind fun b => ?_
      cases b
      · exact .pure a
      · exact hright
    case or =>
      refine (Meets.prim (.look _)).bind fun b => ?_
      cases b
      · exact hright
      · exact .pure a
    all_goals exact hright.bind fun b => .prim (.compute _)
  | .unary _ operand => .succ rfl ((Expr.meets hcall operand).bind fun _ => .prim (.look _))
  | .call callee args => by
    refine .succ rfl ((Expr.meets hcall callee).bind fun f =>
      (Expr.meets_all hcall args).bind fun values => ?_)
    cases f with
    | function f => exact hcall f values
    | _ => exact .prim (.throw _)
  | .member receiver _ args =>
    .succ rfl ((Expr.meets hcall receiver).bind fun _ => (Expr.meets_all hcall args).bind fun _ =>
      .prim (.onStore _))
  | .index target place =>
    .succ rfl ((Expr.meets hcall target).bind fun _ => (Expr.meets hcall place).bind fun _ =>
      .prim (.compute _))

theorem Expr.meets_all (hcall : CallsMeet host levels call) :
    ∀ es : List Expr, Meets host levels (fun k => Expr.evalAllWithin host k es) (evalAll call es)
  | [] => .succ rfl (.pure [])
  | e :: es =>
    .succ rfl ((Expr.meets hcall e).bind fun _ => (Expr.meets_all hcall es).bind fun _ => .pure _)
end

/-- A command line runs as a primitive operation `y`, unless its other reading is taken. -/
theorem Fuelled.meets_reading (hcall : CallsMeet host levels call) (c : Command) {y : Exec Value}
    (hy : y.Steady) :
    Meets host levels
      (fun k => do
        match ← lift c.boundReading? with
        | some e => e.evalWithin host k
        | none => lift y)
      (do
        match ← c.boundReading? with
        | some e => e.eval call
        | none => y) := by
  refine (Meets.prim (.look _)).bind fun reading => ?_
  cases reading with
  | none => exact .prim hy
  | some e => exact Expr.meets hcall e

theorem Action.meets (hcall : CallsMeet host levels call) :
    ∀ a : Action, Meets host levels (fun k => a.evalWithin host k) (a.eval host call)
  | .expression e => .succ rfl (Expr.meets hcall e)
  | .command c => .succ rfl (Fuelled.meets_reading hcall c (.capture host c))

theorem Action.meets_perform (hcall : CallsMeet host levels call) :
    ∀ a : Action, Meets host levels (fun k => a.performWithin host k) (a.perform host call)
  | .expression e => .succ rfl (Expr.meets hcall e)
  | .command c => .succ rfl (Fuelled.meets_reading hcall c (.stream host c))

/-! A loop settles if its rounds do. The number of rounds it can still make is known in each case,
whatever the rounds do to the store. -/

section Loops

variable {name : String} {body : List Stmt} {round : Value → Exec Flow}

/-- Every round of the loop settles. -/
def Fuelled.RoundsMeet (host : Host) (levels : Nat) (name : String) (body : List Stmt)
    (round : Value → Exec Flow) : Prop :=
  ∀ item, Meets host levels (fun k => roundWithin host name body k item) (round item)

open Fuelled (RoundsMeet)

/-- A range that ends at an index `j` makes no round behind it, so the index does not go round. -/
theorem Fuelled.meets_loopRange (hround : RoundsMeet host levels name body round) {r : Range}
    {j : UInt64} (hj : r.value? j = none) :
    ∀ (n : Nat) (i : UInt64), i.toNat + n = UInt64.size → i.toNat ≤ j.toNat →
      Meets host levels (fun k => loopWithin host k name body (.range r i))
        (Exec.loopRange round r n i)
  | 0, i, hn, _ => absurd i.toNat_lt_size (by omega)
  | n + 1, i, hn, hi => by
    refine .succ rfl ?_
    rw [Exec.loopRange]
    simp only [loopWithin, Supply.next, Fuelled.lift_pure_bind]
    cases hvalue : r.value? i with
    | none => exact .pure _
    | some x =>
      have hne : i.toNat ≠ j.toNat := by
        intro heq
        rw [UInt64.toNat_inj.1 heq, hj] at hvalue
        cases hvalue
      have hj : j.toNat < UInt64.size := j.toNat_lt_size
      have hnext : (i + 1).toNat = i.toNat + 1 := by
        rw [UInt64.toNat_add, UInt64.toNat_one]
        exact Nat.mod_eq_of_lt (Nat.lt_of_le_of_lt (by omega) hj)
      refine (hround (.number x)).bind fun flow => ?_
      cases flow
      · exact Fuelled.meets_loopRange hround ‹_› n (i + 1) (by omega) (by omega)
      · exact .pure _

theorem Fuelled.meets_loopList (hround : RoundsMeet host levels name body round) (r : ListRef) :
    ∀ n i : Nat, Meets host levels (fun k => loopWithin host k name body (.list r i (n + i)))
      (Exec.loopList round r n i)
  | 0, i => by
    refine .succ rfl ?_
    simp only [loopWithin, Supply.next, Nat.zero_add, Nat.lt_irrefl, if_false,
      Fuelled.lift_pure_bind]
    exact .pure _
  | n + 1, i => by
    refine .succ rfl ?_
    have hlt : i < n + 1 + i := by omega
    rw [Exec.loopList]
    simp only [loopWithin, Supply.next, if_pos hlt, Fuelled.lift_bind_bind,
      Fuelled.lift_pure_bind]
    refine (Meets.prim .get).bind fun m => ?_
    cases (m.store.list r)[i]? with
    | none => exact .pure _
    | some item =>
      refine (hround item).bind fun flow => ?_
      cases flow
      · have hrest := Fuelled.meets_loopList hround r n (i + 1)
        rwa [← Nat.add_assoc, Nat.add_right_comm] at hrest
      · exact .pure _

theorem Fuelled.meets_loopChars (hround : RoundsMeet host levels name body round) :
    ∀ cs : List Char, Meets host levels (fun k => loopWithin host k name body (.chars cs))
      (Exec.loopChars round cs)
  | [] => .succ rfl (.pure _)
  | c :: cs => by
    refine .succ rfl ?_
    rw [Exec.loopChars]
    simp only [loopWithin, Supply.next, Fuelled.lift_bind_bind, Fuelled.lift_pure_bind]
    refine (Meets.prim (.allocate _)).bind fun v => (hround v).bind fun flow => ?_
    cases flow
    · exact Fuelled.meets_loopChars hround cs
    · exact .pure _

theorem Fuelled.meets_loop (hround : RoundsMeet host levels name body round) (items : Value) :
    Meets host levels
      (fun k => do
        let supply ← Supply.ofValue items
        loopWithin host k name body supply)
      (Exec.loop round items) := by
  cases items with
  | range r =>
    refine .ofMeet fun hend => ?_
    obtain ⟨j, hj⟩ := hend
    exact Fuelled.meets_loopRange hround hj _ 0 (Nat.zero_add _) (Nat.zero_le _)
  | list r =>
    exact (Meets.prim .get).bind fun m => Fuelled.meets_loopList hround r _ 0
  | string r =>
    exact (Meets.prim .get).bind fun m => Fuelled.meets_loopChars hround _
  | _ => exact .prim (.throw _)

end Loops

mutual
/-- **The run of a statement settles**, if calls do. -/
theorem Stmt.meets (hcall : CallsMeet host levels call) :
    ∀ s : Stmt, Meets host levels (fun k => s.execWithin host k) (s.exec host call)
  | .assign _ value =>
    .succ rfl ((Action.meets hcall value).bind fun _ => (Meets.prim (.assign _ _)).bind fun _ =>
      .pure _)
  | .assignAt target place value =>
    .succ rfl ((Expr.meets hcall target).bind fun _ => (Expr.meets hcall place).bind fun _ =>
      (Action.meets hcall value).bind fun _ => (Meets.prim (.onStore _)).bind fun _ => .pure _)
  | .perform action => .succ rfl ((Action.meets_perform hcall action).bind fun _ => .pure _)
  | .choose test body rest => by
    refine .succ rfl ((Expr.meets hcall test).bind fun _ => (Meets.prim (.look _)).bind fun b => ?_)
    cases b
    · exact Otherwise.meets hcall rest
    · exact (Stmt.meets_all hcall body).inChild
  | .forEach _ items body =>
    .succ rfl ((Expr.meets hcall items).bind fun v => Fuelled.meets_loop
      (fun _ => ((Meets.prim (.define _ _)).bind fun _ => Stmt.meets_all hcall body).inChild) v)
  | .function _ _ _ =>
    .succ rfl ((Meets.prim .get).bind fun _ => (Meets.prim (.allocate _)).bind fun _ =>
      (Meets.prim (.define _ _)).bind fun _ => .pure _)
  | .giveBack .none => .succ rfl (.pure _)
  | .giveBack (.some value) => .succ rfl ((Action.meets hcall value).bind fun _ => .pure _)
  | .block body => .succ rfl (Stmt.meets_all hcall body).inChild

theorem Otherwise.meets (hcall : CallsMeet host levels call) :
    ∀ o : Otherwise, Meets host levels (fun k => o.execWithin host k) (o.exec host call)
  | .nothing => .succ rfl (.pure _)
  | .orElse body => .succ rfl (Stmt.meets_all hcall body).inChild
  | .orIf test body rest => by
    refine .succ rfl ((Expr.meets hcall test).bind fun _ => (Meets.prim (.look _)).bind fun b => ?_)
    cases b
    · exact Otherwise.meets hcall rest
    · exact (Stmt.meets_all hcall body).inChild

theorem Stmt.meets_all (hcall : CallsMeet host levels call) :
    ∀ ss : List Stmt,
      Meets host levels (fun k => Stmt.execAllWithin host k ss) (Stmt.execAll host call ss)
  | [] => .succ rfl (.pure _)
  | s :: ss => by
    refine .succ rfl ((Stmt.meets hcall s).bind fun flow => ?_)
    cases flow
    · exact Stmt.meets_all hcall ss
    · exact .pure _
end

end Evaluator

/-- **Calls settle.** The induction is on the calls that may still be opened: with none left the
call is refused, and else the body runs with one less. -/
theorem callsMeet_callAt (host : Host) :
    ∀ levels : Nat, Fuelled.CallsMeet host levels (callAt host levels)
  | 0, f, args => by
    refine .succ rfl ((Fuelled.Meets.prim (.look _)).bind fun c => .ofGet fun m hm => ?_)
    simp only [if_pos (Nat.sub_eq_zero_iff_le.1 hm)]
    exact .prim (.throw _)
  | levels + 1, f, args => by
    refine .succ rfl ((Fuelled.Meets.prim (.look _)).bind fun c => .ofGet fun m hm => ?_)
    have hopen : ¬ host.maxCallDepth ≤ m.callDepth := by omega
    simp only [if_neg hopen]
    refine (Fuelled.Meets.prim (.newScope _)).bind fun e =>
      (Fuelled.Meets.prim (.defineAll e _)).bind fun _ => ?_
    have hbody := Stmt.meets_all (callsMeet_callAt host levels) c.body
    refine (hbody.inScope e).inCall.bind fun flow => ?_
    cases flow
    · exact .pure _
    · exact .pure _

/-! ## Statements and programs on any machine -/

/-- Run statements to the end or to the first that returns. -/
def Program.runFromWithin (host : Host) :
    (fuel : Nat) → Program → (last : Option Value) → Fuelled (Option Value)
  | 0, _, _ => .exhausted
  | _ + 1, [], last => pure last
  | n + 1, .perform action :: rest, _ => do
    let v ← action.performWithin host n
    Program.runFromWithin host n rest (some v)
  | n + 1, s :: rest, _ => do
    match ← s.execWithin host n with
    | .returned v => return some v
    | .normal => Program.runFromWithin host n rest none

/-- Run a program in the outermost scope. -/
def Program.runWithin (host : Host) (fuel : Nat) (p : Program) : Fuelled (Option Value) := do
  lift (modify fun m => { m with current := m.root })
  Program.runFromWithin host fuel p none

section Programs

open Fuelled (Meets)

variable {host : Host} {levels : Nat}

/-- A computation that picks its calls on the machine it starts on. -/
theorem Fuelled.Meets.ofCaller {α : Type} {x : Nat → Fuelled α} {y : Caller → Exec α}
    (h : Meets host levels x (y (callAt host levels))) :
    Meets host levels x fun m => y (host.caller m) m := by
  rintro m rfl hranges
  obtain ⟨hfuel, hdepth⟩ := h m rfl hranges
  exact ⟨hfuel, hdepth⟩

theorem Stmt.meets_run (s : Stmt) :
    Meets host levels (fun k => s.execWithin host k) (s.run host) :=
  .ofCaller (y := fun call => s.exec host call)
    (Stmt.meets (callsMeet_callAt host levels) s)

theorem Action.meets_run (a : Action) :
    Meets host levels (fun k => a.performWithin host k) (a.run host) :=
  .ofCaller (y := fun call => a.perform host call)
    (Action.meets_perform (callsMeet_callAt host levels) a)

theorem Program.meets_runFrom (p : Program) (last : Option Value) :
    Meets host levels (fun k => p.runFromWithin host k last) (p.runFrom host last) := by
  fun_induction Program.runFrom host p last with
  | case1 last => exact .succ rfl (.pure last)
  | case2 last action rest ih => exact .succ rfl ((Action.meets_run action).bind ih)
  | case3 last s rest hs ih =>
    refine .succ rfl ?_
    simp only [Program.runFromWithin]
    refine (Stmt.meets_run s).bind fun flow => ?_
    cases flow
    · exact ih
    · exact .pure _

end Programs

/-! ## Loops over ranges -/

section RangeLoops

variable {host : Host} {name : String} {body : List Stmt} {r : Range} {a b c : Float}

/-- A range is made once there is fuel for its three numbers. -/
theorem Stmt.execWithin_forRange (hmake : Range.make a b (some c) = .ok r) (k : Nat) :
    (Stmt.forEach name (.range (.number a) (.number b) (some (.number c))) body).execWithin host
        (k + 3)
      = Fuelled.meet r >>= fun _ => loopWithin host (k + 2) name body (.range r 0) := by
  have hrange : (Expr.range (.number a) (.number b) (some (.number c))).evalWithin host (k + 2)
      = pure (.range r) := by
    change lift (Exec.makeRange a b (some c)) = _
    rw [Exec.makeRange, hmake]
    rfl
  change Expr.evalWithin host (k + 2) _ >>= _ = _
  rw [hrange]
  rfl

/-- A loop meets the ranges that its rounds meet. -/
theorem Fuelled.forall_ranges_loopWithin {P : Range → Prop}
    (hbody : ∀ k m, ∀ r ∈ (Stmt.execAllWithin host k body).ranges m, P r) :
    ∀ k supply m, ∀ r ∈ (loopWithin host k name body supply).ranges m, P r
  | k + 1, supply, m, r, hr => by
    obtain hr | ⟨next, m, -, hr⟩ := mem_ranges_bind.1 hr
    · cases hr
    obtain _ | ⟨item, rest⟩ := next
    · cases hr
    obtain hr | ⟨flow, m, -, hr⟩ := mem_ranges_bind.1 hr
    · obtain hr | ⟨outer, m, -, hr⟩ := mem_ranges_bind.1 hr
      · cases hr
      obtain hr | ⟨inner, m, -, hr⟩ := mem_ranges_bind.1 hr
      · cases hr
      obtain hr | ⟨-, m, -, hr⟩ := mem_ranges_bind.1 hr
      · cases hr
      exact hbody k m r hr
    · cases flow
      · exact forall_ranges_loopWithin hbody k rest m r hr
      · cases hr

theorem Stmt.forall_ranges_forRange {P : Range → Prop} (hmake : Range.make a b (some c) = .ok r)
    (hr : P r) (hbody : ∀ k m, ∀ r ∈ (Stmt.execAllWithin host k body).ranges m, P r) (k : Nat)
    (m : Machine) :
    ∀ s ∈ ((Stmt.forEach name (.range (.number a) (.number b) (some (.number c))) body).execWithin
      host k).ranges m, P s := by
  intro s hs
  obtain _ | _ | _ | k := k
  case succ.succ.succ =>
    rw [Stmt.execWithin_forRange hmake] at hs
    obtain hs | ⟨-, m, -, hs⟩ := Fuelled.mem_ranges_bind.1 hs
    · rwa [List.mem_singleton.1 hs]
    · exact Fuelled.forall_ranges_loopWithin hbody (k + 2) _ m s hs
  all_goals cases hs

/-- **A loop over a range without an end has no outcome**, if no round returns or fails. -/
theorem Fuelled.loopWithin_endless (hr : ¬ r.Ends)
    (hround : ∀ k item m result, (roundWithin host name body k item).outcome m = some result →
      ∃ n, result = .ok .normal n) :
    ∀ k i m, (loopWithin host k name body (.range r i)).outcome m = none
  | 0, _, _ => rfl
  | k + 1, i, m => by
    obtain ⟨x, hx⟩ : ∃ x, r.value? i = some x :=
      Option.ne_none_iff_exists'.1 fun hnone => hr ⟨i, hnone⟩
    simp only [loopWithin, Supply.next, hx, Option.map_some, Fuelled.lift_pure_bind]
    cases h : (roundWithin host name body k (.number x)).outcome m with
    | none => exact outcome_bind_of_none h
    | some result =>
      obtain ⟨n, rfl⟩ := hround k _ m result h
      exact (outcome_bind_of_ok h).trans (loopWithin_endless hr hround k (i + 1) n)

theorem Stmt.outcome_endless (hmake : Range.make a b (some c) = .ok r) (hr : ¬ r.Ends) (k : Nat)
    (m : Machine) :
    ((Stmt.forEach name (.range (.number a) (.number b) (some (.number c))) []).execWithin host
      k).outcome m = none := by
  obtain _ | _ | _ | k := k
  case succ.succ.succ =>
    rw [Stmt.execWithin_forRange hmake]
    refine Fuelled.loopWithin_endless hr (fun k item m result hresult => ?_) (k + 2) 0 m
    cases k with
    | zero => cases hresult
    | succ k =>
      cases hresult
      exact ⟨_, rfl⟩
  all_goals rfl

end RangeLoops

/-- The assumption on ranges cannot be left out: this loop from zero to one never ends. -/
theorem Stmt.outcome_tinySteps (host : Host) (k : Nat) (m : Machine) :
    ((Stmt.forEach "x" (.range (.number 0) (.number 1) (some (.number 1e-200))) []).execWithin host
      k).outcome m = none := by
  obtain ⟨r, hmake, hr⟩ := Range.exists_not_ends
  exact Stmt.outcome_endless hmake hr k m

/-- **Every program ends if the ranges it meets do.** On every machine, with every launcher and
whatever functions the store holds, there is for each statement and each program an amount of fuel
from which on it has an outcome, which is the evaluator's and does not change with more fuel; with
less there is none. All that is assumed is that every range over which a loop is begun, with any
amount of fuel, ends. -/
theorem runWithin_settles (host : Host) (m : Machine) :
    (∀ s : Stmt, (∀ k, ∀ r ∈ (s.execWithin host k).ranges m, r.Ends) →
      ∃ n, ∀ k, (s.execWithin host k).outcome m = if n ≤ k then some (s.run host m) else none)
    ∧ ∀ p : Program, (∀ k, ∀ r ∈ (p.runWithin host k).ranges m, r.Ends) →
      ∃ n, ∀ k, (p.runWithin host k).outcome m = if n ≤ k then some (p.run host m) else none := by
  refine ⟨fun s hs => ?_, fun p hp => ?_⟩
  · exact (Stmt.meets_run s m rfl ⟨0, fun k _ => hs k⟩).exists_fuel
  · exact (Program.meets_runFrom p none { m with current := m.root } rfl
      ⟨0, fun k _ => hp k⟩).exists_fuel

/-- A loop over three integers settles. -/
theorem runWithin_settles_counting :
    let host : Host := ⟨.missing, [], 1⟩
    let m := Machine.start host
    let s : Stmt := .forEach "i"
      (.range (.number (.ofInt 0)) (.number (.ofInt 3)) (some (.number (.ofInt 1)))) []
    (∀ k, ∀ r ∈ (s.execWithin host k).ranges m, r.Ends)
      ∧ ∃ n, ∀ k, (s.execWithin host k).outcome m = if n ≤ k then some (s.run host m) else none := by
  intro host m s
  have hfits : Range.Fits 0 3 1 := ⟨by decide, by decide, by decide⟩
  have hlead : Range.Leads 0 3 1 := ⟨by decide, .inr rfl⟩
  have hends (k : Nat) : ∀ r ∈ (s.execWithin host k).ranges m, r.Ends := by
    refine Stmt.forall_ranges_forRange ((Range.make_ofInt_eq_ok_iff hfits _).2 ⟨hlead, rfl⟩)
      (Range.ends_ofInts hfits hlead) (fun k m r hr => ?_) k m
    cases k <;> cases hr
  exact ⟨hends, (runWithin_settles host m).1 s hends⟩

end CommandScript
