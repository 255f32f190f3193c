import CommandScript.Session

/-!
# Proofs/Eval/Tracked — evaluation with the machines it passes through

`Exec` only shows the machine at the end. `Tracked` computations also list what happened on the way:
the machine before and behind every primitive operation, and where each statement, expression and
call began and ended (`Event`). `Stmt.track` is the evaluator written over `Tracked`; forgetting the
events gives `Stmt.exec` back (`Stmt.erase_track`), so the events are those of the evaluator itself.

An operation is primitive if it runs no statement, no expression and no function.
-/

namespace CommandScript

/-- The machine a computation ends on, whether it failed or not. -/
def endOf {α : Type} : EStateM.Result Error Machine α → Machine
  | .ok _ m => m
  | .error _ m => m

theorem Machine.after_eq {α : Type} (m : Machine) (x : Exec α) : m.after x = endOf (x m) := by
  unfold Machine.after endOf
  rfl

/-- A sequence ends where its second part does, or where the first part failed. -/
theorem endOf_bind {α β : Type} (x : Exec α) (f : α → Exec β) (m : Machine) :
    (∃ a n, x m = .ok a n ∧ endOf ((x >>= f) m) = endOf (f a n))
      ∨ endOf ((x >>= f) m) = endOf (x m) := by
  change (∃ a n, x m = .ok a n ∧ endOf (EStateM.bind x f m) = endOf (f a n))
    ∨ endOf (EStateM.bind x f m) = endOf (x m)
  unfold EStateM.bind
  cases x m with
  | ok a n => exact .inl ⟨a, n, rfl, rfl⟩
  | error e n => exact .inr rfl

theorem Exec.bind_of_ok {α β : Type} {x : Exec α} {f : α → Exec β} {m n : Machine} {a : α}
    (h : x m = .ok a n) : (x >>= f) m = f a n := by
  change EStateM.bind x f m = f a n
  unfold EStateM.bind
  rw [h]

theorem Exec.bind_of_error {α β : Type} {x : Exec α} {f : α → Exec β} {m n : Machine} {e : Error}
    (h : x m = .error e n) : (x >>= f) m = .error e n := by
  change EStateM.bind x f m = .error e n
  unfold EStateM.bind
  rw [h]

/-- Something that happens during a run. -/
inductive Event
  /-- The machine stands between two primitive operations. -/
  | point (m : Machine)
  /-- A statement, an expression or a call that began on one machine ended on another. -/
  | whole (before after : Machine)

/-- Computations that list what happens while they run. -/
def Tracked (α : Type) := Machine → List Event × EStateM.Result Error Machine α

/-- How a function is called. -/
abbrev TrackedCaller := FunctionRef → List Value → Tracked Value

namespace Tracked

variable {α β : Type}

/-- What happens while the computation runs on a machine. -/
def events (x : Tracked α) (m : Machine) : List Event := (x m).1

/-- The computation alone. -/
def erase (x : Tracked α) : Exec α := fun m => (x m).2

instance : Monad Tracked where
  pure a := fun m => ([], .ok a m)
  bind x f := fun m =>
    match x m with
    | (before, .ok a m) => (before ++ (f a m).1, (f a m).2)
    | (before, .error e m) => (before, .error e m)

/-- A primitive operation. -/
def prim (x : Exec α) : Tracked α := fun m => ([.point m, .point (endOf (x m))], x m)

/-- Note where a statement, an expression or a call begins and ends. -/
def whole (x : Tracked α) : Tracked α := fun m => (.whole m (endOf (x m).2) :: (x m).1, (x m).2)

/-- Run a computation in another scope. -/
def inScope (e : ScopeRef) (x : Tracked α) : Tracked α := fun m =>
  (.point { m with current := e } :: (x { m with current := e }).1, Exec.inScope e x.erase m)

/-- Run a computation as a call. -/
def inCall (x : Tracked α) : Tracked α := fun m =>
  (.point { m with callDepth := m.callDepth + 1 } :: (x { m with callDepth := m.callDepth + 1 }).1,
    Exec.inCall x.erase m)

/-- Run a computation in a new scope inside the current one. -/
def inChild (x : Tracked α) : Tracked α := do
  let parent ← prim get
  let e ← prim (Exec.newScope parent.current)
  inScope e x

@[simp] theorem erase_pure (a : α) : (pure a : Tracked α).erase = pure a := rfl

@[simp] theorem erase_bind (x : Tracked α) (f : α → Tracked β) :
    (x >>= f).erase = x.erase >>= fun a => (f a).erase := by
  funext m
  change (match x m with
    | (before, .ok a m) => (before ++ (f a m).1, (f a m).2)
    | (before, .error e m) => (before, .error e m)).2 = EStateM.bind x.erase _ m
  unfold EStateM.bind erase
  rcases x m with ⟨_, _ | _⟩ <;> rfl

/-- What happens in a sequence happens in its first part, or in the second if it is reached. -/
theorem mem_events_bind {x : Tracked α} {f : α → Tracked β} {m : Machine} {ev : Event} :
    ev ∈ (x >>= f).events m ↔
      ev ∈ x.events m ∨ ∃ a n, x.erase m = .ok a n ∧ ev ∈ (f a).events n := by
  change ev ∈ (match x m with
    | (before, .ok a m) => (before ++ (f a m).1, (f a m).2)
    | (before, .error e m) => (before, .error e m)).1 ↔ _
  unfold events erase
  rcases x m with ⟨before, ⟨a, n⟩ | ⟨e, n⟩⟩
  · rw [List.mem_append]
    refine or_congr_right ⟨fun h => ⟨a, n, rfl, h⟩, ?_⟩
    rintro ⟨_, _, heq, h⟩
    cases heq
    exact h
  · simp

@[simp] theorem erase_prim (x : Exec α) : (prim x).erase = x := rfl

@[simp] theorem erase_whole (x : Tracked α) : x.whole.erase = x.erase := rfl

@[simp] theorem erase_inScope (e : ScopeRef) (x : Tracked α) :
    (inScope e x).erase = Exec.inScope e x.erase := rfl

@[simp] theorem erase_inCall (x : Tracked α) : x.inCall.erase = Exec.inCall x.erase := rfl

@[simp] theorem erase_inChild (x : Tracked α) : x.inChild.erase = Exec.inChild x.erase := by
  simp [inChild, Exec.inChild]

end Tracked

/-- The calls alone. -/
def TrackedCaller.erase (call : TrackedCaller) : Caller := fun f args => (call f args).erase

/-! ## Expressions -/

/-- Apply a value to arguments. -/
def Tracked.apply (call : TrackedCaller) (callee : Value) (args : List Value) : Tracked Value :=
  match callee with
  | .function f => call f args
  | v => .prim (throw (.type (.notCallable v.kind)))

mutual
/-- The value of an expression. -/
def Expr.track (call : TrackedCaller) : Expr → Tracked Value
  | .number x => .whole (pure (.number x))
  | .string s => .whole (.prim (Exec.allocate fun store => store.newString s))
  | .template parts => .whole do
    let text ← .prim (Part.fill Exec.insertionOf parts)
    .prim (Exec.allocate fun store => store.newString text)
  | .boolean b => .whole (pure (.boolean b))
  | .none => .whole (pure .none)
  | .var name => .whole (.prim (Exec.lookup name))
  | .list items => .whole do
    let values ← Expr.trackAll call items
    .prim (Exec.allocate fun store => store.newList values)
  | .range start stop .none => .whole do
    let a ← .prim (Exec.bound .start (← start.track call))
    let b ← .prim (Exec.bound .stop (← stop.track call))
    .prim (Exec.makeRange a b .none)
  | .range start stop (.some step) => .whole do
    let a ← .prim (Exec.bound .start (← start.track call))
    let b ← .prim (Exec.bound .stop (← stop.track call))
    let c ← .prim (Exec.bound .step (← step.track call))
    .prim (Exec.makeRange a b (.some c))
  | .binary op left right => .whole do
    let a ← left.track call
    match op with
    | .and => if ← .prim (Exec.isTruthy a) then right.track call else pure a
    | .or => if ← .prim (Exec.isTruthy a) then pure a else right.track call
    | op =>
      let b ← right.track call
      .prim (Exec.compute fun store => store.binary op a b)
  | .unary op operand => .whole do
    let v ← operand.track call
    .prim (Exec.look fun m => m.store.unary op v)
  | .call callee args => .whole do
    let f ← callee.track call
    let values ← Expr.trackAll call args
    .apply call f values
  | .member receiver name args => .whole do
    let v ← receiver.track call
    let values ← Expr.trackAll call args
    .prim (Exec.onStore fun store => store.callMember v name values)
  | .index target place => .whole do
    let v ← target.track call
    let i ← place.track call
    .prim (Exec.compute fun store => store.element v i)

/-- The values of expressions, in order. -/
def Expr.trackAll (call : TrackedCaller) : List Expr → Tracked (List Value)
  | [] => pure []
  | e :: es => do
    let v ← e.track call
    let vs ← Expr.trackAll call es
    return v :: vs
end

@[simp] theorem Tracked.erase_apply (call : TrackedCaller) (callee : Value) (args : List Value) :
    (Tracked.apply call callee args).erase = Exec.apply call.erase callee args := by
  cases callee <;> rfl

mutual
/-- **Forgetting the events gives the evaluator of expressions.** -/
@[simp] theorem Expr.erase_track (call : TrackedCaller) :
    ∀ e : Expr, (e.track call).erase = e.eval call.erase
  | .number _ => rfl
  | .string _ => rfl
  | .template _ => by simp [Expr.track, Expr.eval]
  | .boolean _ => rfl
  | .none => rfl
  | .var _ => rfl
  | .list items => by simp [Expr.track, Expr.eval, Expr.erase_trackAll call items]
  | .range start stop .none => by
    simp [Expr.track, Expr.eval, Expr.erase_track call start, Expr.erase_track call stop]
  | .range start stop (.some step) => by
    simp [Expr.track, Expr.eval, Expr.erase_track call start, Expr.erase_track call stop,
      Expr.erase_track call step]
  | .binary op left right => by
    cases op <;> simp only [Expr.track, Expr.eval, Tracked.erase_whole, Tracked.erase_bind,
      Tracked.erase_prim, Expr.erase_track call left, Expr.erase_track call right]
    all_goals
      refine bind_congr fun a => bind_congr fun b => ?_
      cases b <;> simp [Expr.erase_track call right]
  | .unary op operand => by simp [Expr.track, Expr.eval, Expr.erase_track call operand]
  | .call callee args => by
    simp [Expr.track, Expr.eval, Expr.erase_track call callee, Expr.erase_trackAll call args]
  | .member receiver name args => by
    simp [Expr.track, Expr.eval, Expr.erase_track call receiver, Expr.erase_trackAll call args]
  | .index target place => by
    simp [Expr.track, Expr.eval, Expr.erase_track call target, Expr.erase_track call place]

@[simp] theorem Expr.erase_trackAll (call : TrackedCaller) :
    ∀ es : List Expr, (Expr.trackAll call es).erase = Expr.evalAll call.erase es
  | [] => rfl
  | e :: es => by
    simp [Expr.trackAll, Expr.evalAll, Expr.erase_track call e, Expr.erase_trackAll call es]
end

/-! ## Actions and loops -/

/-- The value of an action. -/
def Action.track (host : Host) (call : TrackedCaller) : Action → Tracked Value
  | .expression e => e.track call
  | .command c => .whole do
    match ← .prim c.boundReading? with
    | some e => e.track call
    | none => .prim (c.capture host)

/-- Perform an action as a statement. -/
def Action.trackPerform (host : Host) (call : TrackedCaller) : Action → Tracked Value
  | .expression e => e.track call
  | .command c => .whole do
    match ← .prim c.boundReading? with
    | some e => e.track call
    | none => .prim (c.stream host)

theorem Action.erase_track (host : Host) (call : TrackedCaller) (a : Action) :
    (a.track host call).erase = a.eval host call.erase := by
  cases a with
  | expression e => exact e.erase_track call
  | command c =>
    simp only [Action.track, Action.eval, Tracked.erase_whole, Tracked.erase_bind,
      Tracked.erase_prim]
    refine bind_congr fun reading => ?_
    cases reading <;> simp

theorem Action.erase_trackPerform (host : Host) (call : TrackedCaller) (a : Action) :
    (a.trackPerform host call).erase = a.perform host call.erase := by
  cases a with
  | expression e => exact e.erase_track call
  | command c =>
    simp only [Action.trackPerform, Action.perform, Tracked.erase_whole, Tracked.erase_bind,
      Tracked.erase_prim]
    refine bind_congr fun reading => ?_
    cases reading <;> simp

namespace Tracked

/-- A loop over the values of a range from an index on, at most `n` rounds. -/
def loopRange (body : Value → Tracked Flow) (r : Range) : (n : Nat) → (i : UInt64) → Tracked Flow
  | 0, _ => pure .normal
  | n + 1, i => do
    match r.value? i with
    | none => pure .normal
    | some x =>
      match ← body (.number x) with
      | .normal => loopRange body r n (i + 1)
      | .returned v => pure (.returned v)

/-- A loop over the elements of a list from an index on, at most `n` rounds. -/
def loopList (body : Value → Tracked Flow) (r : ListRef) : (n i : Nat) → Tracked Flow
  | 0, _ => pure .normal
  | n + 1, i => do
    match ((← prim get).store.list r)[i]? with
    | none => pure .normal
    | some item =>
      match ← body item with
      | .normal => loopList body r n (i + 1)
      | .returned v => pure (.returned v)

/-- A loop over characters, each as a new string. -/
def loopChars (body : Value → Tracked Flow) : List Char → Tracked Flow
  | [] => pure .normal
  | c :: cs => do
    match ← body (← prim (Exec.allocate fun store => store.newChar c)) with
    | .normal => loopChars body cs
    | .returned v => pure (.returned v)

/-- A loop over the items of a value. -/
def loop (body : Value → Tracked Flow) (items : Value) : Tracked Flow := do
  match items with
  | .range r => loopRange body r UInt64.size 0
  | .list r => loopList body r ((← prim get).store.list r).length 0
  | .string r => loopChars body ((← prim get).store.string r).toList
  | v => prim (throw (.type (.notIterable v.kind)))

theorem erase_loopRange (body : Value → Tracked Flow) (r : Range) : ∀ (n : Nat) (i : UInt64),
    (loopRange body r n i).erase = Exec.loopRange (fun v => (body v).erase) r n i
  | 0, _ => rfl
  | n + 1, i => by
    rw [loopRange, Exec.loopRange]
    cases r.value? i with
    | none => rfl
    | some x =>
      rw [erase_bind]
      refine bind_congr fun flow => ?_
      cases flow
      · exact erase_loopRange body r n (i + 1)
      · rfl

theorem erase_loopList (body : Value → Tracked Flow) (r : ListRef) : ∀ n i : Nat,
    (loopList body r n i).erase = Exec.loopList (fun v => (body v).erase) r n i
  | 0, _ => rfl
  | n + 1, i => by
    rw [loopList, Exec.loopList, erase_bind]
    refine bind_congr fun m => ?_
    cases (m.store.list r)[i]? with
    | none => rfl
    | some item =>
      rw [erase_bind]
      refine bind_congr fun flow => ?_
      cases flow
      · exact erase_loopList body r n (i + 1)
      · rfl

theorem erase_loopChars (body : Value → Tracked Flow) : ∀ cs : List Char,
    (loopChars body cs).erase = Exec.loopChars (fun v => (body v).erase) cs
  | [] => rfl
  | c :: cs => by
    rw [loopChars, Exec.loopChars, erase_bind]
    refine bind_congr fun v => ?_
    rw [erase_bind]
    refine bind_congr fun flow => ?_
    cases flow
    · exact erase_loopChars body cs
    · rfl

theorem erase_loop (body : Value → Tracked Flow) (items : Value) :
    (loop body items).erase = Exec.loop (fun v => (body v).erase) items := by
  cases items with
  | range r => exact erase_loopRange body r UInt64.size 0
  | list r =>
    rw [loop, Exec.loop, erase_bind]
    exact bind_congr fun m => erase_loopList body r _ 0
  | string r =>
    rw [loop, Exec.loop, erase_bind]
    exact bind_congr fun m => erase_loopChars body _
  | _ => rfl

end Tracked

/-! ## Statements and calls -/

mutual
/-- Run a statement. -/
def Stmt.track (host : Host) (call : TrackedCaller) : Stmt → Tracked Flow
  | .assign name value => .whole do
    let v ← value.track host call
    .prim (Exec.assign name v)
    return .normal
  | .assignAt target place value => .whole do
    let t ← target.track call
    let i ← place.track call
    let v ← value.track host call
    .prim (Exec.onStore fun store => (store.setElement t i v).map fun store => ((), store))
    return .normal
  | .perform action => .whole do
    let _ ← action.trackPerform host call
    return .normal
  | .choose test body rest => .whole do
    if ← .prim (Exec.isTruthy (← test.track call)) then .inChild (Stmt.trackAll host call body)
    else rest.track host call
  | .forEach name items body => .whole do
    let v ← items.track call
    Tracked.loop (fun item => .inChild do
      .prim (Exec.define name item)
      Stmt.trackAll host call body) v
  | .function name params body => .whole do
    let e := (← .prim get).current
    let f ← .prim (Exec.allocate fun store => store.newFunction ⟨name, params, body, e⟩)
    .prim (Exec.define name f)
    return .normal
  | .giveBack .none => .whole (return .returned .none)
  | .giveBack (.some value) => .whole do return .returned (← value.track host call)
  | .block body => .whole (.inChild (Stmt.trackAll host call body))

/-- Run what follows the block of a conditional whose test failed. -/
def Otherwise.track (host : Host) (call : TrackedCaller) : Otherwise → Tracked Flow
  | .nothing => return .normal
  | .orElse body => .inChild (Stmt.trackAll host call body)
  | .orIf test body rest => do
    if ← .prim (Exec.isTruthy (← test.track call)) then .inChild (Stmt.trackAll host call body)
    else rest.track host call

/-- Run statements up to the first that returns. -/
def Stmt.trackAll (host : Host) (call : TrackedCaller) : List Stmt → Tracked Flow
  | [] => return .normal
  | s :: ss => do
    match ← s.track host call with
    | .normal => Stmt.trackAll host call ss
    | .returned v => return .returned v
end

mutual
/-- **Forgetting the events gives the evaluator of statements.** -/
theorem Stmt.erase_track (host : Host) (call : TrackedCaller) :
    ∀ s : Stmt, (s.track host call).erase = s.exec host call.erase
  | .assign name value => by simp [Stmt.track, Stmt.exec, Action.erase_track]
  | .assignAt target place value => by simp [Stmt.track, Stmt.exec, Action.erase_track]
  | .perform action => by simp [Stmt.track, Stmt.exec, Action.erase_trackPerform]
  | .choose test body rest => by
    simp only [Stmt.track, Stmt.exec, Tracked.erase_whole, Tracked.erase_bind, Tracked.erase_prim,
      Expr.erase_track]
    refine bind_congr fun v => bind_congr fun b => ?_
    cases b
    · simpa using Otherwise.erase_track host call rest
    · simp [Stmt.erase_trackAll host call body]
  | .forEach name items body => by
    simp only [Stmt.track, Stmt.exec, Tracked.erase_whole, Tracked.erase_bind, Expr.erase_track,
      Tracked.erase_loop, Tracked.erase_inChild, Tracked.erase_prim,
      Stmt.erase_trackAll host call body]
  | .function name params body => by simp [Stmt.track, Stmt.exec]
  | .giveBack .none => rfl
  | .giveBack (.some value) => by simp [Stmt.track, Stmt.exec, Action.erase_track]
  | .block body => by simp [Stmt.track, Stmt.exec, Stmt.erase_trackAll host call body]

theorem Otherwise.erase_track (host : Host) (call : TrackedCaller) :
    ∀ o : Otherwise, (o.track host call).erase = o.exec host call.erase
  | .nothing => rfl
  | .orElse body => by simp [Otherwise.track, Otherwise.exec, Stmt.erase_trackAll host call body]
  | .orIf test body rest => by
    simp only [Otherwise.track, Otherwise.exec, Tracked.erase_bind, Tracked.erase_prim,
      Expr.erase_track]
    refine bind_congr fun v => bind_congr fun b => ?_
    cases b
    · simpa using Otherwise.erase_track host call rest
    · simp [Stmt.erase_trackAll host call body]

theorem Stmt.erase_trackAll (host : Host) (call : TrackedCaller) :
    ∀ ss : List Stmt, (Stmt.trackAll host call ss).erase = Stmt.execAll host call.erase ss
  | [] => rfl
  | s :: ss => by
    rw [Stmt.trackAll, Stmt.execAll, Tracked.erase_bind, Stmt.erase_track host call s]
    refine bind_congr fun flow => ?_
    cases flow
    · exact Stmt.erase_trackAll host call ss
    · rfl
end

/-- Call a function, where the given number of calls may still be opened. -/
def trackCallAt (host : Host) : (levels : Nat) → TrackedCaller
  | 0, f, args => .whole do
    let _ ← .prim (Exec.closure f args)
    .prim (throw (.callDepth host.maxCallDepth))
  | levels + 1, f, args => .whole do
    let c ← .prim (Exec.closure f args)
    let e ← .prim (Exec.newScope c.scope)
    .prim (Exec.defineAll e (c.params.zip args))
    match ← Tracked.inCall (.inScope e (Stmt.trackAll host (trackCallAt host levels) c.body)) with
    | .normal => return .none
    | .returned v => return v

/-- **Forgetting the events gives the calls.** -/
theorem erase_trackCallAt (host : Host) :
    ∀ levels : Nat, TrackedCaller.erase (trackCallAt host levels) = callAt host levels
  | 0 => by
    funext f args
    simp [TrackedCaller.erase, trackCallAt, callAt]
  | levels + 1 => by
    funext f args
    simp only [TrackedCaller.erase, trackCallAt, callAt, Tracked.erase_whole, Tracked.erase_bind,
      Tracked.erase_prim, Tracked.erase_inCall, Tracked.erase_inScope, Stmt.erase_trackAll]
    refine bind_congr fun c => bind_congr fun e => bind_congr fun _ => ?_
    rw [erase_trackCallAt host levels]
    refine bind_congr fun flow => ?_
    cases flow <;> rfl

end CommandScript
