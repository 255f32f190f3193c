import CommandScript.Proofs.Eval.Tracked

/-!
# Proofs/Eval/Closed — properties that every run has

A relation between computations that links the primitive operations to themselves, and that
sequences, new scopes and calls inherit, links every expression, statement and call to itself, also
where the two sides call functions in different ways (`Exec.Linked.exec`, `Exec.Linked.callAt`). The
induction over the program is made here, once for all such relations.

A property of computations is a relation that looks at one side only: so every run has a property
that the primitive operations have (`Exec.Closed.exec`, `Exec.Closed.callAt`).
-/

namespace CommandScript

namespace Exec

/-- A computation in a new scope inside `parent`, in which names are bound first, as a call. -/
def enter {α : Type} (parent : ScopeRef) (bindings : List (String × Value)) (x : Exec α) :
    Exec α := do
  let e ← newScope parent
  defineAll e bindings
  inCall (inScope e x)

/-- The relation holds between the two sides of everything programs are made of. -/
structure Linked (R : (α : Type) → Exec α → Exec α → Prop) : Prop where
  pure {α : Type} (a : α) : R α (Pure.pure a) (Pure.pure a)
  throw {α : Type} (e : Error) : R α (MonadExcept.throw e) (MonadExcept.throw e)
  bind {α β : Type} {x y : Exec α} {f g : α → Exec β} : R α x y → (∀ a, R β (f a) (g a)) →
    R β (x >>= f) (y >>= g)
  get : R Machine MonadState.get MonadState.get
  look {α : Type} (f : Machine → Except Error α) : R α (look f) (look f)
  onStore {α : Type} (f : Store → Except Error (α × Store)) : R α (onStore f) (onStore f)
  allocate (f : Store → Value × Store) : R Value (allocate f) (allocate f)
  write (bytes : ByteArray) : R Unit (write bytes) (write bytes)
  launch (l : Launcher) (line : String) : R Launch (launch l line) (launch l line)
  assign (name : String) (v : Value) : R Unit (assign name v) (assign name v)
  define (name : String) (v : Value) : R Unit (define name v) (define name v)
  inChild {α : Type} {x y : Exec α} : R α x y → R α (inChild x) (inChild y)
  enter {α : Type} {x y : Exec α} (parent : ScopeRef) (bindings : List (String × Value)) :
    R α x y → R α (enter parent bindings x) (enter parent bindings y)

namespace Linked

variable {R : (α : Type) → Exec α → Exec α → Prop} (hR : Linked R)
include hR

/-! ## Operations on the store and command lines -/

theorem compute (f : Store → Except Error Fresh) : R Value (Exec.compute f) (Exec.compute f) :=
  hR.bind (hR.look _) fun _ => hR.allocate _

theorem makeRange (a b : Float) (c : Option Float) :
    R Value (Exec.makeRange a b c) (Exec.makeRange a b c) := by
  unfold Exec.makeRange
  cases Range.make a b c with
  | error _ => exact hR.throw _
  | ok _ => exact hR.pure _

theorem fill : ∀ parts : List Part,
    R String (Part.fill Exec.insertionOf parts) (Part.fill Exec.insertionOf parts)
  | [] => hR.pure ""
  | .literal _ :: parts => hR.bind (fill parts) fun _ => hR.pure _
  | .hole _ :: parts =>
    hR.bind (hR.bind (hR.look _) fun _ => hR.look _) fun _ => hR.bind (fill parts) fun _ =>
      hR.pure _

theorem render (c : Command) : R String c.render c.render := by
  refine hR.bind ?_ fun _ => hR.pure _
  induction c.words with
  | nil =>
    rw [List.mapM_nil]
    exact hR.pure []
  | cons w ws ih =>
    rw [List.mapM_cons]
    exact hR.bind (hR.fill w) fun _ => hR.bind ih fun _ => hR.pure _

/-- Two hosts that launch commands alike, as far as programs can tell: how many calls may be open
shows only when a function is called. -/
theorem capture {host host' : Host} (hhost : host'.launcher = host.launcher) (c : Command) :
    R Value (c.capture host) (c.capture host') := by
  rw [Command.capture, Command.capture, hhost]
  refine hR.bind (hR.render c) fun line => hR.bind (hR.launch _ line) fun launch => ?_
  cases launch.capture line with
  | error _ => exact hR.throw _
  | ok _ => exact hR.allocate _

theorem stream {host host' : Host} (hhost : host'.launcher = host.launcher) (c : Command) :
    R Value (c.stream host) (c.stream host') := by
  rw [Command.stream, Command.stream, hhost]
  refine hR.bind (hR.render c) fun line => hR.bind (hR.launch _ line) fun launch => ?_
  rcases launch.stream line with ⟨bytes, _ | _⟩
  · exact hR.bind (hR.write bytes) fun _ => hR.throw _
  · exact hR.bind (hR.write bytes) fun _ => hR.pure _

/-! ## Expressions, statements and calls -/

section Evaluator

variable {call call' : Caller}

mutual
theorem eval (hcall : ∀ f args, R Value (call f args) (call' f args)) :
    ∀ e : Expr, R Value (e.eval call) (e.eval call')
  | .number _ => hR.pure _
  | .string _ => hR.allocate _
  | .template _ => hR.bind (hR.fill _) fun _ => hR.allocate _
  | .boolean _ => hR.pure _
  | .none => hR.pure _
  | .var _ => hR.look _
  | .list items => hR.bind (evalAll hcall items) fun _ => hR.allocate _
  | .range start stop .none =>
    hR.bind (eval hcall start) fun _ => hR.bind (hR.look _) fun _ =>
      hR.bind (eval hcall stop) fun _ => hR.bind (hR.look _) fun _ => hR.makeRange _ _ _
  | .range start stop (.some step) =>
    hR.bind (eval hcall start) fun _ => hR.bind (hR.look _) fun _ =>
      hR.bind (eval hcall stop) fun _ => hR.bind (hR.look _) fun _ =>
      hR.bind (eval hcall step) fun _ => hR.bind (hR.look _) fun _ => hR.makeRange _ _ _
  | .binary op left right => by
    have hright := eval hcall right
    refine hR.bind (eval hcall left) fun a => ?_
    cases op
    case and =>
      refine hR.bind (hR.look _) fun b => ?_
      cases b
      · exact hR.pure a
      · exact hright
    case or =>
      refine hR.bind (hR.look _) fun b => ?_
      cases b
      · exact hright
      · exact hR.pure a
    all_goals exact hR.bind hright fun b => hR.compute _
  | .unary _ operand => hR.bind (eval hcall operand) fun _ => hR.look _
  | .call callee args => by
    refine hR.bind (eval hcall callee) fun f => hR.bind (evalAll hcall args) fun values => ?_
    cases f with
    | function f => exact hcall f values
    | _ => exact hR.throw _
  | .member receiver _ args =>
    hR.bind (eval hcall receiver) fun _ => hR.bind (evalAll hcall args) fun _ => hR.onStore _
  | .index target place =>
    hR.bind (eval hcall target) fun _ => hR.bind (eval hcall place) fun _ => hR.compute _

theorem evalAll (hcall : ∀ f args, R Value (call f args) (call' f args)) :
    ∀ es : List Expr, R (List Value) (Expr.evalAll call es) (Expr.evalAll call' es)
  | [] => hR.pure []
  | e :: es => hR.bind (eval hcall e) fun _ => hR.bind (evalAll hcall es) fun _ => hR.pure _
end

variable {host host' : Host}

theorem evalAction (hcall : ∀ f args, R Value (call f args) (call' f args))
    (hhost : host'.launcher = host.launcher) :
    ∀ a : Action, R Value (a.eval host call) (a.eval host' call')
  | .expression e => hR.eval hcall e
  | .command c => by
    refine hR.bind (hR.look _) fun reading => ?_
    cases reading with
    | none => exact hR.capture hhost c
    | some e => exact hR.eval hcall e

theorem performAction (hcall : ∀ f args, R Value (call f args) (call' f args))
    (hhost : host'.launcher = host.launcher) :
    ∀ a : Action, R Value (a.perform host call) (a.perform host' call')
  | .expression e => hR.eval hcall e
  | .command c => by
    refine hR.bind (hR.look _) fun reading => ?_
    cases reading with
    | none => exact hR.stream hhost c
    | some e => exact hR.eval hcall e

end Evaluator

section Loops

variable {body body' : Value → Exec Flow} (hbody : ∀ v, R Flow (body v) (body' v))
include hbody

theorem loopRange (r : Range) : ∀ (n : Nat) (i : UInt64),
    R Flow (Exec.loopRange body r n i) (Exec.loopRange body' r n i)
  | 0, _ => hR.pure _
  | n + 1, i => by
    rw [Exec.loopRange, Exec.loopRange]
    cases r.value? i with
    | none => exact hR.pure _
    | some x =>
      refine hR.bind (hbody _) fun flow => ?_
      cases flow
      · exact loopRange r n (i + 1)
      · exact hR.pure _

theorem loopList (r : ListRef) : ∀ n i : Nat,
    R Flow (Exec.loopList body r n i) (Exec.loopList body' r n i)
  | 0, _ => hR.pure _
  | n + 1, i => by
    rw [Exec.loopList, Exec.loopList]
    refine hR.bind hR.get fun m => ?_
    cases (m.store.list r)[i]? with
    | none => exact hR.pure _
    | some item =>
      refine hR.bind (hbody item) fun flow => ?_
      cases flow
      · exact loopList r n (i + 1)
      · exact hR.pure _

theorem loopChars : ∀ cs : List Char, R Flow (Exec.loopChars body cs) (Exec.loopChars body' cs)
  | [] => hR.pure _
  | c :: cs => by
    refine hR.bind (hR.allocate _) fun v => hR.bind (hbody v) fun flow => ?_
    cases flow
    · exact loopChars cs
    · exact hR.pure _

theorem loop (items : Value) : R Flow (Exec.loop body items) (Exec.loop body' items) := by
  cases items with
  | range r => exact hR.loopRange hbody r _ 0
  | list r => exact hR.bind hR.get fun _ => hR.loopList hbody r _ 0
  | string r => exact hR.bind hR.get fun _ => hR.loopChars hbody _
  | _ => exact hR.throw _

end Loops

section Statements

variable {call call' : Caller} {host host' : Host}

mutual
/-- **The two sides of every statement are linked**, if calls are. -/
theorem exec (hcall : ∀ f args, R Value (call f args) (call' f args))
    (hhost : host'.launcher = host.launcher) :
    ∀ s : Stmt, R Flow (s.exec host call) (s.exec host' call')
  | .assign _ value =>
    hR.bind (hR.evalAction hcall hhost value) fun _ => hR.bind (hR.assign _ _) fun _ => hR.pure _
  | .assignAt target place value =>
    hR.bind (hR.eval hcall target) fun _ => hR.bind (hR.eval hcall place) fun _ =>
      hR.bind (hR.evalAction hcall hhost value) fun _ => hR.bind (hR.onStore _) fun _ => hR.pure _
  | .perform action => hR.bind (hR.performAction hcall hhost action) fun _ => hR.pure _
  | .choose test body rest => by
    refine hR.bind (hR.eval hcall test) fun _ => hR.bind (hR.look _) fun b => ?_
    cases b
    · exact execOtherwise hcall hhost rest
    · exact hR.inChild (execAll hcall hhost body)
  | .forEach _ items body =>
    hR.bind (hR.eval hcall items) fun v => hR.loop
      (fun _ => hR.inChild (hR.bind (hR.define _ _) fun _ => execAll hcall hhost body)) v
  | .function _ _ _ =>
    hR.bind hR.get fun _ => hR.bind (hR.allocate _) fun _ => hR.bind (hR.define _ _) fun _ =>
      hR.pure _
  | .giveBack .none => hR.pure _
  | .giveBack (.some value) => hR.bind (hR.evalAction hcall hhost value) fun _ => hR.pure _
  | .block body => hR.inChild (execAll hcall hhost body)

theorem execOtherwise (hcall : ∀ f args, R Value (call f args) (call' f args))
    (hhost : host'.launcher = host.launcher) :
    ∀ o : Otherwise, R Flow (o.exec host call) (o.exec host' call')
  | .nothing => hR.pure _
  | .orElse body => hR.inChild (execAll hcall hhost body)
  | .orIf test body rest => by
    refine hR.bind (hR.eval hcall test) fun _ => hR.bind (hR.look _) fun b => ?_
    cases b
    · exact execOtherwise hcall hhost rest
    · exact hR.inChild (execAll hcall hhost body)

theorem execAll (hcall : ∀ f args, R Value (call f args) (call' f args))
    (hhost : host'.launcher = host.launcher) :
    ∀ ss : List Stmt, R Flow (Stmt.execAll host call ss) (Stmt.execAll host' call' ss)
  | [] => hR.pure _
  | s :: ss => by
    refine hR.bind (exec hcall hhost s) fun flow => ?_
    cases flow
    · exact execAll hcall hhost ss
    · exact hR.pure _
end

/-- **The two sides of a call are linked**, if calls are where one less may be opened. -/
theorem callAt {levels levels' : Nat} (hhost : host'.launcher = host.launcher)
    (hcall : ∀ f args, R Value (CommandScript.callAt host levels f args)
      (CommandScript.callAt host' levels' f args))
    (f : FunctionRef) (args : List Value) :
    R Value (CommandScript.callAt host (levels + 1) f args)
      (CommandScript.callAt host' (levels' + 1) f args) := by
  refine hR.bind (hR.look _) fun c => ?_
  have henter (after : Flow → Exec Value) (hafter : ∀ flow, R Value (after flow) (after flow)) :=
    hR.bind (hR.enter c.scope (c.params.zip args) (hR.execAll hcall hhost c.body)) hafter
  simp only [Exec.enter, bind_assoc] at henter
  refine henter _ fun flow => ?_
  cases flow <;> exact hR.pure _

end Statements

end Linked

/-! ## Properties -/

/-- The property holds of everything programs are made of. -/
structure Closed (P : (α : Type) → Exec α → Prop) : Prop where
  pure {α : Type} (a : α) : P α (Pure.pure a)
  throw {α : Type} (e : Error) : P α (MonadExcept.throw e)
  bind {α β : Type} {x : Exec α} {f : α → Exec β} : P α x → (∀ a, P β (f a)) → P β (x >>= f)
  get : P Machine MonadState.get
  look {α : Type} (f : Machine → Except Error α) : P α (look f)
  onStore {α : Type} (f : Store → Except Error (α × Store)) : P α (onStore f)
  allocate (f : Store → Value × Store) : P Value (allocate f)
  write (bytes : ByteArray) : P Unit (write bytes)
  launch (l : Launcher) (line : String) : P Launch (launch l line)
  assign (name : String) (v : Value) : P Unit (assign name v)
  define (name : String) (v : Value) : P Unit (define name v)
  inChild {α : Type} {x : Exec α} : P α x → P α (inChild x)
  enter {α : Type} {x : Exec α} (parent : ScopeRef) (bindings : List (String × Value)) :
    P α x → P α (enter parent bindings x)

namespace Closed

variable {P : (α : Type) → Exec α → Prop} (hP : Closed P)
include hP

theorem linked : Linked fun α x _ => P α x where
  pure := hP.pure
  throw := hP.throw
  bind hx hf := hP.bind hx hf
  get := hP.get
  look := hP.look
  onStore := hP.onStore
  allocate := hP.allocate
  write := hP.write
  launch := hP.launch
  assign := hP.assign
  define := hP.define
  inChild hx := hP.inChild hx
  enter parent bindings hx := hP.enter parent bindings hx

/-- **Every statement has the property**, if calls do. -/
theorem exec {call : Caller} (hcall : ∀ f args, P Value (call f args)) (host : Host) (s : Stmt) :
    P Flow (s.exec host call) :=
  @Linked.exec _ hP.linked call call host host hcall rfl s

/-- **Every call has the property.** The body of a function is none of the program at hand, so the
induction is on the calls that may still be opened. -/
theorem callAt (host : Host) : ∀ (levels : Nat) (f : FunctionRef) (args : List Value),
    P Value (CommandScript.callAt host levels f args)
  | 0, _, _ => hP.bind (hP.look _) fun _ => hP.throw _
  | levels + 1, f, args =>
    @Linked.callAt _ hP.linked host host levels levels rfl (callAt host levels) f args

end Closed

end Exec

end CommandScript
