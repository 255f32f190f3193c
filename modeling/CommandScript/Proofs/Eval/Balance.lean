import CommandScript.Proofs.Eval.Tracked
import Mathlib.Order.Basic

/-!
# Proofs/Eval/Balance — what a run enters it leaves

Evaluation moves the current scope and the number of open calls, and puts both back: at the end of
every statement, expression and call they are what they were at its beginning, also if it failed
(`Machine.Restores`). `Tracked.Keeps` says so of a whole run with everything in it, and that on the
way no more than `limit` calls were open. It is proved once for each way of building computations;
that the evaluator keeps it is then an induction over the program, and over the calls that may still
be opened (`keeps_trackCallAt`).
-/

namespace CommandScript

/-- The machine `after` has its outermost scope, current scope and open calls as `before` had
them. -/
structure Machine.Restores (before after : Machine) : Prop where
  root : after.root = before.root
  current : after.current = before.current
  callDepth : after.callDepth = before.callDepth

namespace Machine.Restores

variable {m n k : Machine}

theorem refl (m : Machine) : Restores m m := ⟨rfl, rfl, rfl⟩

theorem trans (h : Restores m n) (h' : Restores n k) : Restores m k :=
  ⟨h'.root.trans h.root, h'.current.trans h.current, h'.callDepth.trans h.callDepth⟩

end Machine.Restores

/-! ## Primitive operations

They change the store, the scopes or the output, and nothing else. -/

/-- A computation that restores the machine wherever it starts. -/
def Exec.Steady {α : Type} (x : Exec α) : Prop := ∀ m : Machine, m.Restores (endOf (x m))

namespace Exec.Steady

variable {α β : Type}

theorem pure (a : α) : Steady (Pure.pure a : Exec α) := fun m => .refl m

theorem throw (e : Error) : Steady (MonadExcept.throw e : Exec α) := fun m => .refl m

theorem get : Steady (MonadState.get : Exec Machine) := fun m => .refl m

theorem bind {x : Exec α} {f : α → Exec β} (hx : Steady x) (hf : ∀ a, Steady (f a)) :
    Steady (x >>= f) := by
  intro m
  have h := hx m
  obtain ⟨a, n, hm, heq⟩ | heq := endOf_bind x f m
  · rw [hm] at h
    rw [heq]
    exact h.trans (hf a n)
  · rw [heq]
    exact h

theorem look (f : Machine → Except Error α) : Steady (Exec.look f) := by
  intro m
  unfold Exec.look
  cases f m <;> exact .refl m

theorem onStore (f : Store → Except Error (α × Store)) : Steady (Exec.onStore f) := by
  intro m
  unfold Exec.onStore
  cases f m.store <;> exact ⟨rfl, rfl, rfl⟩

theorem allocate (f : Store → Value × Store) : Steady (Exec.allocate f) := fun _ => ⟨rfl, rfl, rfl⟩

theorem compute (f : Store → Except Error Fresh) : Steady (Exec.compute f) :=
  (look _).bind fun _ => allocate _

theorem assign (name : String) (v : Value) : Steady (Exec.assign name v) := fun _ => ⟨rfl, rfl, rfl⟩

theorem define (name : String) (v : Value) : Steady (Exec.define name v) := fun _ => ⟨rfl, rfl, rfl⟩

theorem write (bytes : ByteArray) : Steady (Exec.write bytes) := fun _ => ⟨rfl, rfl, rfl⟩

theorem launch (l : Launcher) (line : String) : Steady (Exec.launch l line) :=
  fun _ => ⟨rfl, rfl, rfl⟩

theorem newScope (parent : ScopeRef) : Steady (Exec.newScope parent) := fun _ => ⟨rfl, rfl, rfl⟩

theorem defineAll (e : ScopeRef) : ∀ bs : List (String × Value), Steady (Exec.defineAll e bs)
  | [] => pure ()
  | (name, v) :: rest => by
    refine bind (fun m => ?_) fun _ => defineAll e rest
    exact ⟨rfl, rfl, rfl⟩

theorem insertionOf (name : String) : Steady (Exec.insertionOf name) :=
  (look _).bind fun _ => look _

theorem fill : ∀ parts : List Part, Steady (Part.fill Exec.insertionOf parts)
  | [] => pure ""
  | .literal _ :: parts => (fill parts).bind fun _ => pure _
  | .hole name :: parts => (insertionOf name).bind fun _ => (fill parts).bind fun _ => pure _

theorem mapM_fill : ∀ words : List (List Part), Steady (words.mapM (Part.fill Exec.insertionOf))
  | [] => by
    rw [List.mapM_nil]
    exact pure []
  | w :: ws => by
    rw [List.mapM_cons]
    exact (fill w).bind fun _ => (mapM_fill ws).bind fun _ => pure _

theorem render (c : Command) : Steady c.render := (mapM_fill c.words).bind fun _ => pure _

theorem capture (host : Host) (c : Command) : Steady (c.capture host) := by
  refine (render c).bind fun line => (launch _ line).bind fun launch => ?_
  cases launch.capture line
  · exact throw _
  · exact allocate _

theorem stream (host : Host) (c : Command) : Steady (c.stream host) := by
  refine (render c).bind fun line => (launch _ line).bind fun launch => ?_
  rcases launch.stream line with ⟨bytes, _ | _⟩
  · exact (write bytes).bind fun _ => throw _
  · exact (write bytes).bind fun _ => pure _

theorem makeRange (a b : Float) (c : Option Float) : Steady (Exec.makeRange a b c) := by
  unfold Exec.makeRange
  cases Range.make a b c
  · exact throw _
  · exact pure _

end Exec.Steady

/-! ## Runs -/

/-- What may happen while at most `limit` calls are open: the machine never counts more, and
whatever begins on it ends on a machine that is restored. -/
def Event.Fits (limit : Nat) : Event → Prop
  | .point m => m.callDepth ≤ limit
  | .whole before after => before.callDepth ≤ limit ∧ before.Restores after

/-- **A run that leaves what it enters.** Where `depth` calls are open, the computation restores the
machine, and everything that happens while it runs fits the limit. -/
structure Tracked.Keeps {α : Type} (limit depth : Nat) (x : Tracked α) : Prop where
  fits : ∀ m : Machine, m.callDepth = depth → ∀ ev ∈ x.events m, ev.Fits limit
  restores : ∀ m : Machine, m.callDepth = depth → m.Restores (endOf (x.erase m))

namespace Tracked.Keeps

variable {α β : Type} {limit depth : Nat}

theorem pure (a : α) : Keeps limit depth (Pure.pure a : Tracked α) where
  fits _ _ _ h := absurd h List.not_mem_nil
  restores m _ := .refl m

theorem bind {x : Tracked α} {f : α → Tracked β} (hx : Keeps limit depth x)
    (hf : ∀ a, Keeps limit depth (f a)) : Keeps limit depth (x >>= f) where
  fits m hm ev hev := by
    obtain h | ⟨a, n, hxm, h⟩ := Tracked.mem_events_bind.1 hev
    · exact hx.fits m hm ev h
    · have hend := hx.restores m hm
      rw [hxm] at hend
      exact (hf a).fits n (hend.callDepth.trans hm) ev h
  restores m hm := by
    have hend := hx.restores m hm
    rw [Tracked.erase_bind]
    obtain ⟨a, n, hxm, heq⟩ | heq := endOf_bind x.erase (fun a => (f a).erase) m
    · rw [hxm] at hend
      rw [heq]
      exact hend.trans ((hf a).restores n (hend.callDepth.trans hm))
    · rw [heq]
      exact hend

theorem prim (hd : depth ≤ limit) {x : Exec α} (hx : x.Steady) : Keeps limit depth (.prim x) where
  fits m hm ev hev := by
    rcases List.mem_cons.1 hev with rfl | h
    · exact hm.trans_le hd
    · rw [List.mem_singleton.1 h]
      exact ((hx m).callDepth.trans hm).trans_le hd
  restores m _ := hx m

theorem whole (hd : depth ≤ limit) {x : Tracked α} (hx : Keeps limit depth x) :
    Keeps limit depth x.whole where
  fits m hm ev hev := by
    rcases List.mem_cons.1 hev with rfl | h
    · exact ⟨hm.trans_le hd, hx.restores m hm⟩
    · exact hx.fits m hm ev h
  restores := hx.restores

/-- A run in another scope comes back to the scope it left. -/
theorem inScope (hd : depth ≤ limit) (e : ScopeRef) {x : Tracked α} (hx : Keeps limit depth x) :
    Keeps limit depth (.inScope e x) where
  fits m hm ev hev := by
    rcases List.mem_cons.1 hev with rfl | h
    · exact hm.trans_le hd
    · exact hx.fits { m with current := e } hm ev h
  restores m hm := by
    have h := hx.restores { m with current := e } hm
    rw [Tracked.erase_inScope]
    unfold Exec.inScope
    dsimp only
    cases hx' : x.erase { m with current := e } <;> rw [hx'] at h
    all_goals exact ⟨h.root, rfl, h.callDepth⟩

/-- A run as a call opens one call more and closes it again. -/
theorem inCall (hd : depth + 1 ≤ limit) {x : Tracked α} (hx : Keeps limit (depth + 1) x) :
    Keeps limit depth x.inCall where
  fits m hm ev hev := by
    have hm' : m.callDepth + 1 = depth + 1 := congrArg (· + 1) hm
    rcases List.mem_cons.1 hev with rfl | h
    · exact hm'.trans_le hd
    · exact hx.fits { m with callDepth := m.callDepth + 1 } hm' ev h
  restores m hm := by
    have h := hx.restores { m with callDepth := m.callDepth + 1 } (congrArg (· + 1) hm)
    rw [Tracked.erase_inCall]
    unfold Exec.inCall
    cases hx' : x.erase { m with callDepth := m.callDepth + 1 } <;> rw [hx'] at h
    all_goals exact ⟨h.root, h.current, congrArg (· - 1) h.callDepth⟩

theorem inChild (hd : depth ≤ limit) {x : Tracked α} (hx : Keeps limit depth x) :
    Keeps limit depth x.inChild :=
  (prim hd .get).bind fun _ => (prim hd (.newScope _)).bind fun e => hx.inScope hd e

end Tracked.Keeps

/-! ## Expressions, statements and calls -/

section Evaluator

open Tracked (Keeps)

variable {limit depth : Nat} {call : TrackedCaller}

theorem Tracked.keeps_apply (hd : depth ≤ limit) (hcall : ∀ f args, Keeps limit depth (call f args))
    (callee : Value) (args : List Value) : Keeps limit depth (Tracked.apply call callee args) := by
  cases callee with
  | function f => exact hcall f args
  | _ => exact .prim hd (.throw _)

mutual
/-- **The evaluation of an expression leaves what it enters**, if calls do. -/
theorem Expr.keeps_track (hd : depth ≤ limit) (hcall : ∀ f args, Keeps limit depth (call f args)) :
    ∀ e : Expr, Keeps limit depth (e.track call)
  | .number _ => .whole hd (.pure _)
  | .string _ => .whole hd (.prim hd (.allocate _))
  | .template _ => .whole hd ((Keeps.prim hd (.fill _)).bind fun _ => .prim hd (.allocate _))
  | .boolean _ => .whole hd (.pure _)
  | .none => .whole hd (.pure _)
  | .var _ => .whole hd (.prim hd (.look _))
  | .list items =>
    .whole hd ((Expr.keeps_trackAll hd hcall items).bind fun _ => .prim hd (.allocate _))
  | .range start stop .none =>
    .whole hd ((Expr.keeps_track hd hcall start).bind fun _ =>
      (Keeps.prim hd (.look _)).bind fun _ => (Expr.keeps_track hd hcall stop).bind fun _ =>
      (Keeps.prim hd (.look _)).bind fun _ => .prim hd (.makeRange _ _ _))
  | .range start stop (.some step) =>
    .whole hd ((Expr.keeps_track hd hcall start).bind fun _ =>
      (Keeps.prim hd (.look _)).bind fun _ => (Expr.keeps_track hd hcall stop).bind fun _ =>
      (Keeps.prim hd (.look _)).bind fun _ => (Expr.keeps_track hd hcall step).bind fun _ =>
      (Keeps.prim hd (.look _)).bind fun _ => .prim hd (.makeRange _ _ _))
  | .binary op left right => by
    have hright := Expr.keeps_track hd hcall right
    refine .whole hd ((Expr.keeps_track hd hcall left).bind fun a => ?_)
    -- `&&` and `||` may leave the right operand out
    cases op
    case and =>
      refine (Keeps.prim hd (.look _)).bind fun b => ?_
      cases b
      · exact .pure a
      · exact hright
    case or =>
      refine (Keeps.prim hd (.look _)).bind fun b => ?_
      cases b
      · exact hright
      · exact .pure a
    all_goals exact hright.bind fun b => .prim hd (.compute _)
  | .unary _ operand =>
    .whole hd ((Expr.keeps_track hd hcall operand).bind fun _ => .prim hd (.look _))
  | .call callee args =>
    .whole hd ((Expr.keeps_track hd hcall callee).bind fun f =>
      (Expr.keeps_trackAll hd hcall args).bind fun values => Tracked.keeps_apply hd hcall f values)
  | .member receiver _ args =>
    .whole hd ((Expr.keeps_track hd hcall receiver).bind fun _ =>
      (Expr.keeps_trackAll hd hcall args).bind fun _ => .prim hd (.onStore _))
  | .index target place =>
    .whole hd ((Expr.keeps_track hd hcall target).bind fun _ =>
      (Expr.keeps_track hd hcall place).bind fun _ => .prim hd (.compute _))

theorem Expr.keeps_trackAll (hd : depth ≤ limit)
    (hcall : ∀ f args, Keeps limit depth (call f args)) :
    ∀ es : List Expr, Keeps limit depth (Expr.trackAll call es)
  | [] => .pure []
  | e :: es =>
    (Expr.keeps_track hd hcall e).bind fun _ => (Expr.keeps_trackAll hd hcall es).bind fun _ =>
      .pure _
end

/-- What an action does besides evaluating an expression is a primitive operation `x`. -/
theorem Tracked.keeps_reading (hd : depth ≤ limit)
    (hcall : ∀ f args, Keeps limit depth (call f args)) (c : Command) {x : Exec Value}
    (hx : x.Steady) :
    Keeps limit depth (.whole do
      match ← .prim c.boundReading? with
      | some e => e.track call
      | none => .prim x) := by
  refine .whole hd ((Keeps.prim hd (.look _)).bind fun reading => ?_)
  cases reading with
  | none => exact .prim hd hx
  | some e => exact Expr.keeps_track hd hcall e

theorem Action.keeps_track (hd : depth ≤ limit) (host : Host)
    (hcall : ∀ f args, Keeps limit depth (call f args)) :
    ∀ a : Action, Keeps limit depth (a.track host call)
  | .expression e => Expr.keeps_track hd hcall e
  | .command c => Tracked.keeps_reading hd hcall c (.capture host c)

theorem Action.keeps_trackPerform (hd : depth ≤ limit) (host : Host)
    (hcall : ∀ f args, Keeps limit depth (call f args)) :
    ∀ a : Action, Keeps limit depth (a.trackPerform host call)
  | .expression e => Expr.keeps_track hd hcall e
  | .command c => Tracked.keeps_reading hd hcall c (.stream host c)

/-! Loops keep what their bodies keep. -/

section Loops

variable {body : Value → Tracked Flow}

theorem Tracked.keeps_loopRange (hbody : ∀ v, Keeps limit depth (body v)) (r : Range) :
    ∀ (n : Nat) (i : UInt64), Keeps limit depth (Tracked.loopRange body r n i)
  | 0, _ => .pure _
  | n + 1, i => by
    rw [Tracked.loopRange]
    cases r.value? i with
    | none => exact .pure _
    | some x =>
      refine (hbody _).bind fun flow => ?_
      cases flow
      · exact Tracked.keeps_loopRange hbody r n (i + 1)
      · exact .pure _

theorem Tracked.keeps_loopList (hd : depth ≤ limit) (hbody : ∀ v, Keeps limit depth (body v))
    (r : ListRef) : ∀ n i : Nat, Keeps limit depth (Tracked.loopList body r n i)
  | 0, _ => .pure _
  | n + 1, i => by
    rw [Tracked.loopList]
    refine (Keeps.prim hd .get).bind fun m => ?_
    cases (m.store.list r)[i]? with
    | none => exact .pure _
    | some item =>
      refine (hbody item).bind fun flow => ?_
      cases flow
      · exact Tracked.keeps_loopList hd hbody r n (i + 1)
      · exact .pure _

theorem Tracked.keeps_loopChars (hd : depth ≤ limit) (hbody : ∀ v, Keeps limit depth (body v)) :
    ∀ cs : List Char, Keeps limit depth (Tracked.loopChars body cs)
  | [] => .pure _
  | c :: cs => by
    refine (Keeps.prim hd (.allocate _)).bind fun v => (hbody v).bind fun flow => ?_
    cases flow
    · exact Tracked.keeps_loopChars hd hbody cs
    · exact .pure _

theorem Tracked.keeps_loop (hd : depth ≤ limit) (hbody : ∀ v, Keeps limit depth (body v))
    (items : Value) : Keeps limit depth (Tracked.loop body items) := by
  cases items with
  | range r => exact Tracked.keeps_loopRange hbody r _ 0
  | list r => exact (Keeps.prim hd .get).bind fun _ => Tracked.keeps_loopList hd hbody r _ 0
  | string r => exact (Keeps.prim hd .get).bind fun _ => Tracked.keeps_loopChars hd hbody _
  | _ => exact .prim hd (.throw _)

end Loops

mutual
/-- **The run of a statement leaves what it enters**, if calls do. -/
theorem Stmt.keeps_track (hd : depth ≤ limit) (host : Host)
    (hcall : ∀ f args, Keeps limit depth (call f args)) :
    ∀ s : Stmt, Keeps limit depth (s.track host call)
  | .assign _ value =>
    .whole hd ((Action.keeps_track hd host hcall value).bind fun _ =>
      (Keeps.prim hd (.assign _ _)).bind fun _ => .pure _)
  | .assignAt target place value =>
    .whole hd ((Expr.keeps_track hd hcall target).bind fun _ =>
      (Expr.keeps_track hd hcall place).bind fun _ =>
      (Action.keeps_track hd host hcall value).bind fun _ =>
      (Keeps.prim hd (.onStore _)).bind fun _ => .pure _)
  | .perform action =>
    .whole hd ((Action.keeps_trackPerform hd host hcall action).bind fun _ => .pure _)
  | .choose test body rest => by
    refine .whole hd ((Expr.keeps_track hd hcall test).bind fun _ =>
      (Keeps.prim hd (.look _)).bind fun b => ?_)
    cases b
    · exact Otherwise.keeps_track hd host hcall rest
    · exact (Stmt.keeps_trackAll hd host hcall body).inChild hd
  | .forEach _ items body =>
    .whole hd ((Expr.keeps_track hd hcall items).bind fun v =>
      Tracked.keeps_loop hd (fun _ => Keeps.inChild hd
        ((Keeps.prim hd (.define _ _)).bind fun _ => Stmt.keeps_trackAll hd host hcall body)) v)
  | .function _ _ _ =>
    .whole hd ((Keeps.prim hd .get).bind fun _ => (Keeps.prim hd (.allocate _)).bind fun _ =>
      (Keeps.prim hd (.define _ _)).bind fun _ => .pure _)
  | .giveBack .none => .whole hd (.pure _)
  | .giveBack (.some value) =>
    .whole hd ((Action.keeps_track hd host hcall value).bind fun _ => .pure _)
  | .block body => .whole hd ((Stmt.keeps_trackAll hd host hcall body).inChild hd)

theorem Otherwise.keeps_track (hd : depth ≤ limit) (host : Host)
    (hcall : ∀ f args, Keeps limit depth (call f args)) :
    ∀ o : Otherwise, Keeps limit depth (o.track host call)
  | .nothing => .pure _
  | .orElse body => (Stmt.keeps_trackAll hd host hcall body).inChild hd
  | .orIf test body rest => by
    refine (Expr.keeps_track hd hcall test).bind fun _ => (Keeps.prim hd (.look _)).bind fun b => ?_
    cases b
    · exact Otherwise.keeps_track hd host hcall rest
    · exact (Stmt.keeps_trackAll hd host hcall body).inChild hd

theorem Stmt.keeps_trackAll (hd : depth ≤ limit) (host : Host)
    (hcall : ∀ f args, Keeps limit depth (call f args)) :
    ∀ ss : List Stmt, Keeps limit depth (Stmt.trackAll host call ss)
  | [] => .pure _
  | s :: ss => by
    refine (Stmt.keeps_track hd host hcall s).bind fun flow => ?_
    cases flow
    · exact Stmt.keeps_trackAll hd host hcall ss
    · exact .pure _
end

end Evaluator

/-- **A call leaves what it enters.** Calls that may still be opened and calls that are open are
never more than the limit together; the body of a function runs with one more open and one less to
open. -/
theorem keeps_trackCallAt (host : Host) (limit : Nat) : ∀ (levels depth : Nat),
    depth + levels ≤ limit → ∀ f args, (trackCallAt host levels f args).Keeps limit depth
  | 0, depth, h, f, args => by
    have hd : depth ≤ limit := h
    exact .whole hd ((Tracked.Keeps.prim hd (.look _)).bind fun _ => .prim hd (.throw _))
  | levels + 1, depth, h, f, args => by
    have hd : depth ≤ limit := by omega
    have hd' : depth + 1 ≤ limit := by omega
    refine .whole hd ((Tracked.Keeps.prim hd (.look _)).bind fun c =>
      (Tracked.Keeps.prim hd (.newScope _)).bind fun e =>
      (Tracked.Keeps.prim hd (.defineAll e _)).bind fun _ => ?_)
    have hcall := keeps_trackCallAt host limit levels (depth + 1) (by omega)
    have hbody := Stmt.keeps_trackAll hd' host hcall c.body
    refine ((hbody.inScope hd' e).inCall hd').bind fun flow => ?_
    cases flow
    · exact .pure _
    · exact .pure _

end CommandScript
