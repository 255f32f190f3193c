import CommandScript.Proofs.Eval.Balance
import Mathlib.Data.List.Induction

/-!
# Proofs/Eval/Session — between two steps a session stands in its outermost scope

A session is any sequence of steps on one machine: programs, statements, expressions, calls,
definitions and resets, each of which may fail. `session_balanced` says of all of them that every
statement, expression and call inside a step ends where it began, that never more calls are open
than the host allows, and that between two steps the machine stands in its outermost scope with no
call open.
-/

namespace CommandScript

/-- The value of an action, with calls from the machine's present depth on. -/
def Action.evaluate (host : Host) (a : Action) : Exec Value := fun m =>
  a.eval host (host.caller m) m

/-- One step of a session. -/
inductive Step
  | program (p : Program)
  | statement (s : Stmt)
  | expression (a : Action)
  | call (f : FunctionRef) (args : List Value)
  | define (name : String) (v : Value)
  | reset

/-- Take a step. -/
def Step.run (host : Host) : Step → Exec Unit
  | .program p => do let _ ← p.run host
  | .statement s => do let _ ← s.run host
  | .expression a => do let _ ← a.evaluate host
  | .call f args => do let _ ← Exec.call host f args
  | .define name v => modify fun m => m.define name v
  | .reset => Exec.reset host

/-- The machine of a session after the given steps, failed ones included. -/
def Machine.afterSteps (host : Host) (steps : List Step) : Machine :=
  steps.foldl (fun m step => m.after (step.run host)) (Machine.start host)

/-! ## Steps with what happens in them -/

/-- Calls from the machine's present depth on. -/
def Host.trackCaller (host : Host) (m : Machine) : TrackedCaller :=
  trackCallAt host (host.maxCallDepth - m.callDepth)

/-- Run a statement. -/
def Stmt.trackRun (host : Host) (s : Stmt) : Tracked Flow := fun m =>
  s.track host (host.trackCaller m) m

/-- The value of an action. -/
def Action.trackEvaluate (host : Host) (a : Action) : Tracked Value := fun m =>
  a.track host (host.trackCaller m) m

/-- Perform an action as a statement. -/
def Action.trackRun (host : Host) (a : Action) : Tracked Value := fun m =>
  a.trackPerform host (host.trackCaller m) m

/-- Call a function. -/
def Tracked.call (host : Host) (f : FunctionRef) (args : List Value) : Tracked Value := fun m =>
  host.trackCaller m f args m

/-- Run statements to the end or to the first that returns. -/
def Program.trackFrom (host : Host) : Program → (last : Option Value) → Tracked (Option Value)
  | [], last => pure last
  | .perform action :: rest, _ => do
    let v ← action.trackRun host
    Program.trackFrom host rest (some v)
  | s :: rest, _ => do
    match ← s.trackRun host with
    | .returned v => return some v
    | .normal => Program.trackFrom host rest none

/-- Run a program in the outermost scope. -/
def Program.trackRun (host : Host) (p : Program) : Tracked (Option Value) := do
  .prim (modify fun m => { m with current := m.root })
  Program.trackFrom host p none

/-- Take a step. -/
def Step.track (host : Host) : Step → Tracked Unit
  | .program p => do let _ ← p.trackRun host
  | .statement s => do let _ ← s.trackRun host
  | .expression a => do let _ ← a.trackEvaluate host
  | .call f args => do let _ ← Tracked.call host f args
  | .define name v => .prim (modify fun m => m.define name v)
  | .reset => .prim (Exec.reset host)

theorem Host.erase_trackCaller (host : Host) (m : Machine) :
    (host.trackCaller m).erase = host.caller m := erase_trackCallAt host _

theorem Stmt.erase_trackRun (host : Host) (s : Stmt) : (s.trackRun host).erase = s.run host := by
  funext m
  rw [Stmt.run, ← host.erase_trackCaller, ← Stmt.erase_track]
  rfl

theorem Action.erase_trackEvaluate (host : Host) (a : Action) :
    (a.trackEvaluate host).erase = a.evaluate host := by
  funext m
  rw [Action.evaluate, ← host.erase_trackCaller, ← Action.erase_track]
  rfl

theorem Action.erase_trackRun (host : Host) (a : Action) :
    (a.trackRun host).erase = a.run host := by
  funext m
  rw [Action.run, ← host.erase_trackCaller, ← Action.erase_trackPerform]
  rfl

theorem Tracked.erase_call (host : Host) (f : FunctionRef) (args : List Value) :
    (Tracked.call host f args).erase = Exec.call host f args := by
  funext m
  rw [Exec.call, ← host.erase_trackCaller]
  rfl

theorem Program.erase_trackFrom (host : Host) : ∀ (p : Program) (last : Option Value),
    (Program.trackFrom host p last).erase = Program.runFrom host p last := by
  intro p last
  fun_induction Program.trackFrom host p last with
  | case1 last => rfl
  | case2 last action rest ih =>
    rw [Program.runFrom, Tracked.erase_bind, Action.erase_trackRun]
    exact bind_congr fun v => ih v
  | case3 last s rest hs ih =>
    rw [Program.runFrom, Tracked.erase_bind, Stmt.erase_trackRun]
    · refine bind_congr fun flow => ?_
      cases flow
      · exact ih
      · rfl
    · exact hs

/-- **Forgetting what happens in a step gives the step.** -/
theorem Step.erase_track (host : Host) (step : Step) : (step.track host).erase = step.run host := by
  cases step with
  | program p =>
    simp only [Step.track, Step.run, Program.trackRun, Program.run, Tracked.erase_bind,
      Tracked.erase_prim, Program.erase_trackFrom, Tracked.erase_pure]
  | statement s =>
    simp only [Step.track, Step.run, Tracked.erase_bind, Stmt.erase_trackRun, Tracked.erase_pure]
  | expression a =>
    simp only [Step.track, Step.run, Tracked.erase_bind, Action.erase_trackEvaluate,
      Tracked.erase_pure]
  | call f args =>
    simp only [Step.track, Step.run, Tracked.erase_bind, Tracked.erase_call, Tracked.erase_pure]
  | define name v => rfl
  | reset => rfl

/-! ## What a step keeps

Everything but a reset runs with as many calls to open as the host allows beyond those already
open. -/

section Steps

open Tracked (Keeps)

variable {limit depth : Nat}

theorem Host.keeps_trackCaller (host : Host) {m : Machine}
    (hm : m.callDepth + (host.maxCallDepth - m.callDepth) ≤ limit) (f : FunctionRef)
    (args : List Value) : Keeps limit m.callDepth (host.trackCaller m f args) :=
  keeps_trackCallAt host limit _ _ hm f args

/-- A computation that picks its calls on the machine it starts on. -/
theorem Tracked.Keeps.ofCaller {α : Type} (host : Host)
    (h : depth + (host.maxCallDepth - depth) ≤ limit) {x : TrackedCaller → Tracked α}
    (hx : ∀ call, (∀ f args, Keeps limit depth (call f args)) → Keeps limit depth (x call)) :
    Keeps limit depth (fun m => x (host.trackCaller m) m) where
  fits m hm := by
    subst hm
    exact (hx _ (host.keeps_trackCaller h)).fits m rfl
  restores m hm := by
    subst hm
    exact (hx _ (host.keeps_trackCaller h)).restores m rfl

theorem Stmt.keeps_trackRun (host : Host) (h : depth + (host.maxCallDepth - depth) ≤ limit)
    (s : Stmt) : Keeps limit depth (s.trackRun host) :=
  .ofCaller host h fun _ hcall => Stmt.keeps_track (by omega) host hcall s

theorem Action.keeps_trackEvaluate (host : Host) (h : depth + (host.maxCallDepth - depth) ≤ limit)
    (a : Action) : Keeps limit depth (a.trackEvaluate host) :=
  .ofCaller host h fun _ hcall => Action.keeps_track (by omega) host hcall a

theorem Action.keeps_trackRun (host : Host) (h : depth + (host.maxCallDepth - depth) ≤ limit)
    (a : Action) : Keeps limit depth (a.trackRun host) :=
  .ofCaller host h fun _ hcall => Action.keeps_trackPerform (by omega) host hcall a

theorem Tracked.keeps_call (host : Host) (h : depth + (host.maxCallDepth - depth) ≤ limit)
    (f : FunctionRef) (args : List Value) : Keeps limit depth (Tracked.call host f args) :=
  .ofCaller host h fun _ hcall => hcall f args

theorem Program.keeps_trackFrom (host : Host) (h : depth + (host.maxCallDepth - depth) ≤ limit)
    (p : Program) (last : Option Value) : Keeps limit depth (Program.trackFrom host p last) := by
  fun_induction Program.trackFrom host p last with
  | case1 last => exact .pure last
  | case2 last action rest ih => exact (Action.keeps_trackRun host h action).bind ih
  | case3 last s rest hs ih =>
    refine (Stmt.keeps_trackRun host h s).bind fun flow => ?_
    cases flow
    · exact ih
    · exact .pure _

end Steps

/-- The machine stands in its outermost scope, and no call is open. -/
structure Machine.AtRest (m : Machine) : Prop where
  current : m.current = m.root
  callDepth : m.callDepth = 0

theorem Machine.AtRest.of_restores {m n : Machine} (hm : m.AtRest) (h : m.Restores n) : n.AtRest :=
  ⟨h.current.trans (hm.current.trans h.root.symm), h.callDepth.trans hm.callDepth⟩

/-! ## Steps from rest to rest -/

/-- What a step from rest does: everything in it fits the limit, and it ends at rest. -/
structure Tracked.Rests {α : Type} (limit : Nat) (m : Machine) (x : Tracked α) : Prop where
  fits : ∀ ev ∈ x.events m, ev.Fits limit
  atRest : (endOf (x.erase m)).AtRest

theorem Tracked.Keeps.rests {α : Type} {limit : Nat} {m : Machine} (hm : m.AtRest) {x : Tracked α}
    (hx : Tracked.Keeps limit 0 x) : x.Rests limit m :=
  ⟨hx.fits m hm.callDepth, hm.of_restores (hx.restores m hm.callDepth)⟩

theorem Exec.Steady.newStrings : ∀ ss : List String, Exec.Steady (Exec.newStrings ss)
  | [] => .pure []
  | _ :: ss => (Exec.Steady.allocate _).bind fun _ => (newStrings ss).bind fun _ => .pure _

/-- A reset goes to rest from anywhere: what follows the new scope only fills it. -/
theorem Exec.atRest_reset (host : Host) (m : Machine) : (endOf (Exec.reset host m)).AtRest := by
  let n : Machine := { m with
    scopes := m.scopes.newRoot.2, root := m.scopes.newRoot.1, current := m.scopes.newRoot.1,
    callDepth := 0 }
  have hn : n.AtRest := ⟨rfl, rfl⟩
  have hfill : Exec.Steady (do
      let args ← Exec.newStrings host.argv
      Exec.define "argv" (← Exec.allocate fun store => store.newList args)) :=
    (Exec.Steady.newStrings _).bind fun _ => (Exec.Steady.allocate _).bind fun _ => .define _ _
  exact hn.of_restores (hfill n)

theorem Machine.atRest_start (host : Host) : (Machine.start host).AtRest := by
  rw [Machine.start, Machine.after_eq]
  exact Exec.atRest_reset host _

/-- A step may go on after it has come to rest. -/
theorem Tracked.Rests.bind {α β : Type} {limit : Nat} {m : Machine} {x : Tracked α}
    {f : α → Tracked β} (hx : x.Rests limit m) (hf : ∀ a, Tracked.Keeps limit 0 (f a)) :
    Tracked.Rests limit m (x >>= f) where
  fits ev hev := by
    obtain h | ⟨a, n, hxm, h⟩ := Tracked.mem_events_bind.1 hev
    · exact hx.fits ev h
    · have hend := hx.atRest
      rw [hxm] at hend
      exact ((hf a).rests hend).fits ev h
  atRest := by
    have hend := hx.atRest
    rw [Tracked.erase_bind]
    obtain ⟨a, n, hxm, heq⟩ | heq := endOf_bind x.erase (fun a => (f a).erase) m
    · rw [hxm] at hend
      rw [heq]
      exact ((hf a).rests hend).atRest
    · rw [heq]
      exact hend

/-- A primitive operation that goes from rest to rest. -/
theorem Tracked.rests_prim {α : Type} {limit : Nat} {m : Machine} (hm : m.AtRest) {x : Exec α}
    (hx : (endOf (x m)).AtRest) : (Tracked.prim x).Rests limit m where
  fits ev hev := by
    rcases List.mem_cons.1 hev with rfl | h
    · exact hm.callDepth.trans_le (Nat.zero_le _)
    · rw [List.mem_singleton.1 h]
      exact hx.callDepth.trans_le (Nat.zero_le _)
  atRest := hx

/-- **A step goes from rest to rest**, and everything in it fits the limit of the host. -/
theorem Step.rests_track (host : Host) (step : Step) {m : Machine} (hm : m.AtRest) :
    (step.track host).Rests host.maxCallDepth m := by
  have hlimit : 0 + (host.maxCallDepth - 0) ≤ host.maxCallDepth := by omega
  cases step with
  | program p =>
    have hroot :
        (endOf ((modify fun m : Machine => { m with current := m.root } : Exec Unit) m)).AtRest :=
      ⟨rfl, hm.callDepth⟩
    have hrun : (p.trackRun host).Rests host.maxCallDepth m :=
      (Tracked.rests_prim hm hroot).bind fun _ => Program.keeps_trackFrom host hlimit p none
    exact hrun.bind fun _ => .pure ()
  | statement s => exact ((Stmt.keeps_trackRun host hlimit s).bind fun _ => .pure ()).rests hm
  | expression a =>
    exact ((Action.keeps_trackEvaluate host hlimit a).bind fun _ => .pure ()).rests hm
  | call f args => exact ((Tracked.keeps_call host hlimit f args).bind fun _ => .pure ()).rests hm
  | define name v => exact Tracked.rests_prim hm ⟨hm.current, hm.callDepth⟩
  | reset => exact Tracked.rests_prim hm (Exec.atRest_reset host m)

/-- Every step starts from rest. -/
theorem Machine.atRest_afterSteps (host : Host) (steps : List Step) :
    (Machine.afterSteps host steps).AtRest := by
  induction steps using List.reverseRecOn with
  | nil => exact Machine.atRest_start host
  | append_singleton steps step ih =>
    have h := (step.rests_track host ih).atRest
    rw [Step.erase_track, ← Machine.after_eq] at h
    rwa [Machine.afterSteps, List.foldl_append]

/-- A statement, an expression and a call restore the machine wherever they are run. -/
theorem Tracked.Keeps.restores_after {α : Type} {limit : Nat} {m : Machine} {x : Tracked α}
    (hx : Tracked.Keeps limit m.callDepth x) : m.Restores (m.after x.erase) := by
  rw [Machine.after_eq]
  exact hx.restores m rfl

/-- **Sessions are balanced.** A statement, an expression and a call, run on any machine, leave its
scope and its number of open calls as they were, whether they fail or not. In a session the same
holds of each of them that a step runs, however deep inside the step; no machine on the way has more
calls open than the host allows; and before, between and after the steps the machine stands in its
outermost scope with no call open. What happens in a step is read off the step itself: forgetting it
gives the step back. -/
theorem session_balanced (host : Host) :
    (∀ m : Machine, (∀ s : Stmt, m.Restores (m.after (s.run host)))
      ∧ (∀ a : Action, m.Restores (m.after (a.evaluate host)))
      ∧ ∀ f args, m.Restores (m.after (Exec.call host f args)))
    ∧ (∀ step : Step, (step.track host).erase = step.run host)
    ∧ (∀ (steps : List Step) (step : Step),
      ∀ ev ∈ (step.track host).events (Machine.afterSteps host steps), ev.Fits host.maxCallDepth)
    ∧ ∀ steps : List Step, (Machine.afterSteps host steps).AtRest := by
  refine ⟨fun m => ⟨fun s => ?_, fun a => ?_, fun f args => ?_⟩, Step.erase_track host,
    fun steps step => ?_, Machine.atRest_afterSteps host⟩
  · rw [← Stmt.erase_trackRun]
    exact (Stmt.keeps_trackRun host (Nat.le_refl _) s).restores_after
  · rw [← Action.erase_trackEvaluate]
    exact (Action.keeps_trackEvaluate host (Nat.le_refl _) a).restores_after
  · rw [← Tracked.erase_call]
    exact (Tracked.keeps_call host (Nat.le_refl _) f args).restores_after
  · exact (step.rests_track host (Machine.atRest_afterSteps host steps)).fits

end CommandScript
