import CommandScript.Proofs.Eval.Closed

/-!
# Proofs/Eval/Depth — runs that fit their call depth

How many calls may be open shows in a run only as the error that one call too many makes. No
operation stops that error on its way out of the program, so a run that does not end with it never
met it, and every run under a higher limit does the same, step for step. `Exec.Deepens` says so of
two computations; it links the evaluator under the one limit with the evaluator under the other
(`Exec.linked_deepens`), and from there it is carried over whole programs
(`Program.run_eq_of_fits`).
-/

namespace CommandScript

/-- Whether a run did not end because too many calls were open. -/
def fits {α : Type} : EStateM.Result Error Machine α → Bool
  | .error (.callDepth _) _ => false
  | _ => true

/-- An error fits or not, wherever it is met. -/
theorem fits_error {α β : Type} (e : Error) (m n : Machine) :
    fits (.error e m : EStateM.Result Error Machine α)
      = fits (.error e n : EStateM.Result Error Machine β) := by
  cases e <;> rfl

namespace Exec

variable {α β : Type}

theorem fits_inScope (e : ScopeRef) (x : Exec α) (m : Machine) :
    fits (inScope e x m) = fits (x { m with current := e }) := by
  unfold inScope
  dsimp only
  cases x { m with current := e } with
  | ok => rfl
  | error err n => exact fits_error err _ n

theorem fits_inCall (x : Exec α) (m : Machine) :
    fits (inCall x m) = fits (x { m with callDepth := m.callDepth + 1 }) := by
  unfold inCall
  cases x { m with callDepth := m.callDepth + 1 } with
  | ok => rfl
  | error err n => exact fits_error err _ n

/-- The second computation does what the first one does wherever the first one fits. -/
def Deepens (α : Type) (x y : Exec α) : Prop := ∀ m, fits (x m) = true → y m = x m

namespace Deepens

theorem refl (x : Exec α) : Deepens α x x := fun _ _ => rfl

/-- A sequence fits only if its first part does: an error of the first part is the sequence's. -/
theorem bind {x y : Exec α} {f g : α → Exec β} (hx : Deepens α x y)
    (hf : ∀ a, Deepens β (f a) (g a)) : Deepens β (x >>= f) (y >>= g) := by
  intro m hfits
  have hxy := hx m
  cases hxm : x m with
  | ok a n =>
    rw [hxm] at hxy
    rw [bind_of_ok hxm] at hfits ⊢
    rw [bind_of_ok (hxy rfl)]
    exact hf a n hfits
  | error e n =>
    rw [hxm] at hxy
    rw [bind_of_error hxm] at hfits ⊢
    exact bind_of_error (hxy ((fits_error e n n).trans hfits))

theorem inScope {x y : Exec α} (e : ScopeRef) (h : Deepens α x y) :
    Deepens α (inScope e x) (inScope e y) := by
  intro m hfits
  rw [fits_inScope] at hfits
  simp only [Exec.inScope, h _ hfits]

theorem inCall {x y : Exec α} (h : Deepens α x y) : Deepens α (inCall x) (inCall y) := by
  intro m hfits
  rw [fits_inCall] at hfits
  simp only [Exec.inCall, h _ hfits]

end Deepens

/-- **No operation stops the error of too many calls.** -/
theorem linked_deepens : Linked Deepens where
  pure _ := .refl _
  throw _ := .refl _
  bind := .bind
  get := .refl _
  look _ := .refl _
  onStore _ := .refl _
  allocate _ := .refl _
  write _ := .refl _
  launch _ _ := .refl _
  assign _ _ := .refl _
  define _ _ := .refl _
  inChild h := .bind (.refl _) fun _ => .bind (.refl _) fun e => h.inScope e
  enter _ _ h := .bind (.refl _) fun e => .bind (.refl _) fun _ => (h.inScope e).inCall

/-- A call that may not be opened fits only if it fails before, and then any call of the function
with these arguments fails so. -/
theorem deepens_callAt_zero (host host' : Host) (levels : Nat) (f : FunctionRef)
    (args : List Value) : Deepens Value (callAt host 0 f args) (callAt host' levels f args) := by
  intro m hfits
  cases hclosure : closure f args m with
  | ok c n =>
    have hdeep : callAt host 0 f args m = .error (.callDepth host.maxCallDepth) n :=
      bind_of_ok hclosure
    rw [hdeep] at hfits
    exact absurd hfits Bool.false_ne_true
  | error e n =>
    refine Eq.trans ?_ (bind_of_error hclosure).symm
    cases levels <;> exact bind_of_error hclosure

/-- The induction is on the calls that may still be opened on the side that has fewer of them. -/
theorem deepens_callAt {host host' : Host} (hhost : host'.launcher = host.launcher) :
    ∀ {levels levels' : Nat}, levels ≤ levels' → ∀ f args,
      Deepens Value (callAt host levels f args) (callAt host' levels' f args)
  | 0, levels', _ => deepens_callAt_zero host host' levels'
  | _ + 1, _ + 1, hle =>
    linked_deepens.callAt hhost (deepens_callAt hhost (Nat.le_of_succ_le_succ hle))

section Runs

variable {host host' : Host} (hhost : host'.launcher = host.launcher)
  (hlimit : host.maxCallDepth ≤ host'.maxCallDepth)
include hhost hlimit

theorem deepens_caller (m : Machine) (f : FunctionRef) (args : List Value) :
    Deepens Value (host.caller m f args) (host'.caller m f args) :=
  deepens_callAt hhost (Nat.sub_le_sub_right hlimit m.callDepth) f args

theorem deepens_run (s : Stmt) : Deepens Flow (s.run host) (s.run host') := fun m =>
  linked_deepens.exec (deepens_caller hhost hlimit m) hhost s m

theorem deepens_runAction (a : Action) : Deepens Value (a.run host) (a.run host') := fun m =>
  linked_deepens.performAction (deepens_caller hhost hlimit m) hhost a m

theorem deepens_runFrom (p : Program) (last : Option Value) :
    Deepens (Option Value) (p.runFrom host last) (p.runFrom host' last) := by
  induction p, last using Program.runFrom.induct with
  | case1 last => exact .refl _
  | case2 last action rest ih => exact .bind (deepens_runAction hhost hlimit action) ih
  | case3 last s rest hs ih =>
    rw [Program.runFrom.eq_3 host last s rest hs, Program.runFrom.eq_3 host' last s rest hs]
    refine .bind (deepens_run hhost hlimit s) fun flow => ?_
    cases flow with
    | returned v => exact .refl _
    | normal => exact ih

end Runs

end Exec

/-- **A higher limit never changes a run that fits.** Whatever machine a program is run on, if it
does not end because too many calls were open, then under every higher limit it ends with the same
value or error on the same machine: the same store, scopes and output. -/
theorem Program.run_eq_of_fits (host : Host) (limit : Nat) (p : Program) (m : Machine)
    (hlimit : host.maxCallDepth ≤ limit) (hfits : fits (p.run host m) = true) :
    p.run { host with maxCallDepth := limit } m = p.run host m := by
  let higher : Host := { host with maxCallDepth := limit }
  have hhost : higher.launcher = host.launcher := rfl
  exact Exec.Deepens.bind (.refl _) (fun _ => Exec.deepens_runFrom hhost hlimit p none) m hfits

/-- A function that gives back what another one does, and a call of it. -/
def nestedCalls : Program :=
  [.function "inner" [] [.giveBack none],
    .function "outer" [] [.giveBack (some (.expression (.call (.var "inner") [])))],
    .perform (.expression (.call (.var "outer") []))]

/-- The call needs two open calls: where only one may be open it does not fit, and what it does
where two may be it also does where the default number may be. -/
theorem Program.run_nestedCalls :
    let m := Machine.start ⟨.missing, [], 2⟩
    fits (nestedCalls.run ⟨.missing, [], 1⟩ m) = false
      ∧ nestedCalls.run ⟨.missing, [], defaultCallDepth⟩ m = nestedCalls.run ⟨.missing, [], 2⟩ m :=
  ⟨by decide +kernel,
    Program.run_eq_of_fits ⟨.missing, [], 2⟩ defaultCallDepth nestedCalls _ (by decide)
      (by decide +kernel)⟩

end CommandScript
