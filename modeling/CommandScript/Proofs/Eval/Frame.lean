import CommandScript.Proofs.Eval.Closed
import CommandScript.Proofs.Scope.Names
import CommandScript.Session

/-!
# Proofs/Eval/Frame — names never leak between scopes

A statement binds new names only in the scope it runs in and in scopes that are made while it runs.
`Scopes.Framed own s t` says so of the scopes before and behind: the scopes of `s` keep their
parents, all but `own` keep their names, and `own` loses none. It is a property that sequences
inherit, and a run in a new scope `own` leaves all older scopes their names (`Scopes.Kept`),
whichever of them is its parent; so every statement has it (`Stmt.framed_run`).
-/

namespace CommandScript

namespace Scopes

/-- What a run in the scope `own` does to the scopes there are: all keep their parents, all but
`own` keep their names, and `own` loses none. -/
structure Framed (own : ScopeRef) (s t : Scopes) : Prop where
  has : ∀ e, s.Has e → t.Has e
  parent : ∀ e, s.Has e → t.parent? e = s.parent? e
  names : ∀ e, s.Has e → e ≠ own → t.names e = s.names e
  grows : s.names own ⊆ t.names own

/-- All scopes there are keep their parents and names. -/
structure Kept (s t : Scopes) : Prop where
  has : ∀ e, s.Has e → t.Has e
  parent : ∀ e, s.Has e → t.parent? e = s.parent? e
  names : ∀ e, s.Has e → t.names e = s.names e

variable {own e : ScopeRef} {s t u : Scopes}

theorem Framed.refl (own : ScopeRef) (s : Scopes) : Framed own s s :=
  ⟨fun _ h => h, fun _ _ => rfl, fun _ _ _ => rfl, subset_rfl⟩

theorem Framed.trans (h : Framed own s t) (h' : Framed own t u) : Framed own s u where
  has e he := h'.has e (h.has e he)
  parent e he := (h'.parent e (h.has e he)).trans (h.parent e he)
  names e he hne := (h'.names e (h.has e he) hne).trans (h.names e he hne)
  grows := h.grows.trans h'.grows

theorem Kept.framed (h : Kept s t) (own : ScopeRef) : Framed own s t where
  has := h.has
  parent := h.parent
  names e he _ := h.names e he
  grows := by
    by_cases hown : s.Has own
    · exact (h.names own hown).superset
    · rw [names_of_not_has hown]
      exact Set.empty_subset _

/-- A run in a scope that was not there leaves those that were. -/
theorem Kept.run (h : Kept s t) (he : ¬ s.Has e) (h' : Framed e t u) : Kept s u where
  has o ho := h'.has o (h.has o ho)
  parent o ho := (h'.parent o (h.has o ho)).trans (h.parent o ho)
  names o ho := by
    have hne : o ≠ e := fun heq => he (heq ▸ ho)
    exact (h'.names o (h.has o ho) hne).trans (h.names o ho)

theorem framed_define (s : Scopes) (e : ScopeRef) (name : String) (v : Value) :
    Framed e s (s.define e name v) where
  has o ho := by
    unfold Has at ho ⊢
    rwa [size_define]
  parent o _ := parent?_define s e name v o
  names o _ hne := names_define_of_ne hne
  grows := by
    by_cases he : s.Has e
    · rw [names_define_self he]
      exact Set.subset_insert _ _
    · rw [names_of_not_has he]
      exact Set.empty_subset _

/-- An assignment in a scope binds a new name there or none. -/
theorem framed_assign (s : Scopes) (e : ScopeRef) (name : String) (v : Value) :
    Framed e s (s.assign e name v) := by
  unfold assign
  cases howner : s.owner? e name with
  | none => exact framed_define s e name v
  | some o =>
    have hnames := names_define_of_mem (v := v) (mem_names_of_owner howner)
    have hdefine := framed_define s o name v
    exact ⟨hdefine.has, hdefine.parent, fun e' _ _ => hnames e', (hnames e).superset⟩

theorem kept_newChild (s : Scopes) (parent : ScopeRef) : Kept s (s.newChild parent).2 := by
  have hcell {e : ScopeRef} (he : s.Has e) :
      (s.newChild parent).2.cells[e.index]? = s.cells[e.index]? :=
    (Array.getElem?_push_lt he).trans (Array.getElem?_eq_getElem he).symm
  refine ⟨fun e he => ?_, fun e he => ?_, fun e he => ?_⟩
  · exact Nat.lt_of_lt_of_le he (by simp [newChild])
  · rw [parent?, hcell he, parent?]
  · rw [names, bindings, hcell he, names, bindings]

theorem not_has_newChild (s : Scopes) (parent : ScopeRef) : ¬ s.Has (s.newChild parent).1 :=
  Nat.lt_irrefl _

end Scopes

/-! ## Computations -/

namespace Exec

variable {α : Type}

theorem endOf_inScope (e : ScopeRef) (x : Exec α) (m : Machine) :
    endOf (inScope e x m) = { endOf (x { m with current := e }) with current := m.current } := by
  unfold inScope
  dsimp only
  cases x { m with current := e } <;> rfl

theorem endOf_inCall (x : Exec α) (m : Machine) :
    endOf (inCall x m) =
      let n := endOf (x { m with callDepth := m.callDepth + 1 })
      { n with callDepth := n.callDepth - 1 } := by
  unfold inCall
  cases x { m with callDepth := m.callDepth + 1 } <;> rfl

/-- Names bound in a scope that was not there leave those that were. -/
theorem kept_defineAll {s : Scopes} {e : ScopeRef} (he : ¬ s.Has e) :
    ∀ (bindings : List (String × Value)) (m : Machine), s.Kept m.scopes →
      ∃ n, defineAll e bindings m = .ok () n ∧ s.Kept n.scopes ∧ n.current = m.current
  | [], m, hm => ⟨m, rfl, hm, rfl⟩
  | (name, v) :: rest, m, hm =>
    kept_defineAll he rest { m with scopes := m.scopes.define e name v }
      (hm.run he (m.scopes.framed_define e name v))

/-- A computation that stays in its scope, binds new names only there, and leaves the other scopes
their names and all of them their parents. -/
structure Framing (α : Type) (x : Exec α) : Prop where
  current (m : Machine) : (endOf (x m)).current = m.current
  scopes (m : Machine) : m.scopes.Framed m.current (endOf (x m)).scopes

namespace Framing

/-- A computation that leaves the scopes alone. -/
theorem ofScopes {x : Exec α} (hcurrent : ∀ m, (endOf (x m)).current = m.current)
    (hscopes : ∀ m, (endOf (x m)).scopes = m.scopes) : Framing α x where
  current := hcurrent
  scopes m := by
    rw [hscopes m]
    exact .refl _ _

theorem bind {β : Type} {x : Exec α} {f : α → Exec β} (hx : Framing α x)
    (hf : ∀ a, Framing β (f a)) : Framing β (x >>= f) where
  current m := by
    have hcurrent := hx.current m
    obtain ⟨a, n, hxm, heq⟩ | heq := endOf_bind x f m
    · rw [hxm] at hcurrent
      rw [heq, (hf a).current]
      exact hcurrent
    · rw [heq, hcurrent]
  scopes m := by
    have hcurrent := hx.current m
    have hscopes := hx.scopes m
    obtain ⟨a, n, hxm, heq⟩ | heq := endOf_bind x f m
    · rw [hxm] at hcurrent hscopes
      have hrest := (hf a).scopes n
      rw [show n.current = m.current from hcurrent] at hrest
      rw [heq]
      exact hscopes.trans hrest
    · rw [heq]
      exact hscopes

/-- A run in a new scope keeps all scopes there were. -/
theorem kept_inScope {x : Exec α} (hx : Framing α x) {s : Scopes} {e : ScopeRef} (he : ¬ s.Has e)
    {m : Machine} (hm : s.Kept m.scopes) : s.Kept (endOf (inScope e x m)).scopes := by
  rw [endOf_inScope]
  exact hm.run he (hx.scopes { m with current := e })

theorem inChild {x : Exec α} (hx : Framing α x) : Framing α (inChild x) where
  current m := by
    change (endOf (inScope _ x _)).current = _
    rw [endOf_inScope]
  scopes m :=
    (hx.kept_inScope (m.scopes.not_has_newChild m.current)
      (m.scopes.kept_newChild m.current)).framed _

/-- The body of a function runs in a new scope, wherever the function was defined. -/
theorem enter {x : Exec α} (hx : Framing α x) (parent : ScopeRef)
    (bindings : List (String × Value)) : Framing α (enter parent bindings x) := by
  have hend (m : Machine) : (endOf (Exec.enter parent bindings x m)).current = m.current
      ∧ m.scopes.Kept (endOf (Exec.enter parent bindings x m)).scopes := by
    have hnew := m.scopes.not_has_newChild parent
    obtain ⟨n, hn, hkept, hcurrent⟩ := kept_defineAll hnew bindings
      { m with scopes := (m.scopes.newChild parent).2 } (m.scopes.kept_newChild parent)
    have henter : Exec.enter parent bindings x m
        = inCall (inScope (m.scopes.newChild parent).1 x) n :=
      bind_of_ok (f := fun _ => inCall (inScope (m.scopes.newChild parent).1 x)) hn
    rw [henter, endOf_inCall]
    refine ⟨?_, hx.kept_inScope hnew hkept⟩
    rw [endOf_inScope]
    exact hcurrent
  exact ⟨fun m => (hend m).1, fun m => (hend m).2.framed _⟩

end Framing

/-- **What programs are made of binds new names only in its own scope.** -/
theorem closed_framing : Closed Framing where
  pure _ := .ofScopes (fun _ => rfl) fun _ => rfl
  throw _ := .ofScopes (fun _ => rfl) fun _ => rfl
  get := .ofScopes (fun _ => rfl) fun _ => rfl
  allocate _ := .ofScopes (fun _ => rfl) fun _ => rfl
  write _ := .ofScopes (fun _ => rfl) fun _ => rfl
  launch _ _ := .ofScopes (fun _ => rfl) fun _ => rfl
  look f := by
    refine .ofScopes (fun m => ?_) fun m => ?_
    all_goals
      unfold look
      cases f m <;> rfl
  onStore f := by
    refine .ofScopes (fun m => ?_) fun m => ?_
    all_goals
      unfold onStore
      cases f m.store <;> rfl
  bind := .bind
  assign name v := ⟨fun _ => rfl, fun m => m.scopes.framed_assign m.current name v⟩
  define name v := ⟨fun _ => rfl, fun m => m.scopes.framed_define m.current name v⟩
  inChild := .inChild
  enter parent bindings hx := hx.enter parent bindings

end Exec

/-- **Names never leak between scopes.** Whatever machine a statement is run on, and whether it
fails or not, all scopes there were keep their parents, all but the one it is run in keep exactly
their names, and that one loses none. -/
theorem Stmt.framed_run (host : Host) (s : Stmt) (m : Machine) :
    m.scopes.Framed m.current (m.after (s.run host)).scopes := by
  rw [Machine.after_eq]
  exact (Exec.closed_framing.exec (Exec.closed_framing.callAt host _) host s).scopes m

end CommandScript
