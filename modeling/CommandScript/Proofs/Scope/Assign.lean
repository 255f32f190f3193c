import CommandScript.Proofs.Scope.Chain

/-!
# Proofs/Scope/Assign — what an assignment changes, and from where it is seen

Binding a name in a scope changes what this name means, and only from where the scope is the
nearest one that binds it (`Scopes.get?_define_of_owner`, `Scopes.get?_define_of_not_owner`); all
ways outwards stay (`Scopes.chain_define`). An assignment binds the name in the nearest scope that
binds it already, or where it is made if there is none. Either way this scope decides afterwards
what the name means where the assignment is made (`Scopes.owner?_assign`).
-/

namespace CommandScript

namespace Scopes

variable {s : Scopes} {e o : ScopeRef} {name : String} {v : Value}

theorem chainFrom_define (s : Scopes) (o : ScopeRef) (name : String) (v : Value) :
    ∀ (n : Nat) (e : ScopeRef), (s.define o name v).chainFrom n e = s.chainFrom n e
  | 0, _ => rfl
  | n + 1, e => by
    unfold chainFrom
    rw [parent?_define]
    cases s.parent? e with
    | none => rfl
    | some p =>
      dsimp only
      rw [chainFrom_define s o name v n p]

theorem chain_define (s : Scopes) (o : ScopeRef) (name : String) (v : Value) (e : ScopeRef) :
    (s.define o name v).chain e = s.chain e :=
  s.chainFrom_define o name v _ e

/-- The way outwards starts at the scope itself. -/
theorem chain_eq_cons (s : Scopes) (e : ScopeRef) : ∃ es, s.chain e = e :: es := by
  rw [chain, chainFrom]
  cases s.parent? e with
  | none => exact ⟨[], rfl⟩
  | some p => exact ⟨_, rfl⟩

/-- **A definition writes one name in one scope.** -/
theorem get?_bindings_define (ho : s.Has o) (e : ScopeRef) (n : String) :
    ((s.define o name v).bindings e).get? n
      = if e = o ∧ n = name then some v else (s.bindings e).get? n := by
  by_cases he : e = o
  · subst he
    rw [bindings_define_self ho, Bindings.get?_insert]
    simp
  · rw [bindings_define_of_ne he, if_neg fun h => he h.1]

/-! ## From where a definition is seen -/

/-- Another name means what it meant. -/
theorem get?_define_of_ne {n : String} (hn : n ≠ name) (ho : s.Has o) (e : ScopeRef) :
    (s.define o name v).get? e n = s.get? e n := by
  have hbindings (i : ScopeRef) : ((s.define o name v).bindings i).get? n
      = (s.bindings i).get? n := by
    rw [get?_bindings_define ho, if_neg fun h => hn h.2]
  rw [get?, get?, chain_define]
  simp only [hbindings]

/-- The new value is seen from where the scope decides what the name means. -/
theorem get?_define_of_owner (ho : s.Has o) (h : (s.define o name v).owner? e name = some o) :
    (s.define o name v).get? e name = some v := by
  rw [get?_eq, h, Option.bind_some, get?_bindings_define ho, if_pos ⟨rfl, rfl⟩]

theorem findSome?_define (ho : s.Has o) : ∀ es : List ScopeRef,
    (es.find? fun i => ((s.define o name v).bindings i).binds name) ≠ some o →
    (es.findSome? fun i => ((s.define o name v).bindings i).get? name)
      = es.findSome? fun i => (s.bindings i).get? name
  | [], _ => rfl
  | i :: es, h => by
    by_cases hi : i = o
    · -- the way would end at the scope that has just bound the name
      have hmem : name ∈ (s.define o name v).names i := by
        rw [hi, names_define_self ho]
        exact Set.mem_insert _ _
      exact absurd (by rw [find?_of_mem hmem, hi]) h
    · rw [List.findSome?_cons, List.findSome?_cons, bindings_define_of_ne hi]
      cases hget : (s.bindings i).get? name with
      | some w => rfl
      | none =>
        have hnot : name ∉ (s.define o name v).names i := by
          rw [not_mem_names_iff, bindings_define_of_ne hi, hget]
        rw [find?_of_not_mem hnot] at h
        exact findSome?_define ho es h

/-- From everywhere else the name means what it meant. -/
theorem get?_define_of_not_owner (ho : s.Has o)
    (h : (s.define o name v).owner? e name ≠ some o) :
    (s.define o name v).get? e name = s.get? e name := by
  rw [owner?, chain_define] at h
  rw [get?, get?, chain_define]
  exact findSome?_define ho _ h

/-! ## Assignments -/

theorem owner?_eq_none_iff : s.owner? e name = none ↔ ∀ i ∈ s.chain e, name ∉ s.names i :=
  List.find?_eq_none

/-- The scope in which an assignment binds the name. -/
def target (s : Scopes) (e : ScopeRef) (name : String) : ScopeRef := (s.owner? e name).getD e

theorem has_target (he : s.Has e) (name : String) : s.Has (s.target e name) := by
  unfold target
  cases howner : s.owner? e name with
  | none => exact he
  | some o => exact has_of_mem_names (mem_names_of_owner howner)

/-- **Where an assignment is made, its scope decides afterwards.** -/
theorem owner?_assign (he : s.Has e) (name : String) (v : Value) :
    (s.assign e name v).owner? e name = some (s.target e name) := by
  unfold assign target
  cases howner : s.owner? e name with
  | none =>
    obtain ⟨es, hes⟩ := (s.define e name v).chain_eq_cons e
    have hmem : name ∈ (s.define e name v).names e := by
      rw [names_define_self he]
      exact Set.mem_insert _ _
    rw [Option.getD_none, owner?, hes, find?_of_mem hmem]
  | some o =>
    -- no scope binds more names than before, so the same one is the nearest
    have hnames := names_define_of_mem (v := v) (mem_names_of_owner howner)
    have hbinds : (fun i => ((s.define o name v).bindings i).binds name)
        = fun i => (s.bindings i).binds name :=
      funext fun i => Bool.eq_iff_iff.2 (Set.ext_iff.1 (hnames i) name)
    rw [Option.getD_some, owner?, chain_define, hbinds]
    exact howner

/-- **An assignment changes one binding and is seen exactly where it should be.** It writes the name
in one scope: the nearest one that bound it, or the scope where it is made if none did. All other
bindings stay, and so do all parents. Where it is made, the name has the new value; and from any
scope a name means something else than before only if it is this name and the scope that was written
is the nearest one that binds it, from where the new value is then seen. -/
theorem Reachable.assign_effect (hs : s.Reachable) (he : s.Has e) (name : String) (v : Value) :
    ∃ o, (s.Nearest name e o ∨ (∀ i ∈ s.chain e, name ∉ s.names i) ∧ o = e)
      ∧ (∀ i n, ((s.assign e name v).bindings i).get? n
          = if i = o ∧ n = name then some v else (s.bindings i).get? n)
      ∧ (∀ i, ((s.assign e name v).Has i ↔ s.Has i)
          ∧ (s.assign e name v).parent? i = s.parent? i)
      ∧ (s.assign e name v).get? e name = some v
      ∧ (∀ i, (s.assign e name v).Nearest name i o → (s.assign e name v).get? i name = some v)
      ∧ ∀ i n, (s.assign e name v).get? i n ≠ s.get? i n →
          n = name ∧ (s.assign e name v).Nearest name i o := by
  have hhas := has_target he name
  have hafter : (s.assign e name v).WellFormed := hs.wellFormed.define _ name v
  have hseen (i : ScopeRef) (hi : (s.assign e name v).owner? i name = some (s.target e name)) :
      (s.assign e name v).get? i name = some v := get?_define_of_owner hhas hi
  refine ⟨s.target e name, ?_, get?_bindings_define hhas,
    fun i => ⟨?_, parent?_define s _ name v i⟩, hseen e (owner?_assign he name v),
    fun i hi => hseen i (hafter.owner?_eq_some_iff.2 hi), ?_⟩
  · cases howner : s.owner? e name with
    | none => exact .inr ⟨owner?_eq_none_iff.1 howner, by rw [target, howner, Option.getD_none]⟩
    | some o =>
      rw [target, howner, Option.getD_some]
      exact .inl (hs.wellFormed.owner?_eq_some_iff.1 howner)
  · rw [Has, Has, Scopes.assign, size_define]
  · intro i n hdiffers
    by_cases hn : n = name
    · subst hn
      refine ⟨rfl, hafter.owner?_eq_some_iff.1 ?_⟩
      by_contra hnot
      exact hdiffers (get?_define_of_not_owner hhas hnot)
    · exact absurd (get?_define_of_ne hn hhas i) hdiffers

/-- A scope with a name, and inside it two others: one binds the name anew, the other has a scope
inside it. -/
def siblings : Scopes :=
  (((((empty.newRoot.2.define ⟨0⟩ "x" .none).newChild ⟨0⟩).2.define ⟨1⟩ "x" .none).newChild
    ⟨0⟩).2.newChild ⟨2⟩).2

theorem reachable_siblings : siblings.Reachable :=
  .newChild (.newChild (.define "x" _ (.newChild (.define "x" _ (.newRoot .empty) (by decide))
    (by decide)) (by decide)) (by decide)) (by decide)

theorem assign_effect_siblings : siblings.Reachable ∧ siblings.Has ⟨3⟩
    ∧ siblings.Nearest "x" ⟨3⟩ ⟨0⟩
    ∧ (siblings.assign ⟨3⟩ "x" (.boolean true)).get? ⟨3⟩ "x" = some (.boolean true)
    ∧ ((siblings.assign ⟨3⟩ "x" (.boolean true)).bindings ⟨0⟩).get? "x" = some (.boolean true)
    ∧ (siblings.assign ⟨3⟩ "x" (.boolean true)).get? ⟨1⟩ "x" = siblings.get? ⟨1⟩ "x" := by
  have hhas : siblings.Has ⟨3⟩ := by decide
  have howner : siblings.owner? ⟨3⟩ "x" = some ⟨0⟩ := by decide
  have hnearest := reachable_siblings.wellFormed.owner?_eq_some_iff.1 howner
  obtain ⟨o, ho, hwritten, -, hhere, -, honly⟩ :=
    reachable_siblings.assign_effect hhas "x" (.boolean true)
  obtain rfl : ⟨0⟩ = o := by
    obtain ho | ⟨hnone, -⟩ := ho
    · rw [← reachable_siblings.wellFormed.owner?_eq_some_iff, howner] at ho
      exact Option.some.inj ho
    · exact absurd ((owner?_eq_none_iff.2 hnone).symm.trans howner) nofun
  refine ⟨reachable_siblings, hhas, hnearest, hhere, hwritten ⟨0⟩ "x", ?_⟩
  by_contra hdiffers
  have hmem : "x" ∈ (siblings.assign ⟨3⟩ "x" (.boolean true)).names ⟨1⟩ := by rfl
  exact absurd ((nearest_iff_of_mem hmem).1 (honly ⟨1⟩ "x" hdiffers).2) (by decide)

end Scopes

end CommandScript
