import CommandScript.Scope
import Mathlib.Data.Set.Insert

/-!
# Proofs/Scope/Names — which names a scope binds

`Scopes.names` are the names a scope binds itself, without its parents. A definition adds one name
to one scope (`names_define_self`, `names_define_of_ne`), and an assignment adds one at most: where
some scope on the chain binds the name already, no scope binds more than before
(`names_define_of_mem`).
-/

namespace CommandScript

namespace Bindings

theorem get?_cons (n name : String) (v : Value) (b : Bindings) :
    get? ((n, v) :: b) name = if name = n then some v else b.get? name := by
  unfold get?
  rw [List.lookup_cons]
  by_cases h : name = n
  · simp [h]
  · simp [h, beq_false_of_ne h]

/-- **A binding that is put in is found**, and the others are found as before. -/
theorem get?_insert (name : String) (v : Value) (n : String) :
    ∀ b : Bindings, (insert name v b).get? n = if n = name then some v else b.get? n
  | [] => get?_cons name n v []
  | (n', w) :: rest => by
    unfold insert
    split
    · next hname =>
      subst hname
      rw [get?_cons, get?_cons]
      split <;> rfl
    split
    · exact get?_cons name n v _
    · next hname _ =>
      rw [get?_cons, get?_cons, get?_insert name v n rest]
      by_cases hn : n = n'
      · rw [if_pos hn, if_pos hn, if_neg fun h => hname (hn.symm.trans h)]
      · rw [if_neg hn, if_neg hn]

theorem binds_insert (name : String) (v : Value) (b : Bindings) (n : String) :
    (insert name v b).binds n = true ↔ n = name ∨ b.binds n = true := by
  unfold binds
  rw [get?_insert]
  split_ifs with hn <;> simp [hn]

end Bindings

namespace Scopes

/-- Whether there is a scope with the handle. -/
def Has (s : Scopes) (e : ScopeRef) : Prop := e.index < s.cells.size

instance (s : Scopes) (e : ScopeRef) : Decidable (s.Has e) :=
  inferInstanceAs (Decidable (e.index < s.cells.size))

/-- The names a scope binds itself. -/
def names (s : Scopes) (e : ScopeRef) : Set String := {name | (s.bindings e).binds name = true}

variable {s : Scopes} {e o : ScopeRef} {name : String} {v : Value}

theorem bindings_of_not_has (h : ¬ s.Has e) : s.bindings e = [] := by
  rw [bindings, Array.getElem?_eq_none (Nat.le_of_not_lt h)]
  rfl

theorem names_of_not_has (h : ¬ s.Has e) : s.names e = ∅ := by
  ext n
  simp [names, bindings_of_not_has h, Bindings.binds, Bindings.get?]

/-! ## Definitions and assignments -/

theorem size_define (s : Scopes) (o : ScopeRef) (name : String) (v : Value) :
    (s.define o name v).cells.size = s.cells.size := by
  simp [define]

theorem parent?_define (s : Scopes) (o : ScopeRef) (name : String) (v : Value) (e : ScopeRef) :
    (s.define o name v).parent? e = s.parent? e := by
  unfold parent? define
  rw [Array.getElem?_modify]
  split
  · cases s.cells[e.index]? <;> rfl
  · rfl

theorem bindings_define_of_ne (h : e ≠ o) : (s.define o name v).bindings e = s.bindings e := by
  have hindex : o.index ≠ e.index := fun heq => h (congrArg ScopeRef.mk heq.symm)
  unfold bindings define
  rw [Array.getElem?_modify, if_neg hindex]

theorem bindings_define_self (h : s.Has e) :
    (s.define e name v).bindings e = (s.bindings e).insert name v := by
  unfold bindings define
  rw [Array.getElem?_modify, if_pos rfl, Array.getElem?_eq_getElem h]
  rfl

theorem names_define_of_ne (h : e ≠ o) : (s.define o name v).names e = s.names e := by
  rw [names, bindings_define_of_ne h, names]

theorem names_define_self (h : s.Has e) :
    (s.define e name v).names e = insert name (s.names e) := by
  ext n
  rw [names, bindings_define_self h]
  exact Bindings.binds_insert name v _ n

/-- The scope that decides what a name means binds it. -/
theorem mem_names_of_owner (h : s.owner? e name = some o) : name ∈ s.names o :=
  List.find?_some (p := fun o => (s.bindings o).binds name) h

theorem has_of_mem_names (h : name ∈ s.names e) : s.Has e := by
  by_contra hnot
  rw [names_of_not_has hnot] at h
  exact h

/-- Where a name is bound already, binding it again adds no name anywhere. -/
theorem names_define_of_mem (h : name ∈ s.names o) (e : ScopeRef) :
    (s.define o name v).names e = s.names e := by
  by_cases he : e = o
  · subst he
    rw [names_define_self (has_of_mem_names h), Set.insert_eq_of_mem h]
  · exact names_define_of_ne he

end Scopes

end CommandScript
