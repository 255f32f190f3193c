import CommandScript.Proofs.Scope.Names

/-!
# Proofs/Scope/Chain — the way from a scope outwards

Scopes come about by new roots, new children, definitions and assignments (`Scopes.Reachable`). A
parent is then older than its children and every scope holds its bindings in the order of names,
each name once (`Scopes.WellFormed`). So the way outwards ends: it is `Scopes.Outward` as one
follows the parents, with nothing that bounds the number of steps, and `Scopes.chain` is the only
such way (`WellFormed.outward_iff`). The scope that decides what a name means is the nearest one on
this way that binds it (`WellFormed.owner?_eq_some_iff`).
-/

namespace CommandScript

namespace Bindings

/-- The names stand in order, each once. -/
def Ordered (b : Bindings) : Prop := b.Pairwise fun x y => x.1 < y.1

variable {b : Bindings} {name n : String} {v w : Value}

theorem mem_of_get? : ∀ {b : Bindings}, b.get? n = some v → (n, v) ∈ b
  | [], h => absurd h nofun
  | (n', w) :: rest, h => by
    rw [get?_cons] at h
    split_ifs at h with hn
    · rw [hn, Option.some.inj h]
      exact List.mem_cons_self
    · exact List.mem_cons_of_mem _ (mem_of_get? h)

/-- What is bound in order is found. -/
theorem Ordered.get?_of_mem : ∀ {b : Bindings}, b.Ordered → (n, v) ∈ b → b.get? n = some v
  | [], _, h => absurd h List.not_mem_nil
  | (n', w) :: rest, hb, h => by
    obtain ⟨hfirst, hrest⟩ := List.pairwise_cons.1 hb
    rw [get?_cons]
    obtain heq | hmem := List.mem_cons.1 h
    · obtain ⟨rfl, rfl⟩ := Prod.mk.inj heq
      rw [if_pos rfl]
    · have hne : n ≠ n' := fun heq => String.lt_irrefl n' (heq ▸ hfirst _ hmem)
      rw [if_neg hne]
      exact Ordered.get?_of_mem hrest hmem

theorem Ordered.mem_iff (hb : b.Ordered) : (n, v) ∈ b ↔ b.get? n = some v :=
  ⟨hb.get?_of_mem, mem_of_get?⟩

theorem mem_insert : ∀ {b : Bindings} {x : String × Value}, x ∈ insert name v b →
    x = (name, v) ∨ x ∈ b
  | [], _, h => .inl (List.mem_singleton.1 h)
  | (n, w) :: rest, x, h => by
    unfold insert at h
    split_ifs at h
    · obtain h | h := List.mem_cons.1 h
      · exact .inl h
      · exact .inr (List.mem_cons_of_mem _ h)
    · exact List.mem_cons.1 h
    · obtain h | h := List.mem_cons.1 h
      · exact .inr (h ▸ List.mem_cons_self)
      · exact (mem_insert h).imp_right (List.mem_cons_of_mem _)

/-- **Bindings stay in order** when one is put in. -/
theorem Ordered.insert (name : String) (v : Value) : ∀ {b : Bindings}, b.Ordered →
    (insert name v b).Ordered
  | [], _ => List.pairwise_singleton _ _
  | (n, w) :: rest, hb => by
    obtain ⟨hfirst, hrest⟩ := List.pairwise_cons.1 hb
    unfold Bindings.insert
    split_ifs with heq hlt
    · exact List.pairwise_cons.2 ⟨heq ▸ hfirst, hrest⟩
    · refine List.pairwise_cons.2 ⟨List.forall_mem_cons.2 ⟨hlt, fun x hx => ?_⟩, hb⟩
      exact String.lt_trans hlt (hfirst x hx)
    · have hgt : n < name := by
        by_contra hnot
        exact heq (String.le_antisymm (String.not_lt.1 hlt) (String.not_lt.1 hnot))
      refine List.pairwise_cons.2 ⟨fun x hx => ?_, Ordered.insert name v hrest⟩
      obtain rfl | hx := mem_insert hx
      · exact hgt
      · exact hfirst x hx

end Bindings

namespace Scopes

/-- The scopes that new roots, new children, definitions and assignments lead to. -/
inductive Reachable : Scopes → Prop
  | empty : Reachable .empty
  | newRoot {s : Scopes} : Reachable s → Reachable s.newRoot.2
  | newChild {s : Scopes} {e : ScopeRef} : Reachable s → s.Has e → Reachable (s.newChild e).2
  | define {s : Scopes} {e : ScopeRef} (name : String) (v : Value) : Reachable s → s.Has e →
    Reachable (s.define e name v)
  | assign {s : Scopes} {e : ScopeRef} (name : String) (v : Value) : Reachable s → s.Has e →
    Reachable (s.assign e name v)

/-- Parents are older than their children, and all bindings stand in order. -/
structure WellFormed (s : Scopes) : Prop where
  parent_lt : ∀ {e p : ScopeRef}, s.parent? e = some p → p.index < e.index
  ordered : ∀ e, (s.bindings e).Ordered

variable {s : Scopes} {e p o : ScopeRef} {es : List ScopeRef} {name : String} {v : Value}

theorem parent?_push (s : Scopes) (cell : Scope) (e : ScopeRef) :
    (⟨s.cells.push cell⟩ : Scopes).parent? e
      = if e.index = s.cells.size then cell.parent else s.parent? e := by
  unfold parent?
  rw [Array.getElem?_push]
  split_ifs <;> rfl

theorem bindings_push (s : Scopes) (cell : Scope) (e : ScopeRef) :
    (⟨s.cells.push cell⟩ : Scopes).bindings e
      = if e.index = s.cells.size then cell.bindings else s.bindings e := by
  unfold bindings
  rw [Array.getElem?_push]
  split_ifs <;> rfl

/-- A new scope whose parent is there already. -/
theorem WellFormed.push (hs : s.WellFormed) {cell : Scope}
    (hparent : ∀ p, cell.parent = some p → s.Has p) (hordered : cell.bindings.Ordered) :
    WellFormed ⟨s.cells.push cell⟩ where
  parent_lt {e p} h := by
    rw [parent?_push] at h
    split_ifs at h with he
    · exact he ▸ hparent p h
    · exact hs.parent_lt h
  ordered e := by
    rw [bindings_push]
    split_ifs
    · exact hordered
    · exact hs.ordered e

theorem WellFormed.define (hs : s.WellFormed) (o : ScopeRef) (name : String) (v : Value) :
    (s.define o name v).WellFormed where
  parent_lt h := hs.parent_lt (parent?_define s o name v _ ▸ h)
  ordered e := by
    by_cases he : e = o
    · subst he
      by_cases hhas : s.Has e
      · rw [bindings_define_self hhas]
        exact (hs.ordered e).insert name v
      · rw [bindings_of_not_has (by rwa [Has, size_define])]
        exact .nil
    · rw [bindings_define_of_ne he]
      exact hs.ordered e

/-- **Whatever is done to scopes, parents stay older than their children** and bindings stay in
order. -/
theorem Reachable.wellFormed (hs : s.Reachable) : s.WellFormed := by
  induction hs with
  | empty => exact ⟨fun h => absurd h nofun, fun _ => .nil⟩
  | newRoot _ ih => exact ih.push (fun _ h => absurd h nofun) .nil
  | newChild _ he ih => exact ih.push (fun _ h => Option.some.inj h ▸ he) .nil
  | define name v _ _ ih => exact ih.define _ name v
  | assign name v _ _ ih => exact ih.define _ name v

/-! ## The way outwards -/

/-- The way from a scope outwards, one parent after the other up to a scope that has none. -/
inductive Outward (s : Scopes) : ScopeRef → List ScopeRef → Prop
  | root {e : ScopeRef} : s.parent? e = none → Outward s e [e]
  | step {e p : ScopeRef} {es : List ScopeRef} : s.parent? e = some p → Outward s p es →
    Outward s e (e :: es)

/-- There is one way outwards at most. -/
theorem Outward.unique {es' : List ScopeRef} (h : s.Outward e es) (h' : s.Outward e es') :
    es = es' := by
  induction h generalizing es' with
  | root hroot =>
    cases h' with
    | root _ => rfl
    | step hparent _ => exact absurd (hroot.symm.trans hparent) nofun
  | step hparent _ ih =>
    cases h' with
    | root hroot => exact absurd (hroot.symm.trans hparent) nofun
    | step hparent' h' =>
      obtain rfl := Option.some.inj (hparent.symm.trans hparent')
      rw [ih h']

namespace WellFormed

variable (hs : s.WellFormed)
include hs

theorem outward_chainFrom : ∀ (n : Nat) (e : ScopeRef), e.index < n →
    s.Outward e (s.chainFrom n e)
  | 0, _, he => absurd he (Nat.not_lt_zero _)
  | n + 1, e, he => by
    unfold chainFrom
    cases hparent : s.parent? e with
    | none => exact .root hparent
    | some p =>
      have hlt : p.index < n := Nat.lt_of_lt_of_le (hs.parent_lt hparent) (Nat.lt_succ_iff.1 he)
      exact .step hparent (outward_chainFrom n p hlt)

/-- **The way outwards ends**, and it is the chain. -/
theorem outward_iff : s.Outward e es ↔ es = s.chain e := by
  have hchain : s.Outward e (s.chain e) := hs.outward_chainFrom _ e (Nat.lt_succ_self _)
  exact ⟨fun h => h.unique hchain, fun h => h ▸ hchain⟩

theorem chain_of_root (h : s.parent? e = none) : s.chain e = [e] :=
  (hs.outward_iff.1 (.root h)).symm

theorem chain_of_parent (h : s.parent? e = some p) : s.chain e = e :: s.chain p :=
  (hs.outward_iff.1 (.step h (hs.outward_iff.2 rfl))).symm

/-- Induction along the way outwards. -/
theorem outward_induction {motive : ScopeRef → Prop}
    (root : ∀ e, s.parent? e = none → motive e)
    (step : ∀ e p, s.parent? e = some p → motive p → motive e) (e : ScopeRef) : motive e := by
  obtain ⟨es, hes⟩ : ∃ es, s.Outward e es := ⟨_, hs.outward_iff.2 rfl⟩
  induction hes with
  | root hroot => exact root _ hroot
  | step hparent _ ih => exact step _ _ hparent ih

end WellFormed

/-! ## The nearest scope that binds a name -/

/-- The nearest scope on the way outwards that binds a name. -/
inductive Nearest (s : Scopes) (name : String) : ScopeRef → ScopeRef → Prop
  | here {e : ScopeRef} : name ∈ s.names e → Nearest s name e e
  | outer {e p o : ScopeRef} : name ∉ s.names e → s.parent? e = some p → Nearest s name p o →
    Nearest s name e o

theorem mem_names_iff : name ∈ s.names e ↔ ∃ v, (s.bindings e).get? name = some v :=
  Option.isSome_iff_exists

theorem not_mem_names_iff : name ∉ s.names e ↔ (s.bindings e).get? name = none := by
  rw [mem_names_iff, not_exists, Option.eq_none_iff_forall_ne_some]

theorem nearest_iff_of_mem (h : name ∈ s.names e) : s.Nearest name e o ↔ e = o := by
  constructor
  · intro hnearest
    cases hnearest with
    | here _ => rfl
    | outer hnot _ _ => exact absurd h hnot
  · rintro rfl
    exact .here h

theorem nearest_iff_of_parent (h : name ∉ s.names e) (hparent : s.parent? e = some p) :
    s.Nearest name e o ↔ s.Nearest name p o := by
  refine ⟨fun hnearest => ?_, .outer h hparent⟩
  cases hnearest with
  | here hmem => exact absurd hmem h
  | outer _ hparent' hnearest => exact Option.some.inj (hparent'.symm.trans hparent) ▸ hnearest

theorem not_nearest_of_root (h : name ∉ s.names e) (hroot : s.parent? e = none) :
    ¬ s.Nearest name e o := by
  intro hnearest
  cases hnearest with
  | here hmem => exact h hmem
  | outer _ hparent _ => exact absurd (hroot.symm.trans hparent) nofun

theorem find?_of_mem (h : name ∈ s.names e) (es : List ScopeRef) :
    (e :: es).find? (fun o => (s.bindings o).binds name) = some e :=
  List.find?_cons_of_pos h

theorem find?_of_not_mem (h : name ∉ s.names e) (es : List ScopeRef) :
    (e :: es).find? (fun o => (s.bindings o).binds name)
      = es.find? fun o => (s.bindings o).binds name :=
  List.find?_cons_of_neg h

/-- **The scope that decides what a name means** is the nearest one that binds it. -/
theorem WellFormed.owner?_eq_some_iff (hs : s.WellFormed) :
    s.owner? e name = some o ↔ s.Nearest name e o := by
  induction e using hs.outward_induction with
  | root e hroot =>
    rw [owner?, hs.chain_of_root hroot]
    by_cases hmem : name ∈ s.names e
    · rw [nearest_iff_of_mem hmem, find?_of_mem hmem, Option.some.injEq]
    · rw [find?_of_not_mem hmem]
      exact iff_of_false nofun (not_nearest_of_root hmem hroot)
  | step e p hparent ih =>
    rw [owner?, hs.chain_of_parent hparent]
    by_cases hmem : name ∈ s.names e
    · rw [nearest_iff_of_mem hmem, find?_of_mem hmem, Option.some.injEq]
    · rw [nearest_iff_of_parent hmem hparent, find?_of_not_mem hmem]
      exact ih

theorem findSome?_eq_bind_find? (s : Scopes) (name : String) : ∀ es : List ScopeRef,
    (es.findSome? fun o => (s.bindings o).get? name)
      = (es.find? fun o => (s.bindings o).binds name).bind fun o => (s.bindings o).get? name
  | [] => rfl
  | e :: es => by
    rw [List.findSome?_cons]
    cases hget : (s.bindings e).get? name with
    | none =>
      rw [find?_of_not_mem (not_mem_names_iff.2 hget)]
      exact findSome?_eq_bind_find? s name es
    | some v =>
      rw [find?_of_mem (mem_names_iff.2 ⟨v, hget⟩), Option.bind_some, hget]

/-- The value of a name is read in the scope that decides what it means. -/
theorem get?_eq (s : Scopes) (e : ScopeRef) (name : String) :
    s.get? e name = (s.owner? e name).bind fun o => (s.bindings o).get? name :=
  s.findSome?_eq_bind_find? name (s.chain e)

end Scopes

end CommandScript
