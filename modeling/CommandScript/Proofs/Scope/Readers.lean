import CommandScript.Proofs.Scope.Chain
import Mathlib.Data.List.Sort

/-!
# Proofs/Scope/Readers — all ways of reading a scope agree

A scope can be asked for the value of one name (`Scopes.get?`, `Scopes.lookup`), for whether a name
has one (`Scopes.isDefined`), for the scope that decides (`Scopes.owner?`), and for everything it
can see (`Scopes.all`). Listing everything takes each name where a walk outwards first sees it
(`Bindings.get?_unseen`), so it shows for each name what asking for the name gives
(`Scopes.get?_all`), and that in order (`Scopes.ordered_all`). In which order a scope goes through
its own bindings makes no difference (`WellFormed.all_eq_of_perm`).
-/

namespace CommandScript

namespace Bindings

variable {n : String} {b b' : Bindings}

theorem get?_append (b b' : Bindings) (n : String) :
    (b ++ b').get? n = (b.get? n).or (b'.get? n) := List.lookup_append

theorem get?_flatMap (f : ScopeRef → Bindings) (n : String) : ∀ es : List ScopeRef,
    get? (es.flatMap f) n = es.findSome? fun o => (f o).get? n
  | [] => rfl
  | o :: es => by
    rw [List.flatMap_cons, get?_append, get?_flatMap f n es, List.findSome?_cons]
    cases (f o).get? n <;> rfl

/-- What was not seen before is found as before. -/
theorem get?_unseen (n : String) : ∀ (b : Bindings) (seen : List String),
    (unseen seen b).get? n = if n ∈ seen then none else b.get? n
  | [], seen => by
    rw [unseen]
    exact (ite_self _).symm
  | (n', v) :: rest, seen => by
    rw [unseen]
    by_cases hseen : n' ∈ seen
    · rw [if_pos (List.contains_iff_mem.2 hseen), get?_unseen n rest]
      by_cases hn : n ∈ seen
      · rw [if_pos hn, if_pos hn]
      · have hne : n ≠ n' := fun heq => hn (heq ▸ hseen)
        rw [if_neg hn, if_neg hn, get?_cons, if_neg hne]
    · rw [if_neg fun h => hseen (List.contains_iff_mem.1 h), get?_cons, get?_cons,
        get?_unseen n rest]
      by_cases hn : n = n'
      · rw [if_pos hn, if_pos hn, if_neg fun h => hseen (hn ▸ h)]
      · rw [if_neg hn, if_neg hn]
        simp only [List.mem_cons, hn, false_or]

/-- Sorting keeps what is found. -/
theorem get?_sort (n : String) : ∀ b : Bindings, b.sort.get? n = b.get? n
  | [] => rfl
  | (n', v) :: rest => by
    rw [get?_cons, ← get?_sort n rest]
    exact get?_insert n' v n (sort rest)

theorem ordered_sort : ∀ b : Bindings, b.sort.Ordered
  | [] => .nil
  | (n, v) :: rest => (ordered_sort rest).insert n v

/-- Ordered bindings are known by what is found in them. -/
theorem Ordered.eq_of_get? (hb : b.Ordered) (hb' : b'.Ordered) (h : ∀ n, b.get? n = b'.get? n) :
    b = b' := by
  have : Std.Irrefl fun x y : String × Value => x.1 < y.1 := ⟨fun x => String.lt_irrefl x.1⟩
  have : Std.Antisymm fun x y : String × Value => x.1 < y.1 :=
    ⟨fun x y hxy hyx => absurd (String.lt_trans hxy hyx) (String.lt_irrefl x.1)⟩
  refine List.Pairwise.eq_of_mem_iff hb hb' fun x => ?_
  rw [hb.mem_iff, hb'.mem_iff, h]

theorem Ordered.get?_eq_of_perm (hb : b.Ordered) (h : b'.Perm b) (n : String) :
    b'.get? n = b.get? n := by
  cases hv : b'.get? n with
  | some v => exact (hb.get?_of_mem (h.mem_iff.1 (mem_of_get? hv))).symm
  | none =>
    refine (Option.eq_none_iff_forall_ne_some.2 fun v hv' => ?_).symm
    have hmem : (n, v) ∈ b' := h.mem_iff.2 (mem_of_get? hv')
    exact bne_iff_ne.1 (List.lookup_eq_none_iff.1 hv _ hmem) rfl

end Bindings

namespace Scopes

variable {s : Scopes} {e : ScopeRef} {name : String} {v : Value}

theorem ordered_all (s : Scopes) (e : ScopeRef) : (s.all e).Ordered := Bindings.ordered_sort _

/-- **Listing everything shows what asking for a name gives.** -/
theorem get?_all (s : Scopes) (e : ScopeRef) (name : String) :
    (s.all e).get? name = s.get? e name := by
  rw [all, Bindings.get?_sort, Bindings.get?_unseen, if_neg List.not_mem_nil,
    Bindings.get?_flatMap]
  rfl

/-- **The listing does not depend on the order** in which the bindings of a scope are gone
through. -/
theorem WellFormed.all_eq_of_perm (hs : s.WellFormed) {order : ScopeRef → Bindings}
    (horder : ∀ o, (order o).Perm (s.bindings o)) (e : ScopeRef) :
    (Bindings.unseen [] ((s.chain e).flatMap order)).sort = s.all e := by
  refine (Bindings.ordered_sort _).eq_of_get? (Bindings.ordered_sort _) fun name => ?_
  have hget (o : ScopeRef) : (order o).get? name = (s.bindings o).get? name :=
    (hs.ordered o).get?_eq_of_perm (horder o) name
  simp only [all, Bindings.get?_sort, Bindings.get?_unseen, Bindings.get?_flatMap, hget]

/-- The way outwards does not lead through a scope that is made later. -/
theorem WellFormed.outward_push (hs : s.WellFormed) {es : List ScopeRef} (h : s.Outward e es)
    (he : s.Has e) (cell : Scope) : Outward ⟨s.cells.push cell⟩ e es := by
  have hparent {o : ScopeRef} (ho : s.Has o) :
      (⟨s.cells.push cell⟩ : Scopes).parent? o = s.parent? o := by
    rw [parent?_push, if_neg (Nat.ne_of_lt ho)]
  induction h with
  | root hroot => exact .root ((hparent he).trans hroot)
  | step hstep _ ih =>
    exact .step ((hparent he).trans hstep) (ih (Nat.lt_trans (hs.parent_lt hstep) he))

/-- A new child is one step further in than its parent. -/
theorem WellFormed.depth_newChild (hs : s.WellFormed) (he : s.Has e) :
    (s.newChild e).2.depth (s.newChild e).1 = s.depth e + 1 := by
  have hwellFormed : (s.newChild e).2.WellFormed :=
    hs.push (fun p hp => Option.some.inj hp ▸ he) .nil
  have hparent : (s.newChild e).2.parent? (s.newChild e).1 = some e := by
    rw [newChild, parent?_push, if_pos rfl]
  have hchain : s.chain e = (s.newChild e).2.chain e :=
    hwellFormed.outward_iff.1 (hs.outward_push (hs.outward_iff.2 rfl) he _)
  rw [depth, depth, hwellFormed.chain_of_parent hparent, ← hchain, List.length_cons]

/-- A name has a value where some scope decides what it means. -/
theorem isDefined_eq (s : Scopes) (e : ScopeRef) (name : String) :
    s.isDefined e name = (s.get? e name).isSome := by
  rw [isDefined, get?_eq]
  cases howner : s.owner? e name with
  | none => rfl
  | some o => exact (mem_names_of_owner howner).symm

theorem lookup_eq_ok_iff : s.lookup e name = .ok v ↔ s.get? e name = some v := by
  unfold lookup
  cases s.get? e name <;> simp

theorem lookup_of_none (h : s.get? e name = none) :
    s.lookup e name = .error (.undefinedVariable name) := by
  rw [lookup, h]

/-- **All ways of reading a scope agree.** Following the parents of a scope ends, and a child is one
step further in. What a scope can see is listed in the order of names, each once, and a name is
listed with a value exactly if asking for the name gives this value: in the nearest scope that binds
it. A name without a value is complained about by its name. -/
theorem Reachable.readers_agree (hs : s.Reachable) (he : s.Has e) :
    (∀ es, s.Outward e es ↔ es = s.chain e)
      ∧ (s.newChild e).2.depth (s.newChild e).1 = s.depth e + 1
      ∧ (s.all e).Pairwise (fun a b => a.1 < b.1)
      ∧ ∀ name, (∀ v, (name, v) ∈ s.all e ↔ s.get? e name = some v)
        ∧ (∀ v, s.get? e name = some v
            ↔ ∃ o, s.Nearest name e o ∧ (s.bindings o).get? name = some v)
        ∧ (s.isDefined e name = true ↔ ∃ v, s.get? e name = some v)
        ∧ s.isDefined e name = (s.owner? e name).isSome
        ∧ (∀ v, s.lookup e name = .ok v ↔ s.get? e name = some v)
        ∧ (s.get? e name = none → s.lookup e name = .error (.undefinedVariable name)) := by
  have hwell := hs.wellFormed
  refine ⟨fun es => hwell.outward_iff, hwell.depth_newChild he, s.ordered_all e, fun name => ?_⟩
  refine ⟨fun v => ?_, fun v => ?_, ?_, rfl, fun v => lookup_eq_ok_iff, lookup_of_none⟩
  · rw [(s.ordered_all e).mem_iff, get?_all]
  · rw [get?_eq, Option.bind_eq_some_iff]
    exact exists_congr fun o => and_congr_left' hwell.owner?_eq_some_iff
  · rw [isDefined_eq, Option.isSome_iff_exists]

/-- A scope with two names, and a scope inside it that binds one of them anew. -/
def shadowed : Scopes :=
  (((empty.newRoot.2.define ⟨0⟩ "b" .none).define ⟨0⟩ "a" .none).newChild ⟨0⟩).2.define ⟨1⟩ "b"
    (.boolean true)

theorem reachable_shadowed : shadowed.Reachable :=
  .define "b" _ (.newChild (.define "a" _ (.define "b" _ (.newRoot .empty) (by decide)) (by decide))
    (by decide)) (by decide)

theorem readers_agree_shadowed : shadowed.Reachable ∧ shadowed.Has ⟨1⟩
    ∧ shadowed.Outward ⟨1⟩ [⟨1⟩, ⟨0⟩] ∧ shadowed.all ⟨1⟩ = [("a", .none), ("b", .boolean true)]
    ∧ shadowed.get? ⟨1⟩ "a" = some .none ∧ shadowed.get? ⟨1⟩ "b" = some (.boolean true)
    ∧ shadowed.lookup ⟨1⟩ "c" = .error (.undefinedVariable "c") := by
  have hhas : shadowed.Has ⟨1⟩ := by decide
  have hall : shadowed.all ⟨1⟩ = [("a", .none), ("b", .boolean true)] := rfl
  obtain ⟨hways, -, -, hnames⟩ := reachable_shadowed.readers_agree hhas
  refine ⟨reachable_shadowed, hhas, (hways _).2 rfl, hall, ?_, ?_, ?_⟩
  · exact ((hnames "a").1 _).1 (hall ▸ List.mem_cons_self)
  · exact ((hnames "b").1 _).1 (hall ▸ List.mem_cons_of_mem _ List.mem_cons_self)
  · exact (hnames "c").2.2.2.2.2 rfl

end Scopes

end CommandScript
