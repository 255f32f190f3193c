import CommandScript.Proofs.Value.Range
import CommandScript.Proofs.Value.Store
import Mathlib.Data.List.Forall2

/-!
# Proofs/Value/Tree — values without handles

A `Datum` is what a value is if one looks through all handles: a tree of lists with numbers,
strings, booleans, ranges and `none` as its leaves. `Store.tree?` looks through them up to a depth;
it finds nothing for functions, for handles of nothing and for lists that hold themselves. Lists may
be shared, the tree does not show it.

A value has one tree (`Store.tree?_unique`), and keeps it as long as its cells do
(`Store.Extends.tree?`). Values whose trees agree are equal (`Store.equalAt_shown`), however their
lists are shared.
-/

namespace CommandScript

/-- What a value stands for. -/
inductive Datum
  | number (x : Float)
  | string (text : String)
  | boolean (b : Bool)
  | range (r : Range)
  | none
  | list (items : List Datum)

namespace Datum

/-- Data with finite numbers, strings without a quote and ranges that can be made. -/
inductive Plain : Datum → Prop
  | number {x : Float} : x.isFinite = true → Plain (.number x)
  | string {text : String} : text.toList.contains '\'' = false → Plain (.string text)
  | boolean (b : Bool) : Plain (.boolean b)
  | range {r : Range} {step : Option Float} : Range.make r.start r.stop step = .ok r →
    Plain (.range r)
  | none : Plain .none
  | list {items : List Datum} : (∀ d ∈ items, Plain d) → Plain (.list items)

theorem Plain.items {items : List Datum} (h : Plain (.list items)) : ∀ d ∈ items, Plain d := by
  cases h with
  | list h => exact h

mutual
/-- The datum with every zero without a sign. -/
def shown : Datum → Datum
  | number x => .number (Number.shown x)
  | range r => .range r.shown
  | list items => .list (shownAll items)
  | string text => .string text
  | boolean b => .boolean b
  | none => .none

/-- The same of each. -/
def shownAll : List Datum → List Datum
  | [] => []
  | d :: ds => d.shown :: shownAll ds
end

theorem shownAll_eq_map : ∀ ds : List Datum, shownAll ds = ds.map shown
  | [] => rfl
  | d :: ds => by rw [shownAll, shownAll_eq_map ds, List.map_cons]

end Datum

namespace Store

/-- What a value that is neither a list nor a function stands for. -/
def leaf? (s : Store) : Value → Option Datum
  | .number x => some (.number x)
  | .string r => (s.strings[r.index]?).map .string
  | .boolean b => some (.boolean b)
  | .range r => some (.range r)
  | .none => some .none
  | .list _ | .function _ => none

/-- What a value stands for, if its lists nest at most `depth` deep. -/
def tree? (s : Store) : (depth : Nat) → Value → Option Datum
  | depth + 1, .list r => do
    let items ← s.lists[r.index]?
    return .list (← items.mapM (s.tree? depth))
  | _, v => s.leaf? v

end Store

theorem mapM_eq_some_iff {α β : Type} {f : α → Option β} : ∀ {as : List α} {bs : List β},
    as.mapM f = some bs ↔ List.Forall₂ (fun a b => f a = some b) as bs
  | [], bs => by cases bs <;> simp
  | a :: as, bs => by
    simp only [List.mapM_cons, Option.bind_eq_bind, Option.bind_eq_some_iff, mapM_eq_some_iff,
      Option.pure_def, Option.some.injEq, List.forall₂_cons_left_iff]
    constructor
    · rintro ⟨b, hb, bs, hbs, rfl⟩
      exact ⟨b, bs, hb, hbs, rfl⟩
    · rintro ⟨b, bs, hb, hbs, rfl⟩
      exact ⟨b, hb, bs, hbs, rfl⟩

/-- Two lists that go with a third one go together. -/
theorem forall₂_of_common {α β γ : Type} {R : γ → α → Prop} {S : γ → β → Prop} {T : α → β → Prop}
    (hT : ∀ {c a b}, R c a → S c b → T a b) {as : List α} {bs : List β} {cs : List γ}
    (hR : List.Forall₂ R cs as) (hS : List.Forall₂ S cs bs) : List.Forall₂ T as bs := by
  induction hR generalizing bs with
  | nil =>
    obtain rfl := List.forall₂_nil_left_iff.1 hS
    exact .nil
  | cons hR _ ih =>
    obtain ⟨b, bs, hhead, htail, rfl⟩ := List.forall₂_cons_left_iff.1 hS
    exact .cons (hT hR hhead) (ih htail)

theorem exists_of_forall₂ {α β : Type} {R : α → β → Prop} {as : List α} {bs : List β}
    (h : List.Forall₂ R as bs) : ∀ b ∈ bs, ∃ a, R a b := by
  induction h with
  | nil => exact List.forall_mem_nil _
  | cons hab _ ih => exact List.forall_mem_cons.2 ⟨⟨_, hab⟩, ih⟩

namespace Store

variable {s t : Store} {k k' : Nat} {v w : Value} {d d' : Datum} {r : ListRef}

/-- The value that stands for a leaf. -/
theorem eq_of_leaf? (h : s.leaf? v = some d) : match d with
    | .number x => v = .number x
    | .string text => ∃ r, v = .string r ∧ s.strings[r.index]? = some text
    | .boolean b => v = .boolean b
    | .range r => v = .range r
    | .none => v = .none
    | .list _ => False := by
  cases v with
  | string r =>
    obtain ⟨text, htext, rfl⟩ := Option.map_eq_some_iff.1 h
    exact ⟨r, rfl, htext⟩
  | list r | function r => exact absurd h nofun
  | _ =>
    obtain rfl := Option.some.inj h
    rfl

theorem tree?_of_leaf? (h : s.leaf? v = some d) (k : Nat) : s.tree? k v = some d := by
  cases v with
  | list r => exact absurd h nofun
  | _ => cases k <;> exact h

theorem tree?_list {vs : List Value} {ds : List Datum} (hvs : s.lists[r.index]? = some vs)
    (hds : List.Forall₂ (fun v d => s.tree? k v = some d) vs ds) :
    s.tree? (k + 1) (.list r) = some (.list ds) := by
  have hitems := mapM_eq_some_iff.2 hds
  simp [tree?, hvs, hitems]

/-- A value with a tree is a leaf, or a list whose elements have trees of less depth. -/
theorem tree?_cases (h : s.tree? k v = some d) : s.leaf? v = some d
    ∨ ∃ r j vs ds, v = .list r ∧ k = j + 1 ∧ s.lists[r.index]? = some vs
      ∧ List.Forall₂ (fun v d => s.tree? j v = some d) vs ds ∧ d = .list ds := by
  unfold tree? at h
  split at h
  · next j r =>
    simp only [Option.bind_eq_bind, Option.bind_eq_some_iff, mapM_eq_some_iff, Option.pure_def,
      Option.some.injEq] at h
    obtain ⟨vs, hvs, ds, hds, rfl⟩ := h
    exact .inr ⟨r, j, vs, ds, rfl, rfl, hvs, hds, rfl⟩
  · exact .inl h

/-- Induction on the tree of a value. -/
theorem tree?_induction
    {motive : (k : Nat) → (v : Value) → (d : Datum) → s.tree? k v = some d → Prop}
    (leaf : ∀ k v d, s.leaf? v = some d → ∀ h, motive k v d h)
    (list : ∀ k r vs ds, s.lists[r.index]? = some vs →
      List.Forall₂ (fun v d => ∃ h, motive k v d h) vs ds →
      ∀ h, motive (k + 1) (.list r) (.list ds) h)
    {k : Nat} {v : Value} {d : Datum} (h : s.tree? k v = some d) : motive k v d h := by
  induction k generalizing v d with
  | zero =>
    rcases tree?_cases h with hleaf | ⟨_, _, _, _, _, hk, _⟩
    · exact leaf 0 v d hleaf h
    · exact absurd hk (Nat.succ_ne_zero _).symm
  | succ k ih =>
    rcases tree?_cases h with hleaf | ⟨r, j, vs, ds, rfl, hj, hvs, hds, rfl⟩
    · exact leaf (k + 1) v d hleaf h
    obtain rfl := Nat.succ.inj hj
    exact list k r vs ds hvs (hds.imp fun _ _ hvd => ⟨hvd, ih hvd⟩) h

/-- **A value has one tree**, however deep one looks. -/
theorem tree?_unique (h : s.tree? k v = some d) (h' : s.tree? k' v = some d') : d = d' := by
  induction h using tree?_induction generalizing k' d' with
  | leaf k v d hleaf => exact Option.some.inj ((tree?_of_leaf? hleaf k').symm.trans h')
  | list k r vs ds hvs hds =>
    rcases tree?_cases h' with hleaf | ⟨r', j', vs', ds', hr, -, hvs', hds', rfl⟩
    · exact absurd hleaf nofun
    obtain rfl := Value.list.inj hr
    obtain rfl := Option.some.inj (hvs.symm.trans hvs')
    have hsame : List.Forall₂ Eq ds ds' :=
      forall₂_of_common (fun ⟨_, hunique⟩ hvd => hunique hvd) hds hds'
    rw [List.forall₂_eq_eq_eq] at hsame
    rw [hsame]

/-! ## Stores that grow -/

theorem Extends.leaf? (h : s.Extends t) (hv : s.leaf? v = some d) : t.leaf? v = some d := by
  cases v with
  | string r =>
    obtain ⟨text, htext, rfl⟩ := Option.map_eq_some_iff.1 hv
    exact Option.map_eq_some_iff.2 ⟨text, h.strings _ _ htext, rfl⟩
  | _ => exact hv

/-- **Values stay what they are** while the store grows. -/
theorem Extends.tree? (h : s.Extends t) (hv : s.tree? k v = some d) : t.tree? k v = some d := by
  induction hv using tree?_induction with
  | leaf k v d hleaf => exact tree?_of_leaf? (h.leaf? hleaf) k
  | list k r vs ds hvs hds => exact tree?_list (h.lists _ _ hvs) (hds.imp fun _ _ ⟨_, hvd⟩ => hvd)

/-! ## Equality -/

theorem equalAt_leaf (hd : d.Plain) (hv : s.leaf? v = some d) (hw : s.leaf? w = some d.shown)
    (depth : Nat) (opened : List (ListRef × ListRef)) : s.equalAt depth opened v w = true := by
  cases hd with
  | @number x hx =>
    obtain rfl : v = .number x := eq_of_leaf? hv
    obtain rfl : w = .number (Number.shown x) := eq_of_leaf? hw
    rw [equalAt]
    exact Number.beq_shown hx
  | string _ =>
    obtain ⟨a, rfl, ha⟩ := eq_of_leaf? hv
    obtain ⟨b, rfl, hb⟩ := eq_of_leaf? hw
    rw [equalAt, string_of_getElem? ha, string_of_getElem? hb, beq_self_eq_true]
  | boolean b =>
    obtain rfl : v = .boolean b := eq_of_leaf? hv
    obtain rfl : w = .boolean b := eq_of_leaf? hw
    rw [equalAt, beq_self_eq_true]
  | @range r _ hr =>
    obtain rfl : v = .range r := eq_of_leaf? hv
    obtain rfl : w = .range r.shown := eq_of_leaf? hw
    rw [equalAt]
    exact (Range.isSound_of_make hr).equals_shown
  | none =>
    obtain rfl : v = .none := eq_of_leaf? hv
    obtain rfl : w = .none := eq_of_leaf? hw
    rw [equalAt]
  | list _ => exact (eq_of_leaf? hv).elim

/-- Lists of equal elements are equal. -/
theorem equalAt_list {a b : ListRef} {opened : List (ListRef × ListRef)} {depth : Nat}
    (h : ∀ j < depth, List.Forall₂ (fun x y => s.equalAt j ((a, b) :: opened) x y = true)
      (s.list a) (s.list b)) : s.equalAt depth opened (.list a) (.list b) = true := by
  cases depth with
  | zero => simp [equalAt]
  | succ depth =>
    obtain ⟨hlength, hall⟩ := List.forall₂_iff_zip.1 (h depth (Nat.lt_succ_self _))
    rw [equalAt]
    split_ifs
    · rfl
    · rfl
    · simp only [hlength, beq_self_eq_true, Bool.true_and, List.all_eq_true, Prod.forall]
      exact fun x y hxy => hall hxy

/-- **A value is equal to one that shows the same data**, also in the midst of a comparison. -/
theorem equalAt_shown (hd : d.Plain) (hv : s.tree? k v = some d)
    (hw : s.tree? k' w = some d.shown) (depth : Nat) (opened : List (ListRef × ListRef)) :
    s.equalAt depth opened v w = true := by
  induction hv using tree?_induction generalizing k' w depth opened with
  | leaf k v d hleaf =>
    rcases tree?_cases hw with hleaf' | ⟨r, j, ws, ds, rfl, rfl, hws, hds, hshown⟩
    · exact equalAt_leaf hd hleaf hleaf' depth opened
    · cases d with
      | list items => exact (eq_of_leaf? hleaf).elim
      | _ => exact absurd hshown nofun
  | list k a vs ds hvs hds =>
    rcases tree?_cases hw with hleaf | ⟨b, j, ws, ds', rfl, rfl, hws, hds', hshown⟩
    · exact (eq_of_leaf? hleaf).elim
    rw [Datum.shown, Datum.list.injEq, Datum.shownAll_eq_map] at hshown
    rw [← hshown, List.forall₂_map_right_iff] at hds'
    refine equalAt_list fun depth _ => ?_
    rw [list_of_getElem? hvs, list_of_getElem? hws]
    refine forall₂_of_common ?_ ((List.forall₂_and_left _ _).2 ⟨hd.items, hds.flip⟩) hds'.flip
    rintro d v w ⟨hd, -, hequal⟩ hw
    exact hequal hd hw depth _

end Store

end CommandScript
