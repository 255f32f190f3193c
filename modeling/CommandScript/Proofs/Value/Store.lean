import CommandScript.Value.Basic
import Mathlib.Data.List.Nodup
import Mathlib.Data.List.Perm.Subperm
import Mathlib.Data.List.Range

/-!
# Proofs/Value/Store — what happens to the cells of a store

A store that grows keeps all its cells (`Store.Extends`), and one in which the cell of a value is
written keeps all others (`Store.ChangesOnly`). A store has finitely many lists, so that no more of
them are open at once than it has (`Store.length_le_size`).
-/

namespace CommandScript

namespace Store

variable {s t u : Store} {r : ListRef} {v : Value}

/-! ## Reading -/

theorem string_of_getElem? {r : StringRef} {text : String} (h : s.strings[r.index]? = some text) :
    s.string r = text := by
  rw [string, h, Option.getD_some]

theorem list_of_getElem? {items : List Value} (h : s.lists[r.index]? = some items) :
    s.list r = items := by
  rw [list, h, Option.getD_some]

theorem index_lt_of_mem (h : v ∈ s.list r) : r.index < s.lists.size := by
  rw [← not_le]
  intro hle
  rw [list, Array.getElem?_eq_none hle] at h
  exact absurd h List.not_mem_nil

theorem index_lt_of_toList_ne_nil {r : StringRef} (h : (s.string r).toList ≠ []) :
    r.index < s.strings.size := by
  rw [← not_le]
  intro hle
  rw [string, Array.getElem?_eq_none hle] at h
  exact h rfl

/-- No more lists are open than there are. -/
theorem length_le_size {opened : List ListRef} (hnodup : opened.Nodup)
    (hlt : ∀ r ∈ opened, r.index < s.lists.size) : opened.length ≤ s.lists.size := by
  have hinjective : Function.Injective ListRef.index := fun a b h => congrArg ListRef.mk h
  have hindices : (opened.map ListRef.index).Nodup := List.Nodup.map hinjective hnodup
  have hsub : opened.map ListRef.index ⊆ List.range s.lists.size := by
    intro i hi
    obtain ⟨r, hr, rfl⟩ := List.mem_map.1 hi
    exact List.mem_range.2 (hlt r hr)
  simpa using (List.subperm_of_subset hindices hsub).length_le

/-! ## Stores that grow -/

/-- All cells are kept as they are. -/
structure Extends (s t : Store) : Prop where
  strings : ∀ (i : Nat) text, s.strings[i]? = some text → t.strings[i]? = some text
  lists : ∀ (i : Nat) items, s.lists[i]? = some items → t.lists[i]? = some items
  functions : ∀ (i : Nat) f, s.functions[i]? = some f → t.functions[i]? = some f

theorem Extends.refl (s : Store) : s.Extends s :=
  ⟨fun _ _ h => h, fun _ _ h => h, fun _ _ h => h⟩

theorem Extends.trans (h : s.Extends t) (h' : t.Extends u) : s.Extends u :=
  ⟨fun i text hi => h'.strings i text (h.strings i text hi),
    fun i items hi => h'.lists i items (h.lists i items hi),
    fun i f hi => h'.functions i f (h.functions i f hi)⟩

theorem getElem?_push_of_some {α : Type} {cells : Array α} {i : Nat} {a b : α}
    (h : cells[i]? = some a) : (cells.push b)[i]? = some a := by
  obtain ⟨hi, -⟩ := Array.getElem?_eq_some_iff.1 h
  rw [Array.getElem?_push, if_neg (Nat.ne_of_lt hi), h]

theorem extends_newString (s : Store) (text : String) : s.Extends (s.newString text).2 :=
  ⟨fun _ _ h => getElem?_push_of_some h, fun _ _ h => h, fun _ _ h => h⟩

theorem extends_newList (s : Store) (items : List Value) : s.Extends (s.newList items).2 :=
  ⟨fun _ _ h => h, fun _ _ h => getElem?_push_of_some h, fun _ _ h => h⟩

theorem extends_place (s : Store) (result : Fresh) : s.Extends (s.place result).2 := by
  cases result with
  | value v => exact .refl s
  | string text => exact extends_newString s text
  | list items => exact extends_newList s items

/-! ## Stores in which one cell is written -/

/-- All cells but that of the value are kept as they are, and none goes away. -/
structure ChangesOnly (s : Store) (v : Value) (t : Store) : Prop where
  strings : ∀ (i : Nat) text, s.strings[i]? = some text → v ≠ .string ⟨i⟩ →
    t.strings[i]? = some text
  lists : ∀ (i : Nat) items, s.lists[i]? = some items → v ≠ .list ⟨i⟩ → t.lists[i]? = some items
  functions : ∀ (i : Nat) f, s.functions[i]? = some f → t.functions[i]? = some f
  strings_size : s.strings.size ≤ t.strings.size
  lists_size : s.lists.size ≤ t.lists.size

theorem size_le_of_getElem? {α : Type} {cells cells' : Array α}
    (h : ∀ (i : Nat) a, cells[i]? = some a → cells'[i]? = some a) : cells.size ≤ cells'.size := by
  by_contra hlt
  have hcell := h cells'.size _ (Array.getElem?_eq_getElem (Nat.lt_of_not_le hlt))
  rw [Array.getElem?_eq_none (Nat.le_refl _)] at hcell
  exact absurd hcell nofun

theorem Extends.changesOnly (h : s.Extends t) (v : Value) : s.ChangesOnly v t where
  strings i text hi _ := h.strings i text hi
  lists i items hi _ := h.lists i items hi
  functions := h.functions
  strings_size := size_le_of_getElem? h.strings
  lists_size := size_le_of_getElem? h.lists

theorem ChangesOnly.trans (h : s.ChangesOnly v t) (h' : t.ChangesOnly v u) :
    s.ChangesOnly v u where
  strings i text hi hv := h'.strings i text (h.strings i text hi hv) hv
  lists i items hi hv := h'.lists i items (h.lists i items hi hv) hv
  functions i f hi := h'.functions i f (h.functions i f hi)
  strings_size := h.strings_size.trans h'.strings_size
  lists_size := h.lists_size.trans h'.lists_size

/-- The store may grow afterwards. -/
theorem ChangesOnly.trans_extends (h : s.ChangesOnly v t) (h' : t.Extends u) :
    s.ChangesOnly v u :=
  h.trans (h'.changesOnly v)

theorem ChangesOnly.string_eq {r : StringRef} (h : s.ChangesOnly v t)
    (hr : r.index < s.strings.size) (hv : v ≠ .string r) : t.string r = s.string r := by
  have hcell := Array.getElem?_eq_getElem hr
  rw [string_of_getElem? (h.strings _ _ hcell hv), string_of_getElem? hcell]

theorem ChangesOnly.list_eq (h : s.ChangesOnly v t) (hr : r.index < s.lists.size)
    (hv : v ≠ .list r) : t.list r = s.list r := by
  have hcell := Array.getElem?_eq_getElem hr
  rw [list_of_getElem? (h.lists _ _ hcell hv), list_of_getElem? hcell]

theorem Extends.string_eq {r : StringRef} (h : s.Extends t) (hr : r.index < s.strings.size) :
    t.string r = s.string r :=
  (h.changesOnly .none).string_eq hr nofun

theorem changesOnly_setString (s : Store) (r : StringRef) (text : String) :
    s.ChangesOnly (.string r) (s.setString r text) where
  strings i text' hi hr := by
    have hne : r.index ≠ i := fun h => hr (congrArg (fun i => Value.string ⟨i⟩) h)
    rw [setString, Array.getElem?_setIfInBounds_ne hne, hi]
  lists _ _ hi _ := hi
  functions _ _ hi := hi
  strings_size := by simp [setString]
  lists_size := Nat.le_refl _

theorem changesOnly_setList (s : Store) (r : ListRef) (items : List Value) :
    s.ChangesOnly (.list r) (s.setList r items) where
  strings _ _ hi _ := hi
  lists i items' hi hr := by
    have hne : r.index ≠ i := fun h => hr (congrArg (fun i => Value.list ⟨i⟩) h)
    rw [setList, Array.getElem?_setIfInBounds_ne hne, hi]
  functions _ _ hi := hi
  strings_size := Nat.le_refl _
  lists_size := by simp [setList]

theorem string_setString {r : StringRef} (hr : r.index < s.strings.size) (text : String) :
    (s.setString r text).string r = text :=
  string_of_getElem? (Array.getElem?_setIfInBounds_self_of_lt hr)

theorem list_setList (hr : r.index < s.lists.size) (items : List Value) :
    (s.setList r items).list r = items :=
  list_of_getElem? (Array.getElem?_setIfInBounds_self_of_lt hr)

end Store

end CommandScript
