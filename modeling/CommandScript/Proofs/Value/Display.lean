import CommandScript.Proofs.Value.Store
import CommandScript.Value.Display
import Mathlib.Logic.Relation
import Mathlib.Tactic.Choose

/-!
# Proofs/Value/Display — the text of values that may hold themselves

Writing a value follows handles, and the lists it is inside of are open meanwhile. `Store.Writes`
is this writing as it runs, with nothing that bounds its depth; what it ends with is a `Layout`, in
which `[...]` can be told from a text that happens to be the same. Writing ends, since every list
that is opened is a new one (`Store.writes_textAt`), and `[...]` stands exactly at the places that
lead to a list which is open on the way (`Writes.sub?_eq_again_iff`). Where no list can be reached
from itself, the text is the plain one (`Store.Renders`), however lists are shared.
-/

namespace CommandScript

/-- What is written for a value: a text, what stands for an open list, or the elements of a list. -/
inductive Layout
  | text (t : String)
  | again
  | items (elements : List Layout)
deriving Inhabited

namespace Layout

mutual
/-- The text that is written. -/
def written : Layout → String
  | text t => t
  | again => Store.ellipsis
  | items ls => "[" ++ ", ".intercalate (writtenAll ls) ++ "]"

/-- The text of each. -/
def writtenAll : List Layout → List String
  | [] => []
  | l :: ls => l.written :: writtenAll ls
end

theorem writtenAll_eq_map : ∀ ls : List Layout, writtenAll ls = ls.map written
  | [] => rfl
  | l :: ls => by rw [writtenAll, writtenAll_eq_map ls, List.map_cons]

/-- What stands at a place, which is given by the numbers of the elements that lead to it. -/
def sub? : Layout → List Nat → Option Layout
  | l, [] => some l
  | items ls, i :: place => ls[i]?.bind fun l => l.sub? place
  | _, _ :: _ => none

end Layout

/-- Lists that go with a third one are equal if they agree at each of its elements. -/
theorem eq_of_aligned {α β : Type} {as : List α} {bs cs : List β} (hbs : bs.length = as.length)
    (hcs : cs.length = as.length)
    (h : ∀ (i : Nat) a b c, as[i]? = some a → bs[i]? = some b → cs[i]? = some c → b = c) :
    bs = cs :=
  List.ext_getElem (hbs.trans hcs.symm) fun i hi hi' =>
    h i _ _ _ (List.getElem?_eq_getElem (hbs ▸ hi)) (List.getElem?_eq_getElem hi)
      (List.getElem?_eq_getElem hi')

namespace Store

/-- The text of a value that is no list; inside of lists strings stand in quotes. -/
def leafText? (s : Store) (inside : Bool) : Value → Option String
  | .number x => some (Number.display x)
  | .string r => some (if inside then "'" ++ s.string r ++ "'" else s.string r)
  | .boolean b => some (if b then "true" else "false")
  | .range r => some r.text
  | .none => some "none"
  | .function f => some (((s.function? f).map Closure.text).getD "")
  | .list _ => none

/-- Writing a value ends with the layout, while the given lists are open. -/
inductive Writes (s : Store) : List ListRef → Value → Layout → Prop
  | leaf {opened : List ListRef} {v : Value} {t : String} :
    s.leafText? (!opened.isEmpty) v = some t → Writes s opened v (.text t)
  /-- The list is open already. -/
  | again {opened : List ListRef} {r : ListRef} : r ∈ opened → Writes s opened (.list r) .again
  /-- The list is open while its elements are written. -/
  | items {opened : List ListRef} {r : ListRef} {ls : List Layout} : r ∉ opened →
    ls.length = (s.list r).length →
    (∀ (i : Nat) v l, (s.list r)[i]? = some v → ls[i]? = some l → Writes s (r :: opened) v l) →
    Writes s opened (.list r) (.items ls)

/-- From a value, while the first lists are open, the place leads to another value, and then the
second lists are open. No place leads into a list that is open already. -/
inductive Leads (s : Store) : List ListRef → Value → List Nat → List ListRef → Value → Prop
  | here {opened : List ListRef} {v : Value} : Leads s opened v [] opened v
  | into {opened path : List ListRef} {r : ListRef} {i : Nat} {place : List Nat} {v w : Value} :
    r ∉ opened → (s.list r)[i]? = some v →
    Leads s (r :: opened) v place path w → Leads s opened (.list r) (i :: place) path w

/-- The first list holds the second. -/
def Holds (s : Store) (r q : ListRef) : Prop := .list q ∈ s.list r

/-- No list that can be reached from the value can be reached from itself. -/
def Acyclic (s : Store) (v : Value) : Prop :=
  ∀ r q, v = .list r → Relation.ReflTransGen s.Holds r q → ¬ Relation.TransGen s.Holds q q

/-- The plain text of a value, with every list written in full wherever it stands. -/
inductive Renders (s : Store) : (inside : Bool) → Value → String → Prop
  | leaf {inside : Bool} {v : Value} {t : String} : s.leafText? inside v = some t →
    Renders s inside v t
  | list {inside : Bool} {r : ListRef} {ts : List String} : ts.length = (s.list r).length →
    (∀ (i : Nat) v t, (s.list r)[i]? = some v → ts[i]? = some t → Renders s true v t) →
    Renders s inside (.list r) ("[" ++ ", ".intercalate ts ++ "]")

variable {s : Store} {opened path : List ListRef} {v w : Value} {l : Layout} {r : ListRef}
  {depth : Nat} {inside : Bool} {t : String}

/-! ## Writing ends -/

/-- Writing a value ends with one layout at most. -/
theorem Writes.unique {l' : Layout} (h : s.Writes opened v l) (h' : s.Writes opened v l') :
    l = l' := by
  induction h generalizing l' with
  | leaf ht =>
    cases h' with
    | leaf ht' => rw [Option.some.inj (ht.symm.trans ht')]
    | again _ | items _ _ _ => exact absurd ht nofun
  | again hmem =>
    cases h' with
    | leaf ht => exact absurd ht nofun
    | again _ => rfl
    | items hnew _ _ => exact absurd hmem hnew
  | items hnew hlen _ ih =>
    cases h' with
    | leaf ht => exact absurd ht nofun
    | again hmem => exact absurd hmem hnew
    | items _ hlen' hall =>
      exact congrArg _ (eq_of_aligned hlen hlen' fun i v l l' hv hl hl' =>
        ih i v l hv hl (hall i v l' hv hl'))

/-- The open lists are lists of the store, each opened once, and lists may nest as deep as there are
others. -/
structure HasRoom (s : Store) (depth : Nat) (opened : List ListRef) : Prop where
  nodup : opened.Nodup
  stored : ∀ r ∈ opened, r.index < s.lists.size
  room : s.lists.size < depth + opened.length

theorem hasRoom_nil (s : Store) : s.HasRoom (s.lists.size + 1) [] :=
  ⟨List.nodup_nil, List.forall_mem_nil _, Nat.lt_succ_self _⟩

theorem HasRoom.depth_pos (h : s.HasRoom depth opened) : 0 < depth := by
  have hle := length_le_size h.nodup h.stored
  have hroom := h.room
  omega

/-- A list with elements is opened only if it is in the store. -/
theorem HasRoom.cons (h : s.HasRoom (depth + 1) opened) (hnew : r ∉ opened) (hv : v ∈ s.list r) :
    s.HasRoom depth (r :: opened) where
  nodup := List.nodup_cons.2 ⟨hnew, h.nodup⟩
  stored := List.forall_mem_cons.2 ⟨index_lt_of_mem hv, h.stored⟩
  room := by
    have hroom := h.room
    rw [List.length_cons]
    omega

/-- The text of a value as it stands in the open lists: in quotes if it is a string and there is
one. -/
def textAt (s : Store) (depth : Nat) (opened : List ListRef) (v : Value) : String :=
  if opened.isEmpty then s.displayAt depth opened v else s.quote (s.displayAt depth opened) v

theorem textAt_of_leaf (h : s.leafText? (!opened.isEmpty) v = some t) :
    s.textAt depth opened v = t := by
  cases v with
  | list r => exact absurd h nofun
  | string r =>
    obtain rfl := Option.some.inj h
    cases opened <;> simp [textAt, quote, displayAt]
  | _ =>
    obtain rfl := Option.some.inj h
    rw [textAt, quote, displayAt, ite_self]
    exact nofun

theorem textAt_list (s : Store) (depth : Nat) (opened : List ListRef) (r : ListRef) :
    s.textAt depth opened (.list r) = s.displayAt depth opened (.list r) := by
  rw [textAt, quote, ite_self]
  exact nofun

theorem exists_list_of_leafText? (h : s.leafText? inside v = none) : ∃ r, v = .list r := by
  cases v with
  | list r => exact ⟨r, rfl⟩
  | _ => exact absurd h nofun

/-- **Writing ends**, with the text that is computed. -/
theorem writes_textAt (h : s.HasRoom depth opened) (v : Value) :
    ∃ l, s.Writes opened v l ∧ l.written = s.textAt depth opened v := by
  induction depth generalizing opened v with
  | zero => exact absurd h.depth_pos (Nat.lt_irrefl 0)
  | succ depth ih =>
    cases hleaf : s.leafText? (!opened.isEmpty) v with
    | some t => exact ⟨.text t, .leaf hleaf, (textAt_of_leaf hleaf).symm⟩
    | none =>
      obtain ⟨r, rfl⟩ := exists_list_of_leafText? hleaf
      rw [textAt_list, displayAt]
      by_cases hmem : r ∈ opened
      · rw [if_pos (List.contains_iff_mem.2 hmem)]
        exact ⟨.again, .again hmem, rfl⟩
      rw [if_neg (mt List.contains_iff_mem.1 hmem)]
      have hitems : ∀ v ∈ s.list r, ∃ l, s.Writes (r :: opened) v l
          ∧ l.written = s.textAt depth (r :: opened) v := fun v hv => ih (h.cons hmem hv) v
      choose! layout hlayout using hitems
      refine ⟨.items ((s.list r).map layout), .items hmem (List.length_map _) ?_, ?_⟩
      · intro i v l hv hl
        rw [List.getElem?_map, hv] at hl
        obtain rfl := Option.some.inj hl
        exact (hlayout v (List.mem_of_getElem? hv)).1
      · have htexts : ((s.list r).map layout).map Layout.written
            = (s.list r).map (s.quote (s.displayAt depth (r :: opened))) := by
          rw [List.map_map]
          exact List.map_congr_left fun v hv => (hlayout v hv).2
        rw [Layout.written, Layout.writtenAll_eq_map, htexts]

/-! ## Where `[...]` stands -/

/-- **At each place stands what is written there**, with the lists open that lead there. -/
theorem Writes.sub?_eq_some_iff {place : List Nat} {l' : Layout} (h : s.Writes opened v l) :
    l.sub? place = some l' ↔ ∃ path w, s.Leads opened v place path w ∧ s.Writes path w l' := by
  induction place generalizing opened v l with
  | nil =>
    rw [Layout.sub?, Option.some.injEq]
    constructor
    · rintro rfl
      exact ⟨opened, v, .here, h⟩
    · rintro ⟨path, w, hleads, hwrites⟩
      cases hleads
      exact h.unique hwrites
  | cons i place ih =>
    cases h with
    | leaf ht =>
      refine iff_of_false nofun ?_
      rintro ⟨path, w, hleads, -⟩
      cases hleads
      exact absurd ht nofun
    | again hmem =>
      refine iff_of_false nofun ?_
      rintro ⟨path, w, hleads, -⟩
      cases hleads with
      | into hnew _ _ => exact hnew hmem
    | @items _ r ls hnew hlen hall =>
      rw [Layout.sub?, Option.bind_eq_some_iff]
      constructor
      · rintro ⟨l, hl, hsub⟩
        obtain ⟨hi, -⟩ := List.getElem?_eq_some_iff.1 hl
        have hv := List.getElem?_eq_getElem (hlen ▸ hi)
        obtain ⟨path, w, hleads, hwrites⟩ := (ih (hall i _ l hv hl)).1 hsub
        exact ⟨path, w, .into hnew hv hleads, hwrites⟩
      · rintro ⟨path, w, hleads, hwrites⟩
        cases hleads with
        | into _ hv hleads =>
          obtain ⟨hi, -⟩ := List.getElem?_eq_some_iff.1 hv
          have hl := List.getElem?_eq_getElem (hlen ▸ hi)
          exact ⟨_, hl, (ih (hall i _ _ hv hl)).2 ⟨path, w, hleads, hwrites⟩⟩

/-- **`[...]` stands where the place leads to a list that is open.** -/
theorem Writes.sub?_eq_again_iff {place : List Nat} (h : s.Writes opened v l) :
    l.sub? place = some .again
      ↔ ∃ path r, s.Leads opened v place path (.list r) ∧ r ∈ path := by
  rw [h.sub?_eq_some_iff]
  constructor
  · rintro ⟨path, w, hleads, hagain⟩
    cases hagain with
    | again hmem => exact ⟨path, _, hleads, hmem⟩
  · rintro ⟨path, r, hleads, hmem⟩
    exact ⟨path, .list r, hleads, .again hmem⟩

/-! ## Lists that do not hold themselves -/

theorem Acyclic.of_mem (h : s.Acyclic (.list r)) (hv : v ∈ s.list r) : s.Acyclic v := by
  rintro q x rfl hreach
  exact h r x rfl (.head hv hreach)

theorem Renders.unique {t' : String} (h : s.Renders inside v t) (h' : s.Renders inside v t') :
    t = t' := by
  induction h generalizing t' with
  | leaf ht =>
    cases h' with
    | leaf ht' => exact Option.some.inj (ht.symm.trans ht')
    | list _ _ => exact absurd ht nofun
  | list hlen _ ih =>
    cases h' with
    | leaf ht => exact absurd ht nofun
    | list hlen' hall =>
      rw [eq_of_aligned hlen hlen' fun i v t t' hv ht ht' => ih i v t hv ht (hall i v t' hv ht')]

/-- What is written is plain, if no list is reached again from one that is open. -/
theorem Writes.renders (h : s.Writes opened v l) (hv : s.Acyclic v)
    (hopened : ∀ q ∈ opened, ∀ r, v = .list r → Relation.TransGen s.Holds q r) :
    s.Renders (!opened.isEmpty) v l.written := by
  induction h with
  | leaf ht => exact .leaf ht
  | @again opened r hmem => exact absurd (hopened r hmem r rfl) (hv r r rfl .refl)
  | @items opened r ls hnew hlen _ ih =>
    rw [Layout.written, Layout.writtenAll_eq_map]
    refine .list ((List.length_map _).trans hlen) fun i v t hv' ht => ?_
    rw [List.getElem?_map, Option.map_eq_some_iff] at ht
    obtain ⟨l, hl, rfl⟩ := ht
    have hmem := List.mem_of_getElem? hv'
    refine ih i v l hv' hl (hv.of_mem hmem) (List.forall_mem_cons.2 ⟨?_, fun q hq => ?_⟩)
    · rintro q rfl
      exact .single hmem
    · rintro x rfl
      exact (hopened q hq r rfl).tail hmem

/-- **The display of a value is faithful.** Whatever lists hold each other, writing a value ends,
with the text that displays it, and `[...]` stands exactly at the places that lead to a list which
is open already. If no list that can be reached from the value can be reached from itself, the text
is the plain one. -/
theorem exists_layout_display (s : Store) (v : Value) : ∃ l : Layout,
    (∀ l', s.Writes [] v l' ↔ l' = l) ∧ l.written = s.display v
      ∧ (∀ place, l.sub? place = some .again
          ↔ ∃ path r, s.Leads [] v place path (.list r) ∧ r ∈ path)
      ∧ (s.Acyclic v → ∀ t, s.Renders false v t ↔ t = s.display v) := by
  obtain ⟨l, hl, hwritten⟩ := writes_textAt s.hasRoom_nil v
  refine ⟨l, fun l' => ⟨fun h => h.unique hl, fun h => h ▸ hl⟩, hwritten,
    fun place => hl.sub?_eq_again_iff, fun hv t => ?_⟩
  have hplain : s.Renders false v (s.display v) := by
    have hrenders := hl.renders hv (List.forall_mem_nil _)
    rwa [hwritten] at hrenders
  exact ⟨fun h => h.unique hplain, fun h => h ▸ hplain⟩

/-- A list that holds another one twice, and a third one that holds the first and itself. -/
def tangledStore : Store :=
  ⟨#["a"], #[[.list ⟨1⟩, .list ⟨1⟩], [.string ⟨0⟩, .none], [.list ⟨0⟩, .list ⟨2⟩]], #[]⟩

theorem holds_tangledStore {r q : ListRef} (h : tangledStore.Holds r q) (hr : r.index < 2) :
    r.index < q.index ∧ q.index < 2 := by
  obtain ⟨i⟩ := r
  obtain rfl | rfl : i = 0 ∨ i = 1 := by
    have hi : i < 2 := hr
    omega
  all_goals simp_all [Holds, tangledStore, list]

theorem acyclic_tangledStore : tangledStore.Acyclic (.list ⟨0⟩) := by
  intro r q hr hreach hcycle
  have hbelow {x y : ListRef} (hx : x.index < 2) (h : Relation.TransGen tangledStore.Holds x y) :
      x.index < y.index ∧ y.index < 2 := by
    induction h with
    | single h => exact holds_tangledStore h hx
    | tail _ h ih =>
      obtain ⟨hlt, hsmall⟩ := holds_tangledStore h ih.2
      exact ⟨ih.1.trans hlt, hsmall⟩
  have hq : q.index < 2 := by
    obtain rfl := Value.list.inj hr
    obtain rfl | h := Relation.reflTransGen_iff_eq_or_transGen.1 hreach
    · decide
    · exact (hbelow (by decide) h).2
  exact Nat.lt_irrefl _ (hbelow hq hcycle).1

theorem exists_layout_display_tangledStore : tangledStore.Acyclic (.list ⟨0⟩)
    ∧ tangledStore.Renders false (.list ⟨0⟩) "[['a', none], ['a', none]]"
    ∧ ∃ l : Layout, l.written = "[[['a', none], ['a', none]], [...]]"
      ∧ l.written = tangledStore.display (.list ⟨2⟩) ∧ l.sub? [1] = some .again := by
  obtain ⟨-, -, -, -, hplain⟩ := tangledStore.exists_layout_display (.list ⟨0⟩)
  obtain ⟨l, -, hl, hagain, -⟩ := tangledStore.exists_layout_display (.list ⟨2⟩)
  refine ⟨acyclic_tangledStore, (hplain acyclic_tangledStore _).2 (by decide), l, ?_, hl, ?_⟩
  · rw [hl]
    decide
  · exact (hagain [1]).2 ⟨[⟨2⟩], ⟨2⟩, .into List.not_mem_nil rfl .here, List.mem_singleton.2 rfl⟩

end Store

end CommandScript
