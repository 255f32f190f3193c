import CommandScript.Proofs.Value.Mirror

/-!
# Proofs/Value/Undo — insertion and removal undo each other

`push` is an insertion at the end and `pop` a removal there, so two facts are enough, one for each
order: an element that is put in at a position is the one that is taken out there, and one that is
taken out can be put back. Either way the sequence holds what it held before, and no other cell has
changed (`Store.IsSequence.take_put`, `Store.IsSequence.put_take`). A list gives back the element
itself. A string gives back a new string; it is equal to the one that went in, also if that was the
string itself.
-/

namespace CommandScript

namespace Store

variable {s t u : Store} {x v w a : Value} {r : StringRef} {l : ListRef} {n i : Nat}
  {c : Char} {op : Operation Value} {answer : Answer}

/-! ## Lists and strings alike -/

/-- The value is a list or a string of the store, with so many elements. -/
inductive IsSequence (s : Store) : Value → Nat → Prop
  | list {l : ListRef} : l.index < s.lists.size → IsSequence s (.list l) (s.list l).length
  | string {r : StringRef} : r.index < s.strings.size →
    IsSequence s (.string r) (s.string r).toList.length

/-- What is given back for a value: by a list the value itself, by a string one that is equal. -/
def GivesBack (s : Store) : (x v w : Value) → Prop
  | .list _, v, w => w = v
  | _, v, w => s.equal w v = true

/-- An operation that succeeds has an edit. -/
theorem IsSequence.exists_edit (hx : s.IsSequence x n) (h : s.perform x op = .ok (v, t)) :
    ∃ e, op.edit n = .ok e := by
  cases hx with
  | list hl =>
    rw [perform_list] at h
    cases hedit : op.edit (s.list _).length with
    | error e =>
      rw [hedit] at h
      cases h
    | ok e => exact ⟨e, rfl⟩
  | string hr =>
    rw [perform_string] at h
    obtain ⟨e, he, -⟩ := exists_of_bind_eq_ok h
    exact ⟨e, he⟩

theorem perform_list_of_edit {e : Edit Value} (h : op.edit (s.list l).length = .ok e) :
    s.perform (.list l) op = .ok (s.editList l e) := by
  rw [perform_list, h]
  rfl

theorem perform_string_of_edit {e : Edit Value} (h : op.edit (s.string r).toList.length = .ok e) :
    s.perform (.string r) op = s.editString r e := by
  rw [perform_string, h]
  rfl

/-- Where a string has its text back, all cells are as they were. -/
theorem ChangesOnly.extends_of_string (h : s.ChangesOnly (.string r) t)
    (hr : r.index < s.strings.size) (htext : t.string r = s.string r) : s.Extends t := by
  refine ⟨fun i text hi => ?_, fun i items hi => h.lists i items hi nofun, h.functions⟩
  by_cases hir : r = ⟨i⟩
  · subst hir
    rw [string_of_getElem? hi] at htext
    rw [← htext, string, Array.getElem?_eq_getElem (hr.trans_le h.strings_size), Option.getD_some]
  · exact h.strings i text hi fun heq => hir (Value.string.inj heq)

theorem setList_setList (s : Store) (l : ListRef) (items items' : List Value) :
    (s.setList l items).setList l items' = s.setList l items' := by
  simp [setList]

theorem list_editList (hl : l.index < s.lists.size) (e : Edit Value) :
    (s.editList l e).2.list l = e.apply (s.list l) :=
  list_setList hl _

theorem editList_editList (hl : l.index < s.lists.size) (d e : Edit Value) :
    ((s.editList l d).2.editList l e).2 = s.setList l (e.apply (d.apply (s.list l))) := by
  rw [editList, list_editList hl]
  exact setList_setList s l _ _

theorem changesOnly_editString {e : Edit Value} (h : s.editString r e = .ok (a, t)) :
    s.ChangesOnly (.string r) t := by
  obtain ⟨new, -, h⟩ := exists_of_bind_eq_ok h
  obtain rfl := congrArg Prod.snd (Except.ok.inj h)
  exact (changesOnly_setString s r _).trans_extends (extends_ofChars _ _ _)

/-! ## Taking out what was put in -/

theorem editList_take_put (hl : l.index < s.lists.size) (hi : i ≤ (s.list l).length) :
    (s.editList l (.put i v answer)).2.editList l (.take i) = (v, s) := by
  refine Prod.ext ?_ ?_
  · rw [editList, list_editList hl, Edit.apply_put _ _ hi]
    change ((s.list l).insertIdx i v)[i]?.getD .none = v
    rw [List.getElem?_insertIdx_self, if_pos hi, Option.getD_some]
  · rw [editList_editList hl, Edit.apply_put _ _ hi, Edit.apply_take, List.eraseIdx_insertIdx_self,
      setList_list]

theorem exists_editString_put (hr : r.index < s.strings.size) (hi : i ≤ (s.string r).toList.length)
    (hv : s.IsChar v c) (answer : Answer) :
    ∃ a t, s.editString r (.put i v answer) = .ok (a, t)
      ∧ (t.string r).toList = (s.string r).toList.insertIdx i c := by
  have hput := editString_put s r hi v answer
  rw [hv.oneChar] at hput
  have htext := congrArg String.toList (string_ofChars hr answer (s.string r).toList
    (String.ofList ((s.string r).toList.insertIdx i c)))
  exact ⟨_, _, hput, htext.trans String.toList_ofList⟩

theorem exists_editString_take (hr : r.index < s.strings.size)
    (hc : (s.string r).toList[i]? = some c) :
    ∃ w t, s.editString r (.take i) = .ok (w, t) ∧ t.IsChar w c
      ∧ (t.string r).toList = (s.string r).toList.eraseIdx i := by
  have hback (t : Store) : Answer.ofChars (s.string r).toList t (.element i) = t.newChar c := by
    rw [Answer.ofChars, hc]
    rfl
  have htake := editString_take s r i
  have htext := congrArg String.toList (string_ofChars hr (.element i) (s.string r).toList
    (String.ofList ((s.string r).toList.eraseIdx i)))
  rw [hback] at htake htext
  exact ⟨_, _, htake, isChar_newChar _ c, htext.trans String.toList_ofList⟩

/-- Only a string of one character can be put in. -/
theorem editString_put_eq_ok (hr : r.index < s.strings.size) (hi : i ≤ (s.string r).toList.length)
    (h : s.editString r (.put i v answer) = .ok (a, t)) :
    ∃ c, s.IsChar v c ∧ (t.string r).toList = (s.string r).toList.insertIdx i c := by
  cases hc : s.oneChar v with
  | error e =>
    rw [editString_put s r hi, hc] at h
    cases h
  | ok c =>
    obtain ⟨a', t', hput, ht⟩ := exists_editString_put hr hi hc answer
    cases h.symm.trans hput
    exact ⟨c, hc, ht⟩

theorem editString_take_put (hr : r.index < s.strings.size) (hi : i ≤ (s.string r).toList.length)
    (h : s.editString r (.put i v answer) = .ok (a, t)) :
    ∃ c w u, s.IsChar v c ∧ t.editString r (.take i) = .ok (w, u) ∧ u.IsChar w c ∧ s.Extends u := by
  obtain ⟨c, hv, ht⟩ := editString_put_eq_ok hr hi h
  have hst := changesOnly_editString h
  have hc : (t.string r).toList[i]? = some c := by rw [ht, List.getElem?_insertIdx_self, if_pos hi]
  obtain ⟨w, u, htake, hw, hu⟩ := exists_editString_take (hr.trans_le hst.strings_size) hc
  rw [ht, List.eraseIdx_insertIdx_self, String.toList_inj] at hu
  have hsu := hst.trans (changesOnly_editString htake)
  exact ⟨c, w, u, hv, htake, hw, hsu.extends_of_string hr hu⟩

/-- **What is put in is what is taken out there.** -/
theorem IsSequence.take_put {op' : Operation Value} (hx : s.IsSequence x n)
    (hop : op.edit n = .ok (.put i v answer)) (hi : i ≤ n) (hop' : op'.edit (n + 1) = .ok (.take i))
    (h : s.perform x op = .ok (a, t)) :
    ∃ w u, t.perform x op' = .ok (w, u) ∧ s.Extends u ∧ u.GivesBack x v w := by
  cases hx with
  | @list l hl =>
    rw [perform_list_of_edit hop] at h
    obtain rfl : (s.editList l (.put i v answer)).2 = t := congrArg Prod.snd (Except.ok.inj h)
    have hlen : ((s.editList l (.put i v answer)).2.list l).length = (s.list l).length + 1 := by
      rw [list_editList hl, Edit.apply_put _ _ hi, List.length_insertIdx_of_le_length hi]
    rw [← hlen] at hop'
    exact ⟨v, s, by rw [perform_list_of_edit hop', editList_take_put hl hi], .refl s, rfl⟩
  | @string r hr =>
    rw [perform_string_of_edit hop] at h
    obtain ⟨_, -, ht⟩ := editString_put_eq_ok hr hi h
    have hlen : (t.string r).toList.length = (s.string r).toList.length + 1 := by
      rw [ht, List.length_insertIdx_of_le_length hi]
    rw [← hlen] at hop'
    obtain ⟨c, w, u, hv, htake, hw, hsu⟩ := editString_take_put hr hi h
    refine ⟨w, u, by rw [perform_string_of_edit hop', htake], hsu, ?_⟩
    exact Likewise.equal (.char hw (hv.extends hsu))

/-! ## Putting back what was taken out -/

theorem editList_put_take (hl : l.index < s.lists.size) (hi : i < (s.list l).length) :
    ((s.editList l (.take i)).2.editList l (.put i (s.editList l (.take i)).1 answer)).2 = s := by
  have hback : (s.editList l (.take i)).1 = (s.list l)[i] := by
    change (s.list l)[i]?.getD .none = _
    rw [List.getElem?_eq_getElem hi, Option.getD_some]
  have hle : i ≤ ((s.list l).eraseIdx i).length := by
    rw [List.length_eraseIdx_of_lt hi]
    omega
  rw [editList_editList hl, hback, Edit.apply_take, Edit.apply_put _ _ hle,
    List.insertIdx_eraseIdx_getElem hi, setList_list]

/-- **What is taken out can be put back.** -/
theorem IsSequence.put_take {op' : Value → Operation Value} (hx : s.IsSequence x (n + 1))
    (hop : op.edit (n + 1) = .ok (.take i)) (hi : i < n + 1)
    (hop' : ∀ w, (op' w).edit n = .ok (.put i w answer)) :
    ∃ w t a u, s.perform x op = .ok (w, t) ∧ t.perform x (op' w) = .ok (a, u) ∧ s.Extends u := by
  generalize hn : n + 1 = m at hx hop hi
  cases hx with
  | @list l hl =>
    have hlen : ((s.editList l (.take i)).2.list l).length = n := by
      rw [list_editList hl, Edit.apply_take, List.length_eraseIdx_of_lt hi, ← hn,
        Nat.add_sub_cancel]
    have hedit (w : Value) : (op' w).edit ((s.editList l (.take i)).2.list l).length
        = .ok (.put i w answer) := by rw [hlen, hop']
    have hput := perform_list_of_edit (hedit (s.editList l (.take i)).1)
    have hback : s.Extends ((s.editList l (.take i)).2.editList l
        (.put i (s.editList l (.take i)).1 answer)).2 := by
      rw [editList_put_take hl hi]
      exact .refl s
    exact ⟨_, _, _, _, perform_list_of_edit hop, hput, hback⟩
  | @string r hr =>
    obtain ⟨w, t, htake, hw, ht⟩ := exists_editString_take hr (List.getElem?_eq_getElem hi)
    have hlen : (t.string r).toList.length = n := by
      rw [ht, List.length_eraseIdx_of_lt hi, ← hn, Nat.add_sub_cancel]
    have hle : i ≤ (t.string r).toList.length := by omega
    have hst := changesOnly_editString htake
    obtain ⟨a, u, hput, hu⟩ := exists_editString_put (hr.trans_le hst.strings_size) hle hw answer
    have hedit : (op' w).edit (t.string r).toList.length = .ok (.put i w answer) := by
      rw [hlen, hop']
    refine ⟨w, t, a, u, (perform_string_of_edit hop).trans htake,
      (perform_string_of_edit hedit).trans hput, ?_⟩
    rw [ht, List.insertIdx_eraseIdx_getElem hi, String.toList_inj] at hu
    exact (hst.trans (changesOnly_editString hput)).extends_of_string hr hu

/-! ## The members -/

/-- The position of an insertion is one to remove at afterwards. -/
theorem toIndex_succ {place : Value} (h : place.toIndex n true = .ok i) :
    place.toIndex (n + 1) false = .ok i := by
  obtain ⟨x, rfl, hx, hlt⟩ := toIndex_eq_ok h
  simp only [if_true] at hlt
  simp [Value.toIndex, hx, hlt]

/-- **Insertion and removal undo each other** on every list and every string. -/
theorem IsSequence.undo (hx : s.IsSequence x n) :
    (∀ place v a t, s.callMember x "insert" [place, v] = .ok (a, t) →
      ∃ w u, t.callMember x "remove" [place] = .ok (w, u) ∧ s.Extends u ∧ u.GivesBack x v w)
    ∧ (∀ v a t, s.callMember x "push" [v] = .ok (a, t) →
      ∃ w u, t.callMember x "pop" [] = .ok (w, u) ∧ s.Extends u ∧ u.GivesBack x v w)
    ∧ (0 < n → ∃ w t a u, s.callMember x "pop" [] = .ok (w, t)
      ∧ t.callMember x "push" [w] = .ok (a, u) ∧ s.Extends u) := by
  refine ⟨fun place v a t h => ?_, fun v a t h => ?_, fun hn => ?_⟩
  · change s.perform x (.insert place v) = _ at h
    obtain ⟨e, he⟩ := hx.exists_edit h
    cases hi : place.toIndex n true with
    | error e =>
      rw [Operation.edit, hi] at he
      cases he
    | ok i =>
      have hput : (Operation.insert place v).edit n = .ok (.put i v .nothing) := by
        rw [Operation.edit, hi]
        rfl
      have htake : (Operation.remove place : Operation Value).edit (n + 1) = .ok (.take i) := by
        rw [Operation.edit, toIndex_succ hi]
        rfl
      exact hx.take_put hput (le_of_toIndex hi) htake h
  · have hput : (Operation.push v).edit n = .ok (.put n v (.count (n + 1))) := rfl
    have htake : (Operation.pop : Operation Value).edit (n + 1) = .ok (.take n) := rfl
    exact hx.take_put hput (Nat.le_refl n) htake h
  · obtain ⟨n, rfl⟩ := Nat.exists_eq_succ_of_ne_zero hn.ne'
    have htake : (Operation.pop : Operation Value).edit (n + 1) = .ok (.take n) := rfl
    have hput (w : Value) : (Operation.push w).edit n = .ok (.put n w (.count (n + 1))) := rfl
    exact hx.put_take htake (Nat.lt_succ_self n) hput

/-- A string of one character, and of two bytes, is pushed onto itself. -/
theorem undo_push_itself :
    let s : Store := ⟨#["é"], #[], #[]⟩
    let x : Value := .string ⟨0⟩
    ∃ a t w u, s.callMember x "push" [x] = .ok (a, t) ∧ t.callMember x "pop" [] = .ok (w, u)
      ∧ s.Extends u ∧ u.GivesBack x x w := by
  intro s x
  have hlt : (⟨0⟩ : StringRef).index < s.strings.size := by decide
  have hx : s.IsSequence x _ := .string hlt
  have hchar : s.IsChar x 'é' := isChar_iff.2 ⟨_, rfl, rfl⟩
  have hperform : s.perform x (.push x) = s.editString ⟨0⟩ (.put _ x (.count _)) :=
    perform_string_of_edit rfl
  obtain ⟨a, t, hput, -⟩ := exists_editString_put hlt (Nat.le_refl _) hchar (.count _)
  have hpush : s.callMember x "push" [x] = .ok (a, t) := hperform.trans hput
  obtain ⟨w, u, hpop⟩ := hx.undo.2.1 x a t hpush
  exact ⟨a, t, w, u, hpush, hpop⟩

end Store

end CommandScript
