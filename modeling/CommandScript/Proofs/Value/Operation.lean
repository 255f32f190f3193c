import CommandScript.Proofs.Value.Member
import Mathlib.Data.List.InsertIdx

/-!
# Proofs/Value/Operation — what lists and strings are both asked for

`Operation` are the members and the element accesses that lists and strings share. What one of them
does depends only on how long the sequence is: some positions give way to what the operation brings
along, and the answer is a count, an element or nothing (`Operation.edit`). Lists and strings carry
out the same edit, a string on its characters (`Store.perform_list`, `Store.perform_string`) and
thereby on the bytes that it is stored as (`Text.toByteArray_apply`).
-/

namespace CommandScript

/-! ## Edits of a sequence -/

/-- What an operation gives back: a number, the element at a position, or nothing. -/
inductive Answer
  | count (n : Nat)
  | element (i : Nat)
  | nothing

/-- A change of a sequence: what stands from `start` up to `stop` gives way to `new`. -/
structure Edit (α : Type) where
  start : Nat
  stop : Nat
  new : List α
  answer : Answer

namespace Edit

variable {α β : Type}

/-- The sequence afterwards. -/
def apply (e : Edit α) (xs : List α) : List α := xs.take e.start ++ e.new ++ xs.drop e.stop

/-- The same change with other elements. -/
def withNew (e : Edit α) (new : List β) : Edit β := ⟨e.start, e.stop, new, e.answer⟩

/-- Change nothing. -/
def idle (answer : Answer) : Edit α := ⟨0, 0, [], answer⟩

/-- Put an element in at a position. -/
def put (i : Nat) (a : α) (answer : Answer) : Edit α := ⟨i, i, [a], answer⟩

/-- Take the element at a position out and give it back. -/
def take (i : Nat) : Edit α := ⟨i, i + 1, [], .element i⟩

/-- Put an element in the place of another. -/
def replace (i : Nat) (a : α) : Edit α := ⟨i, i + 1, [a], .nothing⟩

@[simp] theorem apply_idle (answer : Answer) (xs : List α) : (idle answer).apply xs = xs := rfl

theorem apply_put (a : α) (answer : Answer) : ∀ {i : Nat} {xs : List α}, i ≤ xs.length →
    (put i a answer).apply xs = xs.insertIdx i a
  | 0, xs, _ => by simp [apply, put]
  | i + 1, [], hi => absurd hi (Nat.not_succ_le_zero i)
  | i + 1, x :: xs, hi => by
    have ih := apply_put a answer (Nat.le_of_succ_le_succ hi)
    simp only [apply, put] at ih
    simp [apply, put, ← ih]

@[simp] theorem apply_take (i : Nat) (xs : List α) : (take i).apply xs = xs.eraseIdx i := by
  simp [apply, take, List.eraseIdx_eq_take_drop_succ]

theorem apply_replace {i : Nat} {xs : List α} (hi : i < xs.length) (a : α) :
    (replace i a).apply xs = xs.set i a := by
  simp [apply, replace, List.set_eq_take_append_cons_drop, hi]

end Edit

/-! ## Edits of the bytes of a text

A string is stored in UTF-8. A position among its characters is found by going over them, and what
an edit replaces are the bytes between two such places. -/

namespace Text

/-- The characters, each with the offset of its first byte. -/
def charIndices : (offset : Nat) → List Char → List (Nat × Char)
  | _, [] => []
  | offset, c :: cs => (offset, c) :: charIndices (offset + c.utf8Size) cs

/-- The offset of the first byte of the character at an index, or else of the end. -/
def byteOffset (text : String) (i : Nat) : Nat :=
  ((charIndices 0 text.toList)[i]?.map (·.1)).getD text.utf8ByteSize

/-- The bytes with those from `start` up to `stop` replaced. -/
def splice (bytes : ByteArray) (start stop : Nat) (new : ByteArray) : ByteArray :=
  bytes.extract 0 start ++ new ++ bytes.extract stop bytes.size

theorem size_utf8Encode_cons (c : Char) (cs : List Char) :
    (c :: cs).utf8Encode.size = c.utf8Size + cs.utf8Encode.size := by
  rw [List.utf8Encode_cons, ByteArray.size_append, List.utf8Encode_singleton,
    List.size_toByteArray, String.length_utf8EncodeChar]

theorem getD_charIndices : ∀ (cs : List Char) (offset i : Nat),
    ((charIndices offset cs)[i]?.map (·.1)).getD (offset + cs.utf8Encode.size)
      = offset + (cs.take i).utf8Encode.size
  | [], offset, i => by simp [charIndices]
  | c :: cs, offset, 0 => by simp [charIndices]
  | c :: cs, offset, i + 1 => by
    have ih := getD_charIndices cs (offset + c.utf8Size) i
    rw [List.take_succ_cons, size_utf8Encode_cons, size_utf8Encode_cons, ← Nat.add_assoc,
      ← Nat.add_assoc, ← ih, charIndices, List.getElem?_cons_succ]

theorem toByteArray_eq (text : String) : text.toByteArray = text.toList.utf8Encode := by
  rw [← String.toByteArray_ofList, String.ofList_toList]

/-- So many bytes stand before the character. -/
theorem byteOffset_eq (text : String) (i : Nat) :
    byteOffset text i = (text.toList.take i).utf8Encode.size := by
  have h := getD_charIndices text.toList 0 i
  rwa [Nat.zero_add, Nat.zero_add, ← toByteArray_eq, String.size_toByteArray] at h

/-- **An edit of the characters is one of the bytes**, between the offsets of its first and last
position. -/
theorem toByteArray_apply (e : Edit Char) (text : String) :
    (String.ofList (e.apply text.toList)).toByteArray
      = splice text.toByteArray (byteOffset text e.start) (byteOffset text e.stop)
        e.new.utf8Encode := by
  have hsplit (i : Nat) : text.toByteArray
      = (text.toList.take i).utf8Encode ++ (text.toList.drop i).utf8Encode := by
    rw [← List.utf8Encode_append, List.take_append_drop, toByteArray_eq]
  have hleft (i : Nat) :
      text.toByteArray.extract 0 (byteOffset text i) = (text.toList.take i).utf8Encode := by
    rw [hsplit i]
    exact ByteArray.extract_append_eq_left (byteOffset_eq text i)
  have hright (i : Nat) : text.toByteArray.extract (byteOffset text i) text.toByteArray.size
      = (text.toList.drop i).utf8Encode := by
    rw [hsplit i]
    exact ByteArray.extract_append_eq_right (byteOffset_eq text i) ByteArray.size_append
  rw [splice, hleft, hright, String.toByteArray_ofList, Edit.apply, List.utf8Encode_append,
    List.utf8Encode_append]

end Text

/-! ## Operations -/

/-- What lists and strings can both be asked for, with what goes in. -/
inductive Operation (α : Type)
  | len
  | pop
  | push (a : α)
  | insert (place : Value) (a : α)
  | remove (place : Value)
  | read (place : Value)
  | write (place : Value) (a : α)

/-- What the operation does to a sequence of the given length. -/
def Operation.edit {α : Type} (n : Nat) : Operation α → Except Error (Edit α)
  | len => .ok (.idle (.count n))
  | pop => .ok (.take (n - 1))
  | push a => .ok (.put n a (.count (n + 1)))
  | insert place a => (place.toIndex n true).map fun i => .put i a .nothing
  | remove place => (place.toIndex n false).map .take
  | read place => (place.toIndex n false).map fun i => .idle (.element i)
  | write place a => (place.toIndex n false).map fun i => .replace i a

/-- The answer, if the sequence is a list. -/
def Answer.ofItems (items : List Value) : Answer → Value
  | count n => .number (Float.ofNat n)
  | element i => items[i]?.getD .none
  | nothing => .none

/-- The answer, if the sequence is a string. A character is given back as a new string. -/
def Answer.ofChars (chars : List Char) (s : Store) : Answer → Value × Store
  | count n => (.number (Float.ofNat n), s)
  | element i => (chars[i]?.map s.newChar).getD (.none, s)
  | nothing => (.none, s)

namespace Store

/-- Ask a list or a string for something. -/
def perform (s : Store) (x : Value) : Operation Value → Except Error (Value × Store)
  | .len => s.callMember x "len" []
  | .pop => s.callMember x "pop" []
  | .push v => s.callMember x "push" [v]
  | .insert place v => s.callMember x "insert" [place, v]
  | .remove place => s.callMember x "remove" [place]
  | .read place => (s.element x place).map s.place
  | .write place v => (s.setElement x place v).map fun t => (.none, t)

/-- Writing what is read changes nothing, also where no cell is. -/
theorem setIfInBounds_getD {α : Type} (cells : Array α) (i : Nat) (default : α) :
    cells.setIfInBounds i (cells[i]?.getD default) = cells := by
  refine Array.ext_getElem? fun j => ?_
  rw [Array.getElem?_setIfInBounds]
  split_ifs with hi hlt
  · rw [← hi, Array.getElem?_eq_getElem hlt, Option.getD_some]
  · rw [← hi, Array.getElem?_eq_none (Nat.le_of_not_lt hlt)]
  · rfl

theorem setList_list (s : Store) (r : ListRef) : s.setList r (s.list r) = s :=
  congrArg (fun lists => { s with lists := lists }) (setIfInBounds_getD s.lists r.index [])

theorem setString_string (s : Store) (r : StringRef) : s.setString r (s.string r) = s :=
  congrArg (fun strings => { s with strings := strings }) (setIfInBounds_getD s.strings r.index "")

theorem le_of_toIndex {place : Value} {n i : Nat} (h : place.toIndex n true = .ok i) : i ≤ n := by
  obtain ⟨x, -, -, hlt⟩ := toIndex_eq_ok h
  exact Nat.le_of_lt_succ hlt

theorem lt_of_toIndex {place : Value} {n i : Nat} (h : place.toIndex n false = .ok i) : i < n := by
  obtain ⟨x, -, -, hlt⟩ := toIndex_eq_ok h
  exact hlt

/-- Carry out an edit on a list, and answer from what it held before. -/
def editList (s : Store) (r : ListRef) (e : Edit Value) : Value × Store :=
  (e.answer.ofItems (s.list r), s.setList r (e.apply (s.list r)))

/-- Carry out an edit on a string, where what goes in has to be one character. -/
def editString (s : Store) (r : StringRef) (e : Edit Value) : Except Error (Value × Store) := do
  let new ← e.new.mapM s.oneChar
  let chars := (s.string r).toList
  return e.answer.ofChars chars (s.setString r (String.ofList ((e.withNew new).apply chars)))

/-- **A list carries out the edit of an operation.** -/
theorem perform_list (s : Store) (r : ListRef) (op : Operation Value) :
    s.perform (.list r) op = (op.edit (s.list r).length).map (s.editList r) := by
  cases op with
  | len =>
    change s.callOnList r .len [] = _
    simp only [callOnList, Operation.edit, Except.map, editList, Edit.apply_idle, setList_list]
    rfl
  | pop =>
    change s.callOnList r .pop [] = _
    simp only [callOnList, Operation.edit, Except.map, editList, Edit.apply_take,
      List.eraseIdx_length_sub_one, List.getLast?_eq_getElem?]
    rfl
  | push v =>
    change s.callOnList r .push [v] = _
    simp only [callOnList, Operation.edit, Except.map, editList]
    rw [Edit.apply_put _ _ (Nat.le_refl _), List.insertIdx_length_self]
    rfl
  | insert place v =>
    change s.callOnList r .insert [place, v] = _
    simp only [callOnList, Operation.edit]
    cases hi : place.toIndex (s.list r).length true with
    | error e => rfl
    | ok i =>
      simp only [Except.map, editList]
      rw [Edit.apply_put _ _ (le_of_toIndex hi)]
      rfl
  | remove place =>
    change s.callOnList r .remove [place] = _
    simp only [callOnList, Operation.edit]
    cases place.toIndex (s.list r).length false with
    | error e => rfl
    | ok i =>
      simp only [Except.map, editList, Edit.apply_take]
      rfl
  | read place =>
    simp only [perform, element, Operation.edit]
    cases place.toIndex (s.list r).length false with
    | error e => rfl
    | ok i =>
      simp only [Except.map, editList, Edit.apply_idle, setList_list]
      rfl
  | write place v =>
    simp only [perform, setElement, Operation.edit]
    cases hi : place.toIndex (s.list r).length false with
    | error e => rfl
    | ok i =>
      simp only [Except.map, editList]
      rw [Edit.apply_replace (lt_of_toIndex hi)]
      rfl

/-! ## Strings -/

theorem editString_of_none (s : Store) (r : StringRef) {e : Edit Value} (h : e.new = []) :
    s.editString r e = .ok (e.answer.ofChars (s.string r).toList
      (s.setString r (String.ofList ((e.withNew []).apply (s.string r).toList)))) := by
  rw [editString, h]
  rfl

theorem editString_of_one (s : Store) (r : StringRef) {e : Edit Value} {v : Value}
    (h : e.new = [v]) : s.editString r e = (s.oneChar v).map fun c =>
      e.answer.ofChars (s.string r).toList
        (s.setString r (String.ofList ((e.withNew [c]).apply (s.string r).toList))) := by
  rw [editString, h, List.mapM_cons, List.mapM_nil]
  cases s.oneChar v <;> rfl

theorem editString_idle (s : Store) (r : StringRef) (answer : Answer) :
    s.editString r (.idle answer) = .ok (answer.ofChars (s.string r).toList s) := by
  have happly : ((Edit.idle answer : Edit Value).withNew []).apply (s.string r).toList
      = (s.string r).toList := rfl
  rw [s.editString_of_none r rfl, happly, String.ofList_toList, setString_string]
  rfl

theorem editString_put (s : Store) (r : StringRef) {i : Nat} (hi : i ≤ (s.string r).toList.length)
    (v : Value) (answer : Answer) : s.editString r (.put i v answer) = (s.oneChar v).map fun c =>
      answer.ofChars (s.string r).toList
        (s.setString r (String.ofList ((s.string r).toList.insertIdx i c))) := by
  rw [s.editString_of_one r rfl]
  congr
  funext c
  rw [← Edit.apply_put c answer hi]
  rfl

theorem editString_take (s : Store) (r : StringRef) (i : Nat) :
    s.editString r (.take i) = .ok (Answer.ofChars (s.string r).toList
      (s.setString r (String.ofList ((s.string r).toList.eraseIdx i))) (.element i)) := by
  rw [s.editString_of_none r rfl, ← Edit.apply_take]
  rfl

theorem editString_replace (s : Store) (r : StringRef) {i : Nat}
    (hi : i < (s.string r).toList.length) (v : Value) :
    s.editString r (.replace i v) = (s.oneChar v).map fun c =>
      (.none, s.setString r (String.ofList ((s.string r).toList.set i c))) := by
  rw [s.editString_of_one r rfl]
  congr
  funext c
  rw [← Edit.apply_replace hi]
  rfl

/-- **A string carries out the edit of an operation on its characters.** -/
theorem perform_string (s : Store) (r : StringRef) (op : Operation Value) :
    s.perform (.string r) op = op.edit (s.string r).toList.length >>= s.editString r := by
  cases op with
  | len => exact (s.editString_idle r (.count _)).symm
  | pop =>
    change s.callOnString r .pop [] = s.editString r (.take _)
    rw [editString_take, List.eraseIdx_length_sub_one, Answer.ofChars, ← List.getLast?_eq_getElem?,
      callOnString]
    cases hlast : (s.string r).toList.getLast? with
    | some c => rfl
    | none =>
      -- an empty string is written back
      have hempty := List.getLast?_eq_none_iff.1 hlast
      have hsame : s.setString r (String.ofList []) = s := by
        rw [← hempty, String.ofList_toList, setString_string]
      rw [hempty, List.dropLast_nil, hsame]
      rfl
  | push v =>
    change s.callOnString r .push [v] = s.editString r (.put _ v _)
    simp only [editString_put _ _ (Nat.le_refl _), List.insertIdx_length_self]
    change (s.oneChar v >>= _) = _
    cases s.oneChar v <;> rfl
  | insert place v =>
    change (place.toIndex _ true >>= _) = (place.toIndex _ true).map _ >>= _
    cases hi : place.toIndex (s.string r).toList.length true with
    | error e => rfl
    | ok i =>
      refine Eq.trans ?_ (s.editString_put r (le_of_toIndex hi) v _).symm
      change (s.oneChar v >>= _) = _
      cases s.oneChar v <;> rfl
  | remove place =>
    change (place.toIndex _ false >>= _) = (place.toIndex _ false).map _ >>= _
    cases hi : place.toIndex (s.string r).toList.length false with
    | error e => rfl
    | ok i =>
      refine Eq.trans ?_ (s.editString_take r i).symm
      simp only [bind, Except.bind, Answer.ofChars, List.getElem?_eq_getElem (lt_of_toIndex hi)]
      rfl
  | read place =>
    change (place.toIndex _ false >>= _).map _ = (place.toIndex _ false).map _ >>= _
    cases hi : place.toIndex (s.string r).toList.length false with
    | error e => rfl
    | ok i =>
      refine Eq.trans ?_ (s.editString_idle r (.element i)).symm
      simp only [bind, Except.bind, Answer.ofChars, List.getElem?_eq_getElem (lt_of_toIndex hi)]
      rfl
  | write place v =>
    change (place.toIndex _ false >>= _).map _ = (place.toIndex _ false).map _ >>= _
    cases hi : place.toIndex (s.string r).toList.length false with
    | error e => rfl
    | ok i =>
      refine Eq.trans ?_ (s.editString_replace r (lt_of_toIndex hi) v).symm
      change (s.oneChar v >>= _).map _ = _
      cases s.oneChar v <;> rfl

end Store

end CommandScript
