import CommandScript.Proofs.Value.Store
import CommandScript.Value.Member

/-!
# Proofs/Value/Member — members and element assignments are atomic and local

A member call and an assignment to an element give the whole store afterwards or an error. `Steps`
are the same operations as sequences of reads, checks and writes, in which what has been written
stays when a later check fails. Every check comes before the first write, so the steps do what is
done at once (`Steps.callMember_eq`, `Steps.setElement_eq`); in particular they leave the store
alone where they fail. Where they succeed, they write the cell of the receiver and no other one
that is there, also if arguments are the receiver itself.
-/

namespace CommandScript

/-- Computations that read and write cells one after the other. What has been written stays when a
later one fails. -/
abbrev Steps := EStateM Error Store

namespace Steps

variable {α β : Type}

/-- Read something off the store, or fail. -/
def check (f : Store → Except Error α) : Steps α := fun s =>
  match f s with
  | .ok a => .ok a s
  | .error e => .error e s

/-- Read something off the store. -/
def read (f : Store → α) : Steps α := check fun s => .ok (f s)

/-- The elements of a list. -/
def itemsOf (r : ListRef) : Steps (List Value) := read fun s => s.list r

/-- The characters of a string. -/
def charsOf (r : StringRef) : Steps (List Char) := read fun s => (s.string r).toList

/-- Write the elements of a list. -/
def writeList (r : ListRef) (items : List Value) : Steps Unit := fun s => .ok () (s.setList r items)

/-- Write the characters of a string. -/
def writeChars (r : StringRef) (chars : List Char) : Steps Unit := fun s =>
  .ok () (s.setString r (String.ofList chars))

/-- Put a new string into the store. -/
def newString (text : String) : Steps Value := fun s =>
  .ok (s.newString text).1 (s.newString text).2

/-- The position that a value names. -/
def index (place : Value) (length : Nat) (allowEnd : Bool) : Steps Nat :=
  check fun _ => place.toIndex length allowEnd

/-- A member of a list. -/
def onList (r : ListRef) : Member → List Value → Steps Value
  | .len, _ => do
    return .number (Float.ofNat (← itemsOf r).length)
  | .pop, _ => do
    let items ← itemsOf r
    writeList r items.dropLast
    return items.getLast?.getD .none
  | .push, [v] => do
    let items ← itemsOf r
    writeList r (items ++ [v])
    return .number (Float.ofNat (items.length + 1))
  | .remove, [place] => do
    let i ← index place (← itemsOf r).length false
    let items ← itemsOf r
    writeList r (items.eraseIdx i)
    return items[i]?.getD .none
  | .contains, [v] => read fun s => .boolean ((s.list r).any fun item => s.equal item v)
  | .insert, [place, v] => do
    let i ← index place (← itemsOf r).length true
    writeList r ((← itemsOf r).insertIdx i v)
    return .none
  | m, _ => throw (.unknownMember Kind.list.text m.text)

/-- A member of a string. -/
def onString (r : StringRef) : Member → List Value → Steps Value
  | .len, _ => do
    return .number (Float.ofNat (← charsOf r).length)
  | .pop, _ => do
    let chars ← charsOf r
    match chars.getLast? with
    | none => return .none
    | some c =>
      writeChars r chars.dropLast
      newString (String.singleton c)
  | .push, [v] => do
    let c ← check fun s => s.oneChar v
    let chars ← charsOf r
    writeChars r (chars ++ [c])
    return .number (Float.ofNat (chars.length + 1))
  | .remove, [place] => do
    let i ← index place (← charsOf r).length false
    let chars ← charsOf r
    match chars[i]? with
    | none => return .none
    | some c =>
      writeChars r (chars.eraseIdx i)
      newString (String.singleton c)
  | .contains, [.string needle] => do
    return .boolean (Text.occurs (← charsOf needle) (← charsOf r))
  | .contains, [v] => throw (.type (.soughtKind v.kind))
  | .insert, [place, v] => do
    let i ← index place (← charsOf r).length true
    let c ← check fun s => s.oneChar v
    writeChars r ((← charsOf r).insertIdx i c)
    return .none
  | .trim, _ => do
    newString (Text.trim (← read fun s => s.string r))
  | m, _ => throw (.unknownMember Kind.string.text m.text)

/-- `receiver.name(args)`. -/
def callMember (receiver : Value) (name : String) (args : List Value) : Steps Value :=
  match Member.of? receiver.kind name with
  | none => throw (.unknownMember receiver.kind.text name)
  | some m =>
    if args.length ≠ m.arity then throw (.arity name m.arity args.length)
    else match receiver with
      | .list r => onList r m args
      | .string r => onString r m args
      | v => throw (.unknownMember v.kind.text name)

/-- `target[place] = value`. -/
def setElement (target place value : Value) : Steps Unit :=
  match target with
  | .list r => do
    let i ← index place (← itemsOf r).length false
    writeList r ((← itemsOf r).set i value)
  | .string r => do
    let i ← index place (← charsOf r).length false
    let c ← check fun s => s.oneChar value
    writeChars r ((← charsOf r).set i c)
  | v => throw (.type (.notAssignable v.kind))

/-! ## Steps and what is done at once -/

/-- The outcome of an operation that changes the store at once, or fails and leaves it. -/
def atOnce (s : Store) : Except Error (α × Store) → EStateM.Result Error Store α
  | .ok (a, t) => .ok a t
  | .error e => .error e s

variable {s t : Store} {a : α} {e : Error}

theorem atOnce_eq_ok_iff {x : Except Error (α × Store)} :
    atOnce s x = .ok a t ↔ x = .ok (a, t) := by
  rcases x with e | ⟨b, u⟩ <;> simp [atOnce]

theorem atOnce_eq_error_iff {x : Except Error (α × Store)} :
    atOnce s x = .error e t ↔ x = .error e ∧ t = s := by
  rcases x with e | ⟨b, u⟩ <;> simp [atOnce, eq_comm]

/-- **A check in front of what is done at once** makes something that is done at once. -/
theorem check_bind {f : Store → Except Error α} {g : α → Steps β}
    {k : α → Except Error (β × Store)} (h : ∀ a, g a s = atOnce s (k a)) :
    (check f >>= g) s = atOnce s (f s >>= k) := by
  change EStateM.bind (check f) g s = _
  unfold EStateM.bind check
  cases f s with
  | error e => rfl
  | ok a => exact h a

theorem index_bind {place : Value} {length : Nat} {allowEnd : Bool} {g : Nat → Steps β}
    {k : Nat → Except Error (β × Store)} (h : ∀ i, g i s = atOnce s (k i)) :
    (index place length allowEnd >>= g) s = atOnce s (place.toIndex length allowEnd >>= k) :=
  check_bind h

/-- The steps of a member of a list. -/
theorem onList_eq (r : ListRef) (m : Member) (args : List Value) (s : Store) :
    onList r m args s = atOnce s (s.callOnList r m args) := by
  unfold onList
  split
  · rfl
  · rfl
  · rfl
  · next place => exact @index_bind _ s place (s.list r).length false _ _ fun i => rfl
  · rfl
  · next place v => exact @index_bind _ s place (s.list r).length true _ _ fun i => rfl
  · rw [Store.callOnList]
    · rfl
    all_goals assumption

theorem charsOf_bind (r : StringRef) (g : List Char → Steps β) (s : Store) :
    (charsOf r >>= g) s = g (s.string r).toList s := rfl

/-- The steps of a member of a string. -/
theorem onString_eq (r : StringRef) (m : Member) (args : List Value) (s : Store) :
    onString r m args s = atOnce s (s.callOnString r m args) := by
  unfold onString
  split
  · rfl
  · rw [charsOf_bind, Store.callOnString]
    cases (s.string r).toList.getLast? <;> rfl
  · next v => exact @check_bind _ _ s (fun s => s.oneChar v) _ _ fun c => rfl
  · next place =>
    refine @index_bind _ s place (s.string r).toList.length false _ _ fun i => ?_
    rw [charsOf_bind]
    cases (s.string r).toList[i]? <;> rfl
  · rfl
  · rw [Store.callOnString]
    · rfl
    all_goals assumption
  · next place v =>
    exact @index_bind _ s place (s.string r).toList.length true _ _ fun i => check_bind fun c => rfl
  · rfl
  · rw [Store.callOnString]
    · rfl
    all_goals assumption

/-- **The steps of a member call are done at once.** -/
theorem callMember_eq (receiver : Value) (name : String) (args : List Value) (s : Store) :
    callMember receiver name args s = atOnce s (s.callMember receiver name args) := by
  unfold callMember Store.callMember
  cases Member.of? receiver.kind name with
  | none => rfl
  | some m =>
    dsimp only
    split_ifs with harity
    · rfl
    · cases receiver with
      | list r => exact onList_eq r m args s
      | string r => exact onString_eq r m args s
      | _ => rfl

theorem map_bind {x : Except Error α} {k : α → Except Error β} {γ : Type} (f : β → γ) :
    (x >>= k).map f = x >>= fun a => (k a).map f := by
  cases x <;> rfl

/-- **The steps of an assignment to an element are done at once.** -/
theorem setElement_eq (target place value : Value) (s : Store) :
    setElement target place value s
      = atOnce s ((s.setElement target place value).map fun t => ((), t)) := by
  cases target with
  | list r =>
    rw [Store.setElement, map_bind]
    exact index_bind fun i => rfl
  | string r =>
    rw [Store.setElement, map_bind]
    refine index_bind fun i => ?_
    rw [map_bind]
    exact check_bind fun c => rfl
  | _ => rfl

end Steps

namespace Member

/-- Whether the member may change its receiver. -/
def changes : Member → Bool
  | pop | push | insert | remove => true
  | len | contains | trim => false

/-- The members that may change their receiver, by name. -/
theorem changes_of? {kind : Kind} {name : String} {m : Member} (h : of? kind name = some m) :
    m.changes = true ↔ name ∈ ["push", "pop", "insert", "remove"] := by
  have hname : m.text = name := by simpa using List.find?_some h
  subst hname
  cases m <;> decide

end Member

namespace Store

variable {s t : Store} {v w : Value} {r : ListRef} {m : Member} {args : List Value}

theorem exists_of_bind_eq_ok {α β : Type} {x : Except Error α} {f : α → Except Error β} {b : β}
    (h : x >>= f = .ok b) : ∃ a, x = .ok a ∧ f a = .ok b := by
  cases x with
  | error e => exact absurd h nofun
  | ok a => exact ⟨a, rfl, h⟩

/-- A member of a list leaves the store, or writes the list. -/
theorem callOnList_cases (h : s.callOnList r m args = .ok (v, t)) :
    t = s ∨ m.changes = true ∧ ∃ items, t = s.setList r items := by
  unfold callOnList at h
  dsimp only at h
  split at h
  · cases h
    exact .inl rfl
  · cases h
    exact .inr ⟨rfl, _, rfl⟩
  · cases h
    exact .inr ⟨rfl, _, rfl⟩
  · obtain ⟨i, -, h⟩ := exists_of_bind_eq_ok h
    cases h
    exact .inr ⟨rfl, _, rfl⟩
  · cases h
    exact .inl rfl
  · obtain ⟨i, -, h⟩ := exists_of_bind_eq_ok h
    cases h
    exact .inr ⟨rfl, _, rfl⟩
  · cases h

/-- A member of a string leaves the cells that are there, or writes the string; a new string may
come in. -/
theorem callOnString_cases {r : StringRef} (h : s.callOnString r m args = .ok (v, t)) :
    s.Extends t ∨ m.changes = true ∧ ∃ text, (s.setString r text).Extends t := by
  unfold callOnString at h
  dsimp only at h
  split at h
  · cases h
    exact .inl (.refl s)
  · split at h
    · cases h
      exact .inl (.refl s)
    · cases h
      exact .inr ⟨rfl, _, extends_newString _ _⟩
  · obtain ⟨c, -, h⟩ := exists_of_bind_eq_ok h
    cases h
    exact .inr ⟨rfl, _, .refl _⟩
  · obtain ⟨i, -, h⟩ := exists_of_bind_eq_ok h
    split at h
    · cases h
      exact .inl (.refl s)
    · cases h
      exact .inr ⟨rfl, _, extends_newString _ _⟩
  · cases h
    exact .inl (.refl s)
  · cases h
  · obtain ⟨i, -, h⟩ := exists_of_bind_eq_ok h
    obtain ⟨c, -, h⟩ := exists_of_bind_eq_ok h
    cases h
    exact .inr ⟨rfl, _, .refl _⟩
  · cases h
    exact .inl (extends_newString s _)
  · cases h

/-- **A member call writes the cell of its receiver** and no other one that is there, and that only
if it is one of four members. -/
theorem changesOnly_callMember {name : String} (h : s.callMember v name args = .ok (w, t)) :
    s.ChangesOnly v t ∧ (name ∉ ["push", "pop", "insert", "remove"] → s.Extends t) := by
  unfold callMember at h
  cases hm : Member.of? v.kind name with
  | none =>
    rw [hm] at h
    cases h
  | some m =>
    rw [hm] at h
    dsimp only at h
    split_ifs at h with harity
    rw [← Member.changes_of? hm]
    cases v with
    | list r =>
      obtain rfl | ⟨hchanges, items, rfl⟩ := callOnList_cases h
      · exact ⟨(Extends.refl t).changesOnly _, fun _ => .refl t⟩
      · exact ⟨s.changesOnly_setList r items, fun hnot => absurd hchanges hnot⟩
    | string r =>
      obtain hextends | ⟨hchanges, text, hextends⟩ := callOnString_cases h
      · exact ⟨hextends.changesOnly _, fun _ => hextends⟩
      · exact ⟨(s.changesOnly_setString r text).trans_extends hextends,
          fun hnot => absurd hchanges hnot⟩
    | _ => cases h

/-! ## Assignments to elements -/

/-- The second sequence is the first one with another element at one position. -/
structure ReplacesAt {α : Type} (xs : List α) (i : Nat) (a : α) (ys : List α) : Prop where
  length : ys.length = xs.length
  here : ys[i]? = some a
  elsewhere : ∀ j, j ≠ i → ys[j]? = xs[j]?

theorem replacesAt_set {α : Type} {xs : List α} {i : Nat} (hi : i < xs.length) (a : α) :
    ReplacesAt xs i a (xs.set i a) where
  length := List.length_set
  here := List.getElem?_set_self hi
  elsewhere _ hj := List.getElem?_set_ne hj.symm

/-- The target has another element at one position: the value, or the character that it is. -/
inductive Replaces (s : Store) (i : Nat) (t : Store) : (target value : Value) → Prop
  | list {r : ListRef} {value : Value} : ReplacesAt (s.list r) i value (t.list r) →
    Replaces s i t (.list r) value
  | string {r q : StringRef} {c : Char} : (s.string q).toList = [c] →
    ReplacesAt (s.string r).toList i c (t.string r).toList → Replaces s i t (.string r) (.string q)

theorem toIndex_eq_ok {place : Value} {n i : Nat} {allowEnd : Bool}
    (h : place.toIndex n allowEnd = .ok i) :
    ∃ x, place = .number x ∧ Number.wholeNumber? x = some i
      ∧ i < if allowEnd then n + 1 else n := by
  cases place with
  | number x =>
    unfold Value.toIndex at h
    dsimp only at h
    split at h
    · next k hk =>
      by_cases hlt : k < if allowEnd = true then n + 1 else n
      · rw [if_pos hlt] at h
        cases h
        exact ⟨x, rfl, hk, hlt⟩
      · rw [if_neg hlt] at h
        cases h
    · cases h
  | _ => cases h

theorem oneChar_eq_ok {c : Char} (h : s.oneChar v = .ok c) :
    ∃ q, v = .string q ∧ (s.string q).toList = [c] := by
  cases v with
  | string q =>
    unfold oneChar at h
    dsimp only at h
    split at h
    · next c' hc =>
      cases h
      exact ⟨q, rfl, hc⟩
    · cases h
  | _ => cases h

/-- **An assignment to an element writes one position of its target** and nothing else. -/
theorem changesOnly_setElement {target place value : Value}
    (h : s.setElement target place value = .ok t) :
    s.ChangesOnly target t ∧ ∃ x i, place = .number x ∧ Number.wholeNumber? x = some i
      ∧ s.Replaces i t target value := by
  cases target with
  | list r =>
    obtain ⟨i, hi, h⟩ := exists_of_bind_eq_ok h
    cases h
    obtain ⟨x, rfl, hx, hlt⟩ := toIndex_eq_ok hi
    have hr : r.index < s.lists.size := index_lt_of_mem (List.getElem_mem hlt)
    refine ⟨s.changesOnly_setList r _, x, i, rfl, hx, .list ?_⟩
    rw [list_setList hr]
    exact replacesAt_set hlt value
  | string r =>
    obtain ⟨i, hi, h⟩ := exists_of_bind_eq_ok h
    obtain ⟨c, hc, h⟩ := exists_of_bind_eq_ok h
    cases h
    obtain ⟨x, rfl, hx, hlt⟩ := toIndex_eq_ok hi
    obtain ⟨q, rfl, hq⟩ := oneChar_eq_ok hc
    have hr : r.index < s.strings.size :=
      index_lt_of_toList_ne_nil (List.ne_nil_of_length_pos (Nat.zero_lt_of_lt hlt))
    refine ⟨s.changesOnly_setString r _, x, i, rfl, hx, .string hq ?_⟩
    rw [string_setString hr, String.toList_ofList]
    exact replacesAt_set hlt c
  | _ => cases h

/-- **Members and assignments to elements are atomic and local.** Their steps, in which what has
been written stays, do what is done at once: where they fail, the store is as it was. Where they
succeed, no cell that is there has changed but that of the receiver, and that only for four members;
an assignment has put one value or character in the place of another. Arguments may be the receiver
itself. -/
theorem steps_atomic_local (s : Store) :
    (∀ receiver name args,
      (∀ e t, Steps.callMember receiver name args s = .error e t →
        s.callMember receiver name args = .error e ∧ t = s)
      ∧ ∀ v t, Steps.callMember receiver name args s = .ok v t →
        s.callMember receiver name args = .ok (v, t) ∧ s.ChangesOnly receiver t
          ∧ (name ∉ ["push", "pop", "insert", "remove"] → s.Extends t))
    ∧ ∀ target place value,
      (∀ e t, Steps.setElement target place value s = .error e t →
        s.setElement target place value = .error e ∧ t = s)
      ∧ ∀ t, Steps.setElement target place value s = .ok () t →
        s.setElement target place value = .ok t ∧ s.ChangesOnly target t
          ∧ ∃ x i, place = .number x ∧ Number.wholeNumber? x = some i
            ∧ s.Replaces i t target value := by
  constructor
  · intro receiver name args
    rw [Steps.callMember_eq]
    refine ⟨fun e t => Steps.atOnce_eq_error_iff.1, fun v t h => ?_⟩
    have hcall := Steps.atOnce_eq_ok_iff.1 h
    exact ⟨hcall, changesOnly_callMember hcall⟩
  · intro target place value
    rw [Steps.setElement_eq]
    cases hset : s.setElement target place value with
    | error e =>
      refine ⟨fun e' t h => ?_, fun t h => ?_⟩
      · cases h
        exact ⟨rfl, rfl⟩
      · cases h
    | ok u =>
      refine ⟨fun e t h => ?_, fun t h => ?_⟩
      · cases h
      · cases h
        exact ⟨rfl, changesOnly_setElement hset⟩

/-- A list that is put into itself, and a string that is too long to be put into itself. -/
example :
    let s : Store := ⟨#["ab"], #[[.none], [.none]], #[]⟩
    Steps.callMember (.list ⟨0⟩) "push" [.list ⟨0⟩] s
        = .ok (.number (Float.ofNat 2)) (s.setList ⟨0⟩ [.none, .list ⟨0⟩])
      ∧ Steps.callMember (.string ⟨0⟩) "push" [.string ⟨0⟩] s
        = .error (.type (.notOneCharacter (s.describe (.string ⟨0⟩)))) s :=
  ⟨rfl, rfl⟩

end Store

end CommandScript
