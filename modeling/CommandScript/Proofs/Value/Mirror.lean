import CommandScript.Proofs.Number.Literal
import CommandScript.Proofs.Value.Bisimulation
import CommandScript.Proofs.Value.Operation

/-!
# Proofs/Value/Mirror — strings behave as lists of characters

A list that holds the characters of a string, each as a string of its own, spells the string
(`Store.Spells`). Whatever both are asked for, they fail with the same error, or they give the same
answer and the list spells the string again.

Both carry out the same edit, so one lemma compares them (`Store.together_perform`). It lets each of
them live in a store of its own. There, what goes in may be any string of one character, also the
string that is changed. Side by side in one store it may not be that one, since the list would then
hold the string that it spells; with new strings going in, operation after operation, the list keeps
spelling the string (`Store.Spells.mirrors`).
-/

namespace CommandScript

/-! ## Two outcomes -/

/-- Both fail with one error, or both succeed with results that are related. -/
inductive Together {α β : Type} (R : α → β → Prop) : Except Error α → Except Error β → Prop
  | error (e : Error) : Together R (.error e) (.error e)
  | ok {a : α} {b : β} : R a b → Together R (.ok a) (.ok b)

theorem Together.map {α β γ : Type} {R : α → β → Prop} {f : γ → α} {g : γ → β}
    (h : ∀ c, R (f c) (g c)) : ∀ x : Except Error γ, Together R (x.map f) (x.map g)
  | .error e => .error e
  | .ok c => .ok (h c)

theorem Together.imp {α β : Type} {R S : α → β → Prop} (h : ∀ a b, R a b → S a b)
    {x : Except Error α} {y : Except Error β} : Together R x y → Together S x y
  | .error e => .error e
  | .ok hab => .ok (h _ _ hab)

namespace Edit

/-- The same change, with elements that are related. -/
structure Rel {α β : Type} (R : α → β → Prop) (d : Edit α) (e : Edit β) : Prop where
  start : d.start = e.start
  stop : d.stop = e.stop
  answer : d.answer = e.answer
  new : List.Forall₂ R d.new e.new

variable {α β : Type} {R : α → β → Prop} {d : Edit α} {e : Edit β}

theorem Rel.withNew (h : d.Rel R e) : d.withNew e.new = e := by
  obtain ⟨start, stop, new, answer⟩ := e
  simp [Edit.withNew, h.start, h.stop, h.answer]

/-- Related sequences stay so. -/
theorem Rel.apply (h : d.Rel R e) {xs : List α} {ys : List β} (hxs : List.Forall₂ R xs ys) :
    List.Forall₂ R (d.apply xs) (e.apply ys) := by
  unfold Edit.apply
  rw [h.start, h.stop]
  exact List.rel_append (List.rel_append (List.forall₂_take _ hxs) h.new) (List.forall₂_drop _ hxs)

end Edit

namespace Operation

variable {α β : Type}

/-- The same operation, where what goes in is related. -/
inductive Rel (R : α → β → Prop) : Operation α → Operation β → Prop
  | len : Rel R .len .len
  | pop : Rel R .pop .pop
  | push {a : α} {b : β} : R a b → Rel R (.push a) (.push b)
  | insert (place : Value) {a : α} {b : β} : R a b → Rel R (.insert place a) (.insert place b)
  | remove (place : Value) : Rel R (.remove place) (.remove place)
  | read (place : Value) : Rel R (.read place) (.read place)
  | write (place : Value) {a : α} {b : β} : R a b → Rel R (.write place a) (.write place b)

/-- **The same operation is the same edit**, or the same error. -/
theorem Rel.edit {R : α → β → Prop} {p : Operation α} {q : Operation β} (h : p.Rel R q) (n : Nat) :
    Together (Edit.Rel R) (p.edit n) (q.edit n) := by
  cases h with
  | len | pop => exact .ok ⟨rfl, rfl, rfl, .nil⟩
  | push hab => exact .ok ⟨rfl, rfl, rfl, .cons hab .nil⟩
  | insert place hab => exact .map (fun _ => ⟨rfl, rfl, rfl, .cons hab .nil⟩) _
  | remove place | read place => exact .map (fun _ => ⟨rfl, rfl, rfl, .nil⟩) _
  | write place hab => exact .map (fun _ => ⟨rfl, rfl, rfl, .cons hab .nil⟩) _

theorem Rel.mono {R S : α → β → Prop} (hRS : ∀ a b, R a b → S a b) {p : Operation α}
    {q : Operation β} (h : p.Rel R q) : p.Rel S q := by
  cases h with
  | len => exact .len
  | pop => exact .pop
  | push hab => exact .push (hRS _ _ hab)
  | insert place hab => exact .insert place (hRS _ _ hab)
  | remove place => exact .remove place
  | read place => exact .read place
  | write place hab => exact .write place (hRS _ _ hab)

end Operation

/-! ## Characters as strings -/

namespace Store

variable {s t u : Store} {v w x : Value} {c : Char} {r : StringRef} {l : ListRef}

/-- The value is a string with the one character. -/
def IsChar (s : Store) (v : Value) (c : Char) : Prop := s.oneChar v = .ok c

theorem IsChar.oneChar (h : s.IsChar v c) : s.oneChar v = .ok c := h

theorem isChar_iff :
    s.IsChar v c ↔ ∃ q, v = .string q ∧ s.strings[q.index]? = some (String.singleton c) := by
  constructor
  · intro h
    obtain ⟨q, rfl, hq⟩ := oneChar_eq_ok h
    have hlt : q.index < s.strings.size := index_lt_of_toList_ne_nil (by simp [hq])
    have htext : s.string q = String.singleton c := by
      rw [← String.toList_inj, hq, String.toList_singleton]
    refine ⟨q, rfl, ?_⟩
    rw [← htext, string, Array.getElem?_eq_getElem hlt, Option.getD_some]
  · rintro ⟨q, rfl, hq⟩
    simp [IsChar, oneChar, string_of_getElem? hq]

theorem IsChar.extends (h : s.IsChar v c) (hst : s.Extends t) : t.IsChar v c := by
  obtain ⟨q, rfl, hq⟩ := isChar_iff.1 h
  exact isChar_iff.2 ⟨q, rfl, hst.strings _ _ hq⟩

theorem IsChar.changesOnly (h : s.IsChar v c) (hst : s.ChangesOnly x t) (hne : v ≠ x) :
    t.IsChar v c := by
  obtain ⟨q, rfl, hq⟩ := isChar_iff.1 h
  exact isChar_iff.2 ⟨q, rfl, hst.strings _ _ hq hne.symm⟩

theorem isChar_newChar (s : Store) (c : Char) : (s.newChar c).2.IsChar (s.newChar c).1 c :=
  isChar_iff.2 ⟨_, rfl, Array.getElem?_push_size⟩

theorem IsChar.display (h : s.IsChar v c) : s.display v = String.singleton c := by
  obtain ⟨q, rfl, hq⟩ := isChar_iff.1 h
  rw [Store.display, displayAt, string_of_getElem? hq]

theorem join_display {items : List Value} {chars : List Char}
    (h : List.Forall₂ s.IsChar items chars) :
    String.join (items.map s.display) = String.ofList chars := by
  rw [← String.toList_inj, String.toList_join, String.toList_ofList]
  induction h with
  | nil => rfl
  | cons hv _ ih => simp [hv.display, ih]

/-- The list holds the characters of the string, each as a string. -/
structure Spells (s : Store) (l : ListRef) (r : StringRef) : Prop where
  list_lt : l.index < s.lists.size
  string_lt : r.index < s.strings.size
  chars : List.Forall₂ s.IsChar (s.list l) (s.string r).toList

theorem Spells.text (h : s.Spells l r) : s.string r = String.join ((s.list l).map s.display) := by
  rw [join_display h.chars, String.ofList_toList]

/-! ## One operation -/

/-- The same answer in two stores: a count, a character as a string, or nothing. -/
inductive Likewise (s : Store) (t : Store) : Value → Value → Prop
  | count (n : Nat) : Likewise s t (.number (Float.ofNat n)) (.number (Float.ofNat n))
  | char {v w : Value} {c : Char} : s.IsChar v c → t.IsChar w c → Likewise s t v w
  | nothing : Likewise s t .none .none

theorem extends_ofChars (answer : Answer) (chars : List Char) (s : Store) :
    s.Extends (answer.ofChars chars s).2 := by
  cases answer with
  | element i =>
    rw [Answer.ofChars]
    cases chars[i]? with
    | none => exact .refl s
    | some c => exact extends_newString s _
  | _ => exact .refl s

/-- At every position, related sequences both end or hold what is related. -/
theorem rel_getElem? {α β : Type} {R : α → β → Prop} {xs : List α} {ys : List β}
    (h : List.Forall₂ R xs ys) (i : Nat) : Option.Rel R xs[i]? ys[i]? := by
  induction h generalizing i with
  | nil => exact .none
  | cons hxy _ ih =>
    cases i with
    | zero => exact .some hxy
    | succ i => exact ih i

/-- **A list of characters and the string of them give the same answer.** -/
theorem likewise_answer {items : List Value} {chars : List Char}
    (h : List.Forall₂ t.IsChar items chars) (answer : Answer) (s : Store) :
    Likewise (answer.ofChars chars s).2 t (answer.ofChars chars s).1 (answer.ofItems items) := by
  cases answer with
  | count n => exact .count n
  | nothing => exact .nothing
  | element i =>
    rw [Answer.ofChars, Answer.ofItems]
    have hi := rel_getElem? h i
    generalize items[i]? = item, chars[i]? = char at hi ⊢
    cases hi with
    | none => exact .nothing
    | some hv => exact .char (isChar_newChar s _) hv

theorem mapM_eq_ok_iff {α β : Type} {f : α → Except Error β} : ∀ {as : List α} {bs : List β},
    as.mapM f = .ok bs ↔ List.Forall₂ (fun a b => f a = .ok b) as bs
  | [], bs => by cases bs <;> simp [pure, Except.pure]
  | a :: as, bs => by
    rw [List.mapM_cons, List.forall₂_cons_left_iff]
    constructor
    · intro h
      obtain ⟨b, hb, h⟩ := exists_of_bind_eq_ok h
      obtain ⟨bs', hbs, h⟩ := exists_of_bind_eq_ok h
      cases h
      exact ⟨b, bs', hb, mapM_eq_ok_iff.1 hbs, rfl⟩
    · rintro ⟨b, bs', hb, hbs, rfl⟩
      rw [hb, mapM_eq_ok_iff.2 hbs]
      rfl

/-- What a string is after an edit. -/
theorem editString_of_rel {d : Edit Value} {e : Edit Char} (h : d.Rel s.IsChar e) (r : StringRef) :
    s.editString r d = .ok (e.answer.ofChars (s.string r).toList
      (s.setString r (String.ofList (e.apply (s.string r).toList)))) := by
  rw [editString, mapM_eq_ok_iff.2 h.new]
  change Except.ok (d.answer.ofChars _ (s.setString r (String.ofList ((d.withNew e.new).apply _))))
    = _
  rw [h.withNew, h.answer]

theorem string_ofChars (hr : r.index < s.strings.size) (answer : Answer) (chars : List Char)
    (text : String) : (answer.ofChars chars (s.setString r text)).2.string r = text := by
  have hsize : r.index < (s.setString r text).strings.size := by simpa [setString] using hr
  rw [(extends_ofChars answer chars _).string_eq hsize, string_setString hr]

/-- **A string and the list of its characters do the same**, each in a store of its own. What else
is known of the elements stays so. -/
theorem together_perform {P : Value → Prop} {p q : Operation Value} {op : Operation Char}
    (hr : r.index < s.strings.size) (hl : l.index < t.lists.size)
    (hchars : List.Forall₂ (fun v c => P v ∧ t.IsChar v c) (t.list l) (s.string r).toList)
    (hp : p.Rel s.IsChar op) (hq : q.Rel (fun v c => P v ∧ t.IsChar v c) op) :
    Together (fun ofString ofList => Likewise ofString.2 ofList.2 ofString.1 ofList.1
        ∧ List.Forall₂ (fun v c => P v ∧ ofList.2.IsChar v c) (ofList.2.list l)
          (ofString.2.string r).toList)
      (s.perform (.string r) p) (t.perform (.list l) q) := by
  have hpe := hp.edit (s.string r).toList.length
  have hqe := hq.edit (s.string r).toList.length
  rw [perform_string, perform_list, hchars.length_eq]
  generalize p.edit _ = ofString at hpe ⊢
  generalize q.edit _ = ofList at hqe ⊢
  generalize op.edit _ = edit at hpe hqe
  cases hpe with
  | error e =>
    cases hqe
    exact .error e
  | @ok d e hd =>
    cases hqe with
    | @ok d' _ hd' =>
      change Together _ (s.editString r d) (.ok (t.editList l d'))
      rw [editString_of_rel hd, editList, hd'.answer]
      -- no string is written where the list is
      have hitems : List.Forall₂ (t.setList l (d'.apply (t.list l))).IsChar (t.list l)
          (s.string r).toList := hchars.imp fun _ _ hv => hv.2
      refine .ok ⟨likewise_answer hitems e.answer _, ?_⟩
      rw [string_ofChars hr, String.toList_ofList, list_setList hl]
      exact hd'.apply hchars

/-- **An operation on a string fails as its edit does, or changes the bytes of the edit** and no
others. -/
theorem together_bytes {p : Operation Value} {op : Operation Char} (hr : r.index < s.strings.size)
    (hp : p.Rel s.IsChar op) :
    Together (fun e found => (found.2.string r).toByteArray
        = Text.splice (s.string r).toByteArray (Text.byteOffset (s.string r) e.start)
          (Text.byteOffset (s.string r) e.stop) e.new.utf8Encode)
      (op.edit (s.string r).toList.length) (s.perform (.string r) p) := by
  have hedit := hp.edit (s.string r).toList.length
  rw [perform_string]
  generalize p.edit _ = ofString at hedit ⊢
  generalize op.edit _ = edit at hedit ⊢
  cases hedit with
  | error e => exact .error e
  | @ok d e hd =>
    change Together _ (.ok e) (s.editString r d)
    rw [editString_of_rel hd]
    refine .ok ?_
    rw [string_ofChars hr, Text.toByteArray_apply]

/-! ## Operation after operation -/

/-- The operation with a new string for the character that goes in. -/
def bring (s : Store) : Operation Char → Operation Value × Store
  | .len => (.len, s)
  | .pop => (.pop, s)
  | .push c => (.push (s.newChar c).1, (s.newChar c).2)
  | .insert place c => (.insert place (s.newChar c).1, (s.newChar c).2)
  | .remove place => (.remove place, s)
  | .read place => (.read place, s)
  | .write place c => (.write place (s.newChar c).1, (s.newChar c).2)

/-- Ask for something with a new string going in. A failed attempt leaves the store as it is. -/
def attempt (s : Store) (x : Value) (op : Operation Char) : Except Error Value × Store :=
  match (s.bring op).2.perform x (s.bring op).1 with
  | .ok (v, t) => (.ok v, t)
  | .error e => (.error e, (s.bring op).2)

/-- What a string and a list have answered, and the store afterwards. -/
structure Round where
  ofString : Except Error Value
  ofList : Except Error Value
  store : Store

/-- Ask a string, and then a list for the same. -/
def round (s : Store) (r : StringRef) (l : ListRef) (op : Operation Char) : Round :=
  let behind := s.attempt (.string r) op
  ⟨behind.1, (behind.2.attempt (.list l) op).1, (behind.2.attempt (.list l) op).2⟩

/-- Ask both for one thing after the other. -/
def rounds (r : StringRef) (l : ListRef) : Store → List (Operation Char) → List Round
  | _, [] => []
  | s, op :: ops => s.round r l op :: rounds r l (s.round r l op).store ops

theorem extends_bring (s : Store) (op : Operation Char) : s.Extends (s.bring op).2 := by
  cases op with
  | push | insert | write => exact extends_newString s _
  | _ => exact .refl s

/-- What goes in are strings of the characters, and new ones. -/
theorem rel_bring (hr : r.index < s.strings.size) (op : Operation Char) :
    (s.bring op).1.Rel (fun v c => v ≠ .string r ∧ (s.bring op).2.IsChar v c) op := by
  have hnew (c : Char) :
      (s.newChar c).1 ≠ .string r ∧ (s.newChar c).2.IsChar (s.newChar c).1 c := by
    refine ⟨fun h => ?_, isChar_newChar s c⟩
    rw [← Value.string.inj h] at hr
    exact absurd hr (Nat.lt_irrefl _)
  cases op with
  | len => exact .len
  | pop => exact .pop
  | push c => exact .push (hnew c)
  | insert place c => exact .insert place (hnew c)
  | remove place => exact .remove place
  | read place => exact .read place
  | write place c => exact .write place (hnew c)

theorem changesOnly_perform {op : Operation Value} (h : s.perform x op = .ok (v, t)) :
    s.ChangesOnly x t := by
  cases op with
  | read place =>
    rw [perform] at h
    cases hread : s.element x place with
    | error e =>
      rw [hread] at h
      cases h
    | ok found =>
      rw [hread] at h
      obtain rfl : (s.place found).2 = t := congrArg Prod.snd (Except.ok.inj h)
      exact (s.extends_place found).changesOnly x
  | write place w =>
    rw [perform] at h
    cases hwrite : s.setElement x place w with
    | error e =>
      rw [hwrite] at h
      cases h
    | ok u =>
      rw [hwrite] at h
      cases h
      exact (changesOnly_setElement hwrite).1
  | _ => exact (changesOnly_callMember h).1

theorem attempt_of_ok {op : Operation Char}
    (h : (s.bring op).2.perform x (s.bring op).1 = .ok (v, t)) : s.attempt x op = (.ok v, t) := by
  rw [attempt, h]

theorem attempt_of_error {op : Operation Char} {e : Error}
    (h : (s.bring op).2.perform x (s.bring op).1 = .error e) :
    s.attempt x op = (.error e, (s.bring op).2) := by
  rw [attempt, h]

/-- An attempt changes no cell but that of its receiver. -/
theorem changesOnly_attempt (s : Store) (x : Value) (op : Operation Char) :
    (s.bring op).2.ChangesOnly x (s.attempt x op).2 := by
  cases h : (s.bring op).2.perform x (s.bring op).1 with
  | error e =>
    rw [attempt_of_error h]
    exact (Extends.refl _).changesOnly x
  | ok found =>
    rw [attempt_of_ok h]
    exact changesOnly_perform h

theorem Likewise.equal (h : Likewise s s v w) : s.equal v w = true := by
  refine equalAt_of_same ?_
  cases h with
  | count n => exact .number (Number.beq_ofNat n)
  | nothing => exact .none
  | char hv hw =>
    obtain ⟨a, rfl, ha⟩ := isChar_iff.1 hv
    obtain ⟨b, rfl, hb⟩ := isChar_iff.1 hw
    exact .string ((string_of_getElem? ha).trans (string_of_getElem? hb).symm)

/-- The string is not among the strings that the list holds for its characters. -/
structure SpellsApart (s : Store) (l : ListRef) (r : StringRef) : Prop extends s.Spells l r where
  apart : .string r ∉ s.list l

/-- Both have failed with one error or given equal answers, and the list spells the string. -/
structure Round.Agrees (r : StringRef) (l : ListRef) (round : Round) : Prop where
  answers : Together (fun v w => round.store.equal v w = true) round.ofString round.ofList
  spells : round.store.SpellsApart l r

theorem SpellsApart.chars_apart (h : s.SpellsApart l r) :
    List.Forall₂ (fun v c => v ≠ .string r ∧ s.IsChar v c) (s.list l) (s.string r).toList :=
  (List.forall₂_and_left _ _).2 ⟨fun _ hv heq => h.apart (heq ▸ hv), h.chars⟩

theorem spellsApart_of_chars (hl : l.index < s.lists.size) (hr : r.index < s.strings.size)
    (h : List.Forall₂ (fun v c => v ≠ .string r ∧ s.IsChar v c) (s.list l) (s.string r).toList) :
    s.SpellsApart l r := by
  obtain ⟨hapart, hchars⟩ := (List.forall₂_and_left _ _).1 h
  exact ⟨⟨hl, hr, hchars⟩, fun hmem => hapart _ hmem rfl⟩

/-- What the list holds is kept while other cells change. -/
theorem SpellsApart.chars_of_changesOnly (h : s.SpellsApart l r)
    (hst : s.ChangesOnly (.string r) t) :
    List.Forall₂ (fun v c => v ≠ .string r ∧ t.IsChar v c) (t.list l) (s.string r).toList := by
  rw [hst.list_eq h.list_lt nofun]
  exact h.chars_apart.imp fun _ _ hv => ⟨hv.1, hv.2.changesOnly hst hv.1⟩

/-- The answers of both are the same in the store that the second leaves. -/
theorem Likewise.changesOnly (h : Likewise s u v w) (hsu : s.ChangesOnly (.list l) u) :
    Likewise u u v w := by
  cases h with
  | count n => exact .count n
  | nothing => exact .nothing
  | char hv hw =>
    refine .char (hv.changesOnly hsu ?_) hw
    obtain ⟨q, rfl, -⟩ := isChar_iff.1 hv
    nofun

/-- **A round leaves the list spelling the string.** -/
theorem SpellsApart.round (h : s.SpellsApart l r) (op : Operation Char) :
    (s.round r l op).Agrees r l := by
  -- the string is asked in `s₁` and leaves `s₂`, the list is asked in `s₃`
  have h₁ := s.extends_bring op
  have h₂ := s.changesOnly_attempt (.string r) op
  rw [Store.round]
  rcases hs : s.attempt (.string r) op with ⟨ofString, s₂⟩
  rw [hs] at h₂
  have h₃ := s₂.extends_bring op
  have h₁₃ := (h₁.changesOnly _).trans (h₂.trans_extends h₃)
  have hr₁ := h.string_lt.trans_le (h₁.changesOnly .none).strings_size
  have hr₂ := hr₁.trans_le h₂.strings_size
  have hl₃ := h.list_lt.trans_le h₁₃.lists_size
  have hchars := h.chars_of_changesOnly h₁₃
  rw [← h₁.string_eq h.string_lt] at hchars
  have htogether := together_perform hr₁ hl₃ hchars
    ((rel_bring h.string_lt op).mono fun _ _ hv => hv.2) (rel_bring hr₂ op)
  generalize hstring : (s.bring op).2.perform (.string r) _ = onString at htogether
  generalize hlist : (s₂.bring op).2.perform (.list l) _ = onList at htogether
  cases htogether with
  | error e =>
    cases hs.symm.trans (attempt_of_error hstring)
    rw [attempt_of_error hlist]
    refine ⟨.error e, spellsApart_of_chars hl₃ (hr₂.trans_le ?_) ?_⟩
    · exact (h₃.changesOnly .none).strings_size
    · rwa [h₃.string_eq hr₂]
  | ok hboth =>
    obtain ⟨hlikewise, hitems⟩ := hboth
    cases hs.symm.trans (attempt_of_ok hstring)
    rw [attempt_of_ok hlist]
    have h₄ := changesOnly_perform hlist
    have h₂₄ := (h₃.changesOnly (.list l)).trans h₄
    refine ⟨.ok (hlikewise.changesOnly h₂₄).equal, spellsApart_of_chars (hl₃.trans_le h₄.lists_size)
      (hr₂.trans_le h₂₄.strings_size) ?_⟩
    rwa [h₂₄.string_eq hr₂ nofun]

/-- **The list spells the string after every round.** -/
theorem SpellsApart.rounds (h : s.SpellsApart l r) (ops : List (Operation Char)) :
    ∀ round ∈ s.rounds r l ops, round.Agrees r l := by
  induction ops generalizing s with
  | nil => exact List.forall_mem_nil _
  | cons op ops ih => exact List.forall_mem_cons.2 ⟨h.round op, ih (h.round op).spells⟩

/-- **Strings behave as lists of characters.** Asked for the same with any strings of one character,
both fail with one error, or both give the same answer and the string is what the elements of the
list are together. The string fails as the edit of its characters does, and finds the bytes to
change at their offsets. With new strings going in, both agree after every operation of a
sequence. -/
theorem Spells.mirrors (h : s.Spells l r) :
    (∀ p op, Operation.Rel s.IsChar p op →
      Together (fun e found => (found.2.string r).toByteArray
          = Text.splice (s.string r).toByteArray (Text.byteOffset (s.string r) e.start)
            (Text.byteOffset (s.string r) e.stop) e.new.utf8Encode)
        (op.edit (s.string r).toList.length) (s.perform (.string r) p)
      ∧ Together (fun ofString ofList => Likewise ofString.2 ofList.2 ofString.1 ofList.1
          ∧ ofString.2.string r = String.join ((ofList.2.list l).map ofList.2.display))
        (s.perform (.string r) p) (s.perform (.list l) p))
    ∧ (.string r ∉ s.list l → ∀ ops, ∀ round ∈ s.rounds r l ops,
      Together (fun v w => round.store.equal v w = true) round.ofString round.ofList
        ∧ round.store.string r
          = String.join ((round.store.list l).map round.store.display)) := by
  refine ⟨fun p op hp => ⟨together_bytes h.string_lt hp, ?_⟩, ?_⟩
  · have hknown {v : Value} {c : Char} (hv : s.IsChar v c) : True ∧ s.IsChar v c := ⟨trivial, hv⟩
    refine (together_perform (P := fun _ => True) h.string_lt h.list_lt
      (h.chars.imp fun _ _ => hknown) hp (hp.mono fun _ _ => hknown)).imp ?_
    rintro ofString ofList ⟨hlikewise, hchars⟩
    refine ⟨hlikewise, ?_⟩
    rw [join_display (hchars.imp fun _ _ hv => hv.2), String.ofList_toList]
  · intro hapart ops round hround
    have hagrees := SpellsApart.rounds ⟨h, hapart⟩ ops round hround
    exact ⟨hagrees.answers, hagrees.spells.text⟩

/-- With a word of two characters and three bytes. -/
theorem mirrors_accented :
    let s : Store := ⟨#["né", "n", "é"], #[[.string ⟨1⟩, .string ⟨2⟩]], #[]⟩
    let ops := [.insert (.number 1) 'ß', .pop, .remove .none, .write (.number 0) '∀']
    ∀ round ∈ s.rounds ⟨0⟩ ⟨0⟩ ops,
      Together (fun v w => round.store.equal v w = true) round.ofString round.ofList
        ∧ round.store.string ⟨0⟩
          = String.join ((round.store.list ⟨0⟩).map round.store.display) := by
  intro s ops
  have hword : (s.string ⟨0⟩).toList = ['n', 'é'] := by decide
  have hchars : List.Forall₂ s.IsChar [.string ⟨1⟩, .string ⟨2⟩] ['n', 'é'] :=
    .cons (isChar_iff.2 ⟨_, rfl, rfl⟩) (.cons (isChar_iff.2 ⟨_, rfl, rfl⟩) .nil)
  have hspells : s.Spells ⟨0⟩ ⟨0⟩ := ⟨by decide, by decide, hword ▸ hchars⟩
  have hapart : .string ⟨0⟩ ∉ s.list ⟨0⟩ := by
    simp [s, Store.list]
  exact hspells.mirrors.2 hapart ops

end Store

end CommandScript
