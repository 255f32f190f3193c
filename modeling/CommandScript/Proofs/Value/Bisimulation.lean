import CommandScript.Proofs.Value.Tree
import Mathlib.Data.List.ProdSigma

/-!
# Proofs/Value/Bisimulation — equality of values that may hold themselves

Lists live in a store and may hold themselves, so values are graphs, and equality of graphs is
bisimilarity: two values are equal if they stand in some relation that never relates what can be told
apart (`Store.IsBisimulation`). The comparison follows the pairs of lists it is inside of and takes a
pair that it meets again for equal. `Store.Compares` is this comparison as it runs, with nothing that
bounds its depth; it ends, since there are only so many pairs of lists (`Store.compares_equal`), and
it finds exactly what is bisimilar (`Store.equal_iff_bisimilar`).

That nothing is taken for equal too early is the harder half. Values that can be told apart can be so
by looking only so deep (`Store.AgreesTo`), and the pairs that the comparison is inside of agree at
least as deep as the pair it is at: so that one is not met again, and what tells it apart is found.
-/

namespace CommandScript

namespace Store

/-- The values are the same without a look at elements: equal numbers, booleans or ranges, strings with
one text, `none`, one function or one list. -/
inductive Same (s : Store) : Value → Value → Prop
  | number {x y : Float} : (x == y) = true → Same s (.number x) (.number y)
  | string {a b : StringRef} : s.string a = s.string b → Same s (.string a) (.string b)
  | boolean (b : Bool) : Same s (.boolean b) (.boolean b)
  | range {r q : Range} : r.equals q = true → Same s (.range r) (.range q)
  | none : Same s .none .none
  | function (f : FunctionRef) : Same s (.function f) (.function f)
  | list (r : ListRef) : Same s (.list r) (.list r)

/-- Nothing tells the values apart, as long as nothing tells elements apart that `R` relates: they are
the same, or lists of one length whose elements are related one by one. -/
inductive Matches (s : Store) (R : Value → Value → Prop) : Value → Value → Prop
  | same {a b : Value} : s.Same a b → Matches s R a b
  | items {r q : ListRef} : List.Forall₂ R (s.list r) (s.list q) → Matches s R (.list r) (.list q)

/-- A relation that relates only values that nothing tells apart. -/
def IsBisimulation (s : Store) (R : Value → Value → Prop) : Prop := ∀ a b, R a b → s.Matches R a b

mutual
/-- Comparing two values ends with the given answer, while the given pairs of lists are being
compared. -/
inductive Compares (s : Store) : List (ListRef × ListRef) → Value → Value → Bool → Prop
  | number {opened} (x y : Float) : Compares s opened (.number x) (.number y) (x == y)
  | string {opened} (a b : StringRef) :
    Compares s opened (.string a) (.string b) (s.string a == s.string b)
  | boolean {opened} (a b : Bool) : Compares s opened (.boolean a) (.boolean b) (a == b)
  | range {opened} (r q : Range) : Compares s opened (.range r) (.range q) (r.equals q)
  | none {opened} : Compares s opened .none .none true
  | function {opened} (f g : FunctionRef) : Compares s opened (.function f) (.function g) (f == g)
  | kinds {opened a b} : a.kind ≠ b.kind → Compares s opened a b false
  /-- A list is equal to itself. -/
  | same {opened} (r : ListRef) : Compares s opened (.list r) (.list r) true
  /-- The pair is being compared already. -/
  | again {opened a b} : a ≠ b → (a, b) ∈ opened → Compares s opened (.list a) (.list b) true
  | lengths {opened a b} : a ≠ b → (a, b) ∉ opened → (s.list a).length ≠ (s.list b).length →
    Compares s opened (.list a) (.list b) false
  | items {opened a b equal} : a ≠ b → (a, b) ∉ opened →
    (s.list a).length = (s.list b).length →
    ComparesAll s ((a, b) :: opened) (s.list a) (s.list b) equal →
    Compares s opened (.list a) (.list b) equal

/-- …and so does comparing elements one after the other, up to the first that are not equal. -/
inductive ComparesAll (s : Store) : List (ListRef × ListRef) → List Value → List Value → Bool → Prop
  | done {opened} : ComparesAll s opened [] [] true
  | stop {opened x y xs ys} : Compares s opened x y false →
    ComparesAll s opened (x :: xs) (y :: ys) false
  | next {opened x y xs ys equal} : Compares s opened x y true → ComparesAll s opened xs ys equal →
    ComparesAll s opened (x :: xs) (y :: ys) equal
end

variable {s : Store} {a b : Value} {opened : List (ListRef × ListRef)} {depth : Nat}

/-! ## The comparison ends -/

mutual
/-- A comparison has one answer. -/
theorem Compares.unique {opened : List (ListRef × ListRef)} {a b : Value} {e e' : Bool} :
    s.Compares opened a b e → s.Compares opened a b e' → e = e'
  | .number _ _, h => by cases h <;> trivial
  | .string _ _, h => by cases h <;> trivial
  | .boolean _ _, h => by cases h <;> trivial
  | .range _ _, h => by cases h <;> trivial
  | .none, h => by cases h <;> trivial
  | .function _ _, h => by cases h <;> trivial
  | .kinds _, h => by cases h <;> trivial
  | .same _, h => by cases h <;> trivial
  | .again _ _, h => by cases h <;> trivial
  | .lengths _ _ _, h => by cases h <;> trivial
  | .items _ _ _ hall, h => by
    cases h with
    | items _ _ _ hall' => exact hall.unique hall'
    | _ => trivial

theorem ComparesAll.unique {opened : List (ListRef × ListRef)} {xs ys : List Value} {e e' : Bool} :
    s.ComparesAll opened xs ys e → s.ComparesAll opened xs ys e' → e = e'
  | .done, .done => rfl
  | .stop _, .stop _ => rfl
  | .stop h, .next h' _ => absurd (h.unique h') Bool.false_ne_true
  | .next h _, .stop h' => absurd (h.unique h').symm Bool.false_ne_true
  | .next _ h, .next _ h' => h.unique h'
end

/-- Elements that are compared one after the other, each with an answer. -/
theorem comparesAll_zip {answer : Value → Value → Bool} : ∀ {xs ys : List Value},
    xs.length = ys.length → (∀ p ∈ xs.zip ys, s.Compares opened p.1 p.2 (answer p.1 p.2)) →
    s.ComparesAll opened xs ys ((xs.zip ys).all fun p => answer p.1 p.2)
  | [], [], _, _ => .done
  | [], _ :: _, hlen, _ => absurd hlen (by simp)
  | _ :: _, [], hlen, _ => absurd hlen (by simp)
  | x :: xs, y :: ys, hlen, h => by
    rw [List.zip_cons_cons] at h ⊢
    obtain ⟨hxy, h⟩ := List.forall_mem_cons.1 h
    have hall := comparesAll_zip (Nat.succ.inj hlen) h
    dsimp only at hxy
    rw [List.all_cons]
    dsimp only
    cases hanswer : answer x y with
    | false => exact .stop (hanswer ▸ hxy)
    | true => exact .next (hanswer ▸ hxy) hall

/-- The pairs that are being compared are pairs of lists in the store, each opened once, and the
comparison may go on as deep as there are others. -/
structure Fits (s : Store) (depth : Nat) (opened : List (ListRef × ListRef)) : Prop where
  nodup : opened.Nodup
  stored : ∀ p ∈ opened, p.1.index < s.lists.size ∧ p.2.index < s.lists.size
  room : s.lists.size * s.lists.size < depth + opened.length

theorem fits_nil (s : Store) : s.Fits (s.lists.size * s.lists.size + 1) [] :=
  ⟨List.nodup_nil, List.forall_mem_nil _, Nat.lt_succ_self _⟩

/-- There are no more pairs than the square of the number of lists. -/
theorem Fits.length_le (h : s.Fits depth opened) :
    opened.length ≤ s.lists.size * s.lists.size := by
  have hinjective : Function.Injective fun p : ListRef × ListRef => (p.1.index, p.2.index) := by
    rintro ⟨⟨i⟩, ⟨j⟩⟩ ⟨⟨i'⟩, ⟨j'⟩⟩ hij
    obtain ⟨rfl, rfl⟩ := Prod.mk.inj hij
    rfl
  have hsub : opened.map (fun p => (p.1.index, p.2.index))
      ⊆ List.range s.lists.size ×ˢ List.range s.lists.size := by
    intro p hp
    obtain ⟨q, hq, rfl⟩ := List.mem_map.1 hp
    obtain ⟨hfirst, hsecond⟩ := h.stored q hq
    exact List.mem_product.2 ⟨List.mem_range.2 hfirst, List.mem_range.2 hsecond⟩
  have hle := (List.subperm_of_subset (List.Nodup.map hinjective h.nodup) hsub).length_le
  rwa [List.length_map, List.length_product, List.length_range] at hle

theorem Fits.depth_pos (h : s.Fits depth opened) : ∃ n, depth = n + 1 := by
  have hle := h.length_le
  have hroom := h.room
  exact ⟨depth - 1, by omega⟩

/-- Two lists with elements are opened only if they are in the store. -/
theorem Fits.cons {r q : ListRef} {x y : Value} (h : s.Fits (depth + 1) opened)
    (hnew : (r, q) ∉ opened) (hx : x ∈ s.list r) (hy : y ∈ s.list q) :
    s.Fits depth ((r, q) :: opened) where
  nodup := List.nodup_cons.2 ⟨hnew, h.nodup⟩
  stored := List.forall_mem_cons.2 ⟨⟨index_lt_of_mem hx, index_lt_of_mem hy⟩, h.stored⟩
  room := by
    have hroom := h.room
    rw [List.length_cons]
    omega

theorem equalAt_kinds (h : a.kind ≠ b.kind) : s.equalAt depth opened a b = false := by
  cases a <;> cases b <;> first | exact absurd rfl h | simp [equalAt]

/-- A pair that is not being compared yet is compared element by element, one step less deep. -/
theorem equalAt_new {r q : ListRef} (hne : r ≠ q) (hnew : (r, q) ∉ opened) :
    s.equalAt (depth + 1) opened (.list r) (.list q)
      = ((s.list r).length == (s.list q).length
        && ((s.list r).zip (s.list q)).all fun p => s.equalAt depth ((r, q) :: opened) p.1 p.2) := by
  rw [equalAt, if_neg hne, if_neg (by simpa using hnew)]

/-- **A comparison that fits ends**, with the answer that is computed. -/
theorem compares_equalAt (h : s.Fits depth opened) (a b : Value) :
    s.Compares opened a b (s.equalAt depth opened a b) := by
  induction depth generalizing opened a b with
  | zero =>
    obtain ⟨n, hn⟩ := h.depth_pos
    exact absurd hn (Nat.succ_ne_zero n).symm
  | succ depth ih =>
    by_cases hkind : a.kind = b.kind
    · cases a <;> cases b <;> cases hkind
      case list.list.refl r q =>
        by_cases hne : r = q
        · rw [equalAt, if_pos hne]
          exact hne ▸ .same r
        by_cases hnew : (r, q) ∈ opened
        · rw [equalAt, if_neg hne, if_pos (List.contains_iff_mem.2 hnew)]
          exact .again hne hnew
        rw [equalAt_new hne hnew]
        by_cases hlen : (s.list r).length = (s.list q).length
        · rw [beq_iff_eq.2 hlen, Bool.true_and]
          refine .items hne hnew hlen (comparesAll_zip hlen fun p hp => ih ?_ p.1 p.2)
          obtain ⟨hx, hy⟩ := List.of_mem_zip hp
          exact h.cons hnew hx hy
        · rw [beq_eq_false_iff_ne.2 hlen, Bool.false_and]
          exact .lengths hne hnew hlen
      all_goals
        rw [equalAt]
        constructor
    · rw [equalAt_kinds hkind]
      exact .kinds hkind

theorem compares_equal (s : Store) (a b : Value) : s.Compares [] a b (s.equal a b) :=
  compares_equalAt s.fits_nil a b

/-! ## What is bisimilar is found equal -/

theorem equalAt_of_same (h : s.Same a b) : s.equalAt depth opened a b = true := by
  cases h with
  | number h => rw [equalAt, h]
  | string h => rw [equalAt, beq_iff_eq.2 h]
  | boolean b => rw [equalAt, beq_self_eq_true]
  | range h => rw [equalAt, h]
  | none => rw [equalAt]
  | function f => rw [equalAt, beq_self_eq_true]
  | list r => cases depth <;> simp [equalAt]

/-- The pairs that are being compared make no difference here: all of them would be found equal. -/
theorem equalAt_of_bisimulation {R : Value → Value → Prop} (hR : s.IsBisimulation R) (hab : R a b)
    (depth : Nat) (opened : List (ListRef × ListRef)) : s.equalAt depth opened a b = true := by
  induction depth using Nat.strong_induction_on generalizing opened a b with
  | _ depth ih =>
    cases hR a b hab with
    | same h => exact equalAt_of_same h
    | items hitems => exact equalAt_list fun j hj => hitems.imp fun x y hxy => ih j hj hxy _

/-! ## What is found equal is bisimilar -/

/-- Nothing tells the values apart if one looks only so deep. -/
def AgreesTo (s : Store) : (depth : Nat) → Value → Value → Prop
  | 0 => fun _ _ => True
  | depth + 1 => s.Matches (s.AgreesTo depth)

theorem Matches.mono {R S : Value → Value → Prop} (hRS : ∀ a b, R a b → S a b)
    (h : s.Matches R a b) : s.Matches S a b := by
  cases h with
  | same h => exact .same h
  | items h => exact .items (h.imp hRS)

theorem AgreesTo.of_succ : ∀ {n : Nat} {a b : Value}, s.AgreesTo (n + 1) a b → s.AgreesTo n a b
  | 0, _, _, _ => trivial
  | _ + 1, _, _, h => Matches.mono (fun _ _ => AgreesTo.of_succ) h

/-- What agrees however deep one looks is bisimilar. -/
theorem isBisimulation_agreesTo (s : Store) :
    s.IsBisimulation fun a b => ∀ n, s.AgreesTo n a b := by
  intro a b h
  by_cases hsame : s.Same a b
  · exact .same hsame
  cases h 1 with
  | same hsame' => exact absurd hsame' hsame
  | @items r q _ =>
    have hitems (n : Nat) : List.Forall₂ (s.AgreesTo n) (s.list r) (s.list q) := by
      cases h (n + 1) with
      | same hsame' => exact absurd hsame' hsame
      | items hitems => exact hitems
    refine .items (List.forall₂_iff_get.2 ⟨(hitems 0).length_eq, fun i hi hi' n => ?_⟩)
    exact (List.forall₂_iff_get.1 (hitems n)).2 i hi hi'

/-- If not all elements are related, some that are compared are not. -/
theorem exists_of_not_forall₂ {R : Value → Value → Prop} {xs ys : List Value}
    (hlen : xs.length = ys.length) (h : ¬ List.Forall₂ R xs ys) :
    ∃ x y, (x, y) ∈ xs.zip ys ∧ ¬ R x y := by
  by_contra hall
  refine h (List.forall₂_iff_zip.2 ⟨hlen, fun {x y} hxy => ?_⟩)
  by_contra hR
  exact hall ⟨x, y, hxy, hR⟩

/-- Elements of which some are different are not found equal. -/
theorem ComparesAll.eq_false {x y : Value} : ∀ {xs ys : List Value} {e : Bool},
    s.ComparesAll opened xs ys e → (x, y) ∈ xs.zip ys → (∀ e, s.Compares opened x y e → e = false) →
    e = false
  | [], _, _, _, hxy, _ => absurd hxy (by simp)
  | _ :: _, _ :: _, _, .stop _, _, _ => rfl
  | _ :: xs, _ :: ys, _, .next hhead hall, hxy, hdiffer => by
    rw [List.zip_cons_cons, List.mem_cons] at hxy
    obtain heq | hxy := hxy
    · obtain ⟨rfl, rfl⟩ := Prod.mk.inj heq
      exact absurd (hdiffer _ hhead).symm Bool.false_ne_true
    · exact ComparesAll.eq_false hall hxy hdiffer

/-- **What can be told apart is found different**, if the pairs that are being compared agree at
least as deep. -/
theorem Compares.eq_false {n : Nat} {e : Bool} (h : s.Compares opened a b e)
    (hopened : ∀ p ∈ opened, s.AgreesTo n (.list p.1) (.list p.2)) (hab : ¬ s.AgreesTo n a b) :
    e = false := by
  induction n generalizing opened a b e with
  | zero => exact absurd trivial hab
  | succ n ih =>
    have hless : ∀ p ∈ opened, s.AgreesTo n (.list p.1) (.list p.2) := fun p hp =>
      (hopened p hp).of_succ
    by_cases hn : s.AgreesTo n a b
    · have hsame : ¬ s.Same a b := fun hsame => hab (.same hsame)
      cases h with
      | number x y => exact Bool.eq_false_iff.2 fun h => hsame (.number h)
      | string x y => exact Bool.eq_false_iff.2 fun h => hsame (.string (beq_iff_eq.1 h))
      | boolean x y => exact Bool.eq_false_iff.2 fun h => hsame (beq_iff_eq.1 h ▸ .boolean x)
      | range x y => exact Bool.eq_false_iff.2 fun h => hsame (.range h)
      | none => exact absurd .none hsame
      | function f g => exact Bool.eq_false_iff.2 fun h => hsame (beq_iff_eq.1 h ▸ .function f)
      | kinds _ => rfl
      | same r => exact absurd (.list r) hsame
      | again _ hmem => exact absurd (hopened _ hmem) hab
      | lengths _ _ _ => rfl
      | items _ _ hlen hall =>
        -- the pair itself agrees as deep as needed for its elements
        obtain ⟨x, y, hxy, hdiffer⟩ := exists_of_not_forall₂ hlen fun hitems => hab (.items hitems)
        exact hall.eq_false hxy fun e he => ih he (List.forall_mem_cons.2 ⟨hn, hless⟩) hdiffer
    · exact ih h hless hn

/-- **Equal is what is bisimilar.** Comparing two values ends, whatever lists hold each other, and it
finds them equal exactly if some relation relates them that relates no values that can be told
apart. -/
theorem equal_iff_bisimilar (s : Store) (a b : Value) :
    (∀ e, s.Compares [] a b e ↔ e = s.equal a b)
      ∧ (s.equal a b = true ↔ ∃ R, s.IsBisimulation R ∧ R a b) := by
  have hends := s.compares_equal a b
  refine ⟨fun e => ⟨fun h => h.unique hends, fun h => h ▸ hends⟩, fun hequal => ?_, ?_⟩
  · refine ⟨_, s.isBisimulation_agreesTo, fun n => ?_⟩
    by_contra hab
    rw [hends.eq_false (List.forall_mem_nil _) hab] at hequal
    exact Bool.false_ne_true hequal
  · rintro ⟨R, hR, hab⟩
    exact equalAt_of_bisimulation hR hab _ _

/-- A list that holds itself and two that hold each other look alike from every side. -/
example : (⟨#[], #[[.none, .list ⟨0⟩], [.none, .list ⟨2⟩], [.none, .list ⟨1⟩]], #[]⟩ : Store).equal
    (.list ⟨0⟩) (.list ⟨1⟩) = true := by
  decide

end Store

end CommandScript
