import CommandScript.Eval.Stmt
import CommandScript.Proofs.Eval.CallFree
import CommandScript.Proofs.Number.Sign
import CommandScript.Proofs.Parser.RoundTrip
import CommandScript.Proofs.Value.Tree
import CommandScript.Session

/-!
# Proofs/Value/Source — the display of a list is source text for it

The text that displays a list is the text of an expression (`Datum.expr`): numbers and strings are
literals, a negative number is its magnitude behind a minus, and a range is written with its step.
Three things make the expression a source of the list: displaying the list writes it
(`Store.quote_displayAt`), it can be read back, and its value is what was displayed, up to the sign
of zeros (`Datum.eval_expr`).
-/

namespace CommandScript

/-! ## Numbers as expressions -/

namespace Number

/-- The expression that the display of a number is. -/
def expr (x : Float) : Expr :=
  if x == 0 then .number 0
  else if x < 0 then .unary .negate (.number x.abs)
  else .number x.abs

variable {x : Float}

/-- A number is displayed as zero, as a magnitude behind a minus, or as a magnitude. -/
theorem expr_cases (hx : x.isFinite = true) :
    (expr x = .number 0 ∧ display x = text 0 ∧ shown x = 0)
      ∨ (expr x = .unary .negate (.number x.abs) ∧ display x = "-" ++ text x.abs
        ∧ shown x = -x.abs)
      ∨ (expr x = .number x.abs ∧ display x = text x.abs ∧ shown x = x.abs) := by
  unfold expr display shown
  by_cases hzero : (x == 0) = true
  · left
    have htext : "0" = text 0 := by decide +kernel
    simp [hzero, htext]
  right
  simp only [hzero]
  by_cases hnegative : x < 0
  · left
    obtain ⟨hvalue, htext⟩ := neg_abs_of_lt_zero hx hnegative
    simp [hnegative, hvalue, htext]
  · right
    have habs := abs_of_not_lt_zero hx hzero hnegative
    simp [hnegative, habs]

theorem isUnsigned_abs (hx : x.isFinite = true) : isUnsigned x.abs = true := by
  obtain ⟨e, he, hnegative⟩ := exact_abs hx
  simp [isUnsigned, he, hnegative]

theorem text_expr (hx : x.isFinite = true) : (expr x).text = display x := by
  rcases expr_cases hx with ⟨hexpr, hdisplay, -⟩ | ⟨hexpr, hdisplay, -⟩ | ⟨hexpr, hdisplay, -⟩
  all_goals
    rw [hexpr, hdisplay]
    rfl

theorem isPrintable_expr (hx : x.isFinite = true) : (expr x).isPrintable = true := by
  have habs := isUnsigned_abs hx
  rcases expr_cases hx with ⟨hexpr, -⟩ | ⟨hexpr, -⟩ | ⟨hexpr, -⟩
  · rw [hexpr]
    decide +kernel
  · rw [hexpr]
    exact habs
  · rw [hexpr]
    exact habs

theorem isRange_expr (x : Float) : (expr x).isRange = false := by
  unfold expr
  split_ifs <;> rfl

theorem height_expr_le (x : Float) : (expr x).height ≤ 1 := by
  unfold expr
  split_ifs <;> simp [Expr.height]

theorem eval_expr (hx : x.isFinite = true) (call : Caller) (m : Machine) :
    (expr x).eval call m = .ok (.number (shown x)) m := by
  rcases expr_cases hx with ⟨hexpr, -, hshown⟩ | ⟨hexpr, -, hshown⟩ | ⟨hexpr, -, hshown⟩
  all_goals
    rw [hexpr, hshown]
    rfl

end Number

/-! ## Data as expressions -/

namespace Datum

mutual
/-- The expression that the display of data is. -/
def expr : Datum → Expr
  | number x => Number.expr x
  | string text => .string text
  | boolean b => .boolean b
  | range r => .range (Number.expr r.start) (Number.expr r.stop) (some (Number.expr r.step))
  | none => .none
  | list items => .list (exprs items)

/-- The expression of each. -/
def exprs : List Datum → List Expr
  | [] => []
  | d :: ds => d.expr :: exprs ds
end

theorem texts_exprs : ∀ ds : List Datum, Expr.texts (exprs ds) = ds.map fun d => d.expr.text
  | [] => rfl
  | d :: ds => by rw [exprs, Expr.texts, texts_exprs ds, List.map_cons]

theorem arePrintable_exprs : ∀ {ds : List Datum}, (∀ d ∈ ds, d.expr.isPrintable = true) →
    Expr.arePrintable (exprs ds) = true
  | [], _ => rfl
  | d :: ds, h => by
    obtain ⟨hd, hds⟩ := List.forall_mem_cons.1 h
    rw [exprs, Expr.arePrintable, hd, arePrintable_exprs hds, Bool.and_self]

theorem isPrintable_expr {d : Datum} (hd : d.Plain) : d.expr.isPrintable = true := by
  induction hd with
  | number hx => exact Number.isPrintable_expr hx
  | string h => simpa [expr, Expr.isPrintable] using h
  | boolean b => rfl
  | range hr =>
    obtain ⟨hstart, hstop, hstep, -⟩ := Range.isSound_of_make hr
    simp [expr, Expr.isPrintable, Number.isRange_expr, Number.isPrintable_expr, hstart, hstop,
      hstep]
  | none => rfl
  | list _ ih => exact arePrintable_exprs ih

theorem height_le_heights : ∀ {ds : List Datum} {d : Datum}, d ∈ ds →
    d.expr.height ≤ Expr.heights (exprs ds)
  | [], _, h => absurd h List.not_mem_nil
  | d :: ds, e, h => by
    rw [exprs, Expr.heights]
    obtain rfl | h := List.mem_cons.1 h
    · exact Nat.le_max_left _ _
    · exact (height_le_heights h).trans (Nat.le_max_right _ _)

theorem heights_le {n : Nat} : ∀ {ds : List Datum}, (∀ d ∈ ds, d.expr.height ≤ n) →
    Expr.heights (exprs ds) ≤ n
  | [], _ => Nat.zero_le n
  | d :: ds, h => by
    obtain ⟨hd, hds⟩ := List.forall_mem_cons.1 h
    rw [exprs, Expr.heights]
    exact Nat.max_le.2 ⟨hd, heights_le hds⟩

/-- An element is less high than its list. -/
theorem height_lt_of_mem {ds : List Datum} {d : Datum} (h : d ∈ ds) :
    d.expr.height < (Datum.list ds).expr.height := by
  rw [expr, Expr.height]
  exact Nat.lt_succ_of_le (height_le_heights h)

end Datum

namespace Store

variable {s : Store} {k : Nat} {v : Value} {d : Datum} {r : ListRef} {opened : List ListRef}

/-- Below the lists there are at most a range and the sign of a number. -/
theorem height_le_of_tree? (h : s.tree? k v = some d) : d.expr.height ≤ k + 2 := by
  induction h using tree?_induction with
  | leaf k v d hleaf =>
    cases d with
    | number x => exact (Number.height_expr_le x).trans (by omega)
    | range r =>
      have hstart := Number.height_expr_le r.start
      have hstop := Number.height_expr_le r.stop
      have hstep := Number.height_expr_le r.step
      rw [Datum.expr, Expr.height]
      omega
    | list items => exact (eq_of_leaf? hleaf).elim
    | string text | boolean b | none => exact Nat.zero_le _
  | list k r vs ds hvs hds =>
    rw [Datum.expr, Expr.height]
    refine Nat.succ_le_succ (Datum.heights_le fun d hd => ?_)
    obtain ⟨_, _, hle⟩ := exists_of_forall₂ hds d hd
    exact hle

/-! ## Displaying -/

/-- While data are displayed, the open lists are different ones and each holds more than is left to
display. -/
structure Opened (s : Store) (opened : List ListRef) (d : Datum) : Prop where
  nodup : opened.Nodup
  outer : ∀ r ∈ opened, ∃ k d', s.tree? k (.list r) = some d' ∧ d.expr.height < d'.expr.height

theorem index_lt_of_tree? (h : s.tree? k (.list r) = some d) : r.index < s.lists.size := by
  rcases tree?_cases h with hleaf | ⟨r', j, vs, ds, hr, -, hvs, -⟩
  · exact absurd hleaf nofun
  · obtain rfl := Value.list.inj hr
    exact (Array.getElem?_eq_some_iff.1 hvs).1

/-- A list that is next to display is not open yet: open ones hold more. -/
theorem Opened.not_mem (h : s.Opened opened d) (hr : s.tree? k (.list r) = some d) :
    r ∉ opened := by
  intro hmem
  obtain ⟨k', d', hr', hlt⟩ := h.outer r hmem
  rw [tree?_unique hr hr'] at hlt
  exact Nat.lt_irrefl _ hlt

/-- So there is one more list than are open. -/
theorem Opened.length_lt (h : s.Opened opened d) (hr : s.tree? k (.list r) = some d) :
    opened.length < s.lists.size := by
  have hnodup : (r :: opened).Nodup := List.nodup_cons.2 ⟨h.not_mem hr, h.nodup⟩
  refine length_le_size hnodup (List.forall_mem_cons.2 ⟨index_lt_of_tree? hr, fun r hmem => ?_⟩)
  obtain ⟨_, _, hr, -⟩ := h.outer r hmem
  exact index_lt_of_tree? hr

/-- The list is open while its elements are displayed. -/
theorem Opened.cons {ds : List Datum} (h : s.Opened opened (.list ds))
    (hr : s.tree? k (.list r) = some (.list ds)) (hd : d ∈ ds) : s.Opened (r :: opened) d where
  nodup := List.nodup_cons.2 ⟨h.not_mem hr, h.nodup⟩
  outer := by
    have hlt := Datum.height_lt_of_mem hd
    refine List.forall_mem_cons.2 ⟨⟨k, _, hr, hlt⟩, fun r hmem => ?_⟩
    obtain ⟨k', d', hr', hlt'⟩ := h.outer r hmem
    exact ⟨k', d', hr', hlt.trans hlt'⟩

theorem quote_displayAt_leaf (hd : d.Plain) (hv : s.leaf? v = some d) (depth : Nat)
    (opened : List ListRef) : s.quote (s.displayAt depth opened) v = d.expr.text := by
  cases hd with
  | @number x hx =>
    obtain rfl : v = .number x := eq_of_leaf? hv
    rw [quote, displayAt, Datum.expr, Number.text_expr hx]
    exact nofun
  | string _ =>
    obtain ⟨r, rfl, hr⟩ := eq_of_leaf? hv
    rw [quote, string_of_getElem? hr]
    rfl
  | boolean b =>
    obtain rfl : v = .boolean b := eq_of_leaf? hv
    rw [quote, displayAt, Datum.expr, Expr.text]
    exact nofun
  | @range r _ hr =>
    obtain rfl : v = .range r := eq_of_leaf? hv
    obtain ⟨hstart, hstop, hstep, -⟩ := Range.isSound_of_make hr
    rw [quote, displayAt, Datum.expr, Expr.text, Number.text_expr hstart, Number.text_expr hstop,
      Number.text_expr hstep, Range.text]
    exact nofun
  | none =>
    obtain rfl : v = .none := eq_of_leaf? hv
    rw [quote, displayAt]
    · rfl
    · exact nofun
  | list _ => exact (eq_of_leaf? hv).elim

/-- **Displaying data writes their expression.** -/
theorem quote_displayAt (hd : d.Plain) (hv : s.tree? k v = some d) (hopened : s.Opened opened d)
    {depth : Nat} (hdepth : s.lists.size < depth + opened.length) :
    s.quote (s.displayAt depth opened) v = d.expr.text := by
  induction hv using tree?_induction generalizing depth opened with
  | leaf k v d hleaf => exact quote_displayAt_leaf hd hleaf depth opened
  | list k r vs ds hvs hds hr =>
    have hlength := hopened.length_lt hr
    obtain ⟨depth, rfl⟩ : ∃ j, depth = j + 1 := ⟨depth - 1, by omega⟩
    have hinner : ∀ d ∈ ds, d.Plain ∧ s.Opened (r :: opened) d := fun d hmem =>
      ⟨hd.items d hmem, hopened.cons hr hmem⟩
    have hitems : List.Forall₂
        (fun v d => s.quote (s.displayAt depth (r :: opened)) v = d.expr.text) vs ds := by
      refine ((List.forall₂_and_left _ _).2 ⟨hinner, hds.flip⟩).flip.imp ?_
      rintro v d ⟨⟨hplain, hopened⟩, _, htext⟩
      refine htext hplain hopened ?_
      rw [List.length_cons]
      omega
    have htexts : vs.map (s.quote (s.displayAt depth (r :: opened)))
        = Expr.texts (Datum.exprs ds) := by
      rwa [Datum.texts_exprs, ← List.forall₂_eq_eq_eq, List.forall₂_map_left_iff,
        List.forall₂_map_right_iff]
    have hclosed : ¬ opened.contains r = true := by
      simpa using hopened.not_mem hr
    rw [quote, displayAt, if_neg hclosed, list_of_getElem? hvs, htexts]
    · rfl
    · exact nofun

end Store

/-! ## Evaluating -/

namespace Datum

/-- The expression of the data evaluates to them, in new cells. -/
def Evaluates (call : Caller) (d : Datum) : Prop := ∀ m : Machine, ∃ w t,
  d.expr.eval call m = .ok w { m with store := t } ∧ m.store.Extends t
    ∧ ∀ k, d.expr.height ≤ k → t.tree? k w = some d.shown

variable {call : Caller} {d : Datum}

theorem evalAll_exprs : ∀ {ds : List Datum}, (∀ d ∈ ds, d.Evaluates call) → ∀ m : Machine, ∃ ws t,
    Expr.evalAll call (exprs ds) m = .ok ws { m with store := t } ∧ m.store.Extends t
      ∧ ∀ k, Expr.heights (exprs ds) ≤ k →
        List.Forall₂ (fun w d => t.tree? k w = some d.shown) ws ds
  | [], _, m => ⟨[], m.store, rfl, .refl _, fun _ _ => .nil⟩
  | d :: ds, h, m => by
    obtain ⟨hd, hds⟩ := List.forall_mem_cons.1 h
    obtain ⟨w, t, hw, ht, htree⟩ := hd m
    obtain ⟨ws, u, hws, hu, htrees⟩ := evalAll_exprs hds { m with store := t }
    refine ⟨w :: ws, u, ?_, ht.trans hu, fun k hk => ?_⟩
    · rw [exprs, Expr.evalAll, Exec.bind_of_ok hw, Exec.bind_of_ok hws]
      rfl
    · rw [exprs, Expr.heights] at hk
      exact .cons (hu.tree? (htree k ((Nat.le_max_left _ _).trans hk)))
        (htrees k ((Nat.le_max_right _ _).trans hk))

/-- **The expression of the data evaluates to them**, up to the sign of zeros. -/
theorem eval_expr (call : Caller) (hd : d.Plain) : d.Evaluates call := by
  induction hd with
  | @number x hx =>
    exact fun m => ⟨_, m.store, Number.eval_expr hx call m, .refl _, fun k _ =>
      Store.tree?_of_leaf? rfl k⟩
  | @string text _ =>
    intro m
    refine ⟨_, (m.store.newString text).2, rfl, m.store.extends_newString text, fun k _ => ?_⟩
    exact Store.tree?_of_leaf? (by simp [Store.leaf?, Store.newString, shown]) k
  | boolean b => exact fun m => ⟨_, m.store, rfl, .refl _, fun k _ => Store.tree?_of_leaf? rfl k⟩
  | @range r step hr =>
    intro m
    have hsound := Range.isSound_of_make hr
    refine ⟨.range r.shown, m.store, ?_, .refl _, fun k _ => Store.tree?_of_leaf? rfl k⟩
    have hmake : Range.make (Number.shown r.start) (Number.shown r.stop)
        (some (Number.shown r.step)) = .ok r.shown :=
      hsound.shown.make
    have hstart : Exec.bound .start (.number (Number.shown r.start)) m = .ok _ m := rfl
    have hstop : Exec.bound .stop (.number (Number.shown r.stop)) m = .ok _ m := rfl
    have hstep : Exec.bound .step (.number (Number.shown r.step)) m = .ok _ m := rfl
    rw [expr, Expr.eval, Exec.bind_of_ok (Number.eval_expr hsound.start_finite call m),
      Exec.bind_of_ok hstart, Exec.bind_of_ok (Number.eval_expr hsound.stop_finite call m),
      Exec.bind_of_ok hstop, Exec.bind_of_ok (Number.eval_expr hsound.step_finite call m),
      Exec.bind_of_ok hstep, Exec.makeRange, hmake]
    rfl
  | none => exact fun m => ⟨_, m.store, rfl, .refl _, fun k _ => Store.tree?_of_leaf? rfl k⟩
  | @list items _ ih =>
    intro m
    obtain ⟨ws, t, hws, ht, htrees⟩ := evalAll_exprs ih m
    have hgrown := t.extends_newList ws
    refine ⟨.list ⟨t.lists.size⟩, (t.newList ws).2, ?_, ht.trans hgrown, fun k hk => ?_⟩
    · rw [expr, Expr.eval, Exec.bind_of_ok hws]
      rfl
    · rw [expr, Expr.height] at hk
      obtain ⟨k, rfl⟩ : ∃ j, k = j + 1 := ⟨k - 1, by omega⟩
      have hitems := (htrees k (by omega)).imp fun _ _ => hgrown.tree?
      rw [shown, shownAll_eq_map]
      refine Store.tree?_list ?_ (List.forall₂_map_right_iff.2 hitems)
      exact Array.getElem?_push_size

end Datum

variable {s : Store} {r : ListRef} {d : Datum} {depth : Nat}

/-- **The display of a list is source text for an equal list.** Let the list be a tree of plain data
that nests at most 125 deep, and let the magnitudes in it be read back from their texts. Then its
display is read as an expression, and on any machine this evaluates to a list, changes no cell, no
scope and nothing else, and the new list is equal to every value that stands for the same data. -/
theorem parseExpr_display (htree : s.tree? depth (.list r) = some d) (hdepth : depth ≤ 125)
    (hplain : d.Plain) (hnumbers : ∀ x ∈ d.expr.numbers, Number.ReadsBack x) :
    parseExpr (s.display (.list r)) = .ok d.expr
      ∧ ∀ (host : Host) (m : Machine), ∃ w n, d.expr.run host m = .ok (.list w) n ∧ m.Grows n
        ∧ ∀ k v, m.store.tree? k v = some d → n.store.equal v (.list w) = true := by
  constructor
  · have hopened : s.Opened [] d := ⟨List.nodup_nil, List.forall_mem_nil _⟩
    have hdisplay : s.display (.list r) = d.expr.text :=
      Store.quote_displayAt hplain htree hopened (Nat.lt_succ_self _)
    have hprintable := Datum.isPrintable_expr hplain
    have hheight := Store.height_le_of_tree? htree
    have hlex : Lexed d.expr.text.toList d.expr.tokens := by
      simpa using (d.expr.spelt hprintable hnumbers).apart rfl lexed_nil
    rw [hdisplay]
    refine Parser.parseExpr_of_lexed hlex ((Grammar.phrase d.expr hprintable).expression ?_)
    rw [maxDepth]
    omega
  · intro host m
    obtain ⟨-, -, -, ds, -, -, -, -, rfl⟩ := (Store.tree?_cases htree).resolve_left nofun
    obtain ⟨w, t, hw, ht, hshown⟩ := Datum.eval_expr (host.caller m) hplain m
    have hnew := hshown _ (Nat.le_refl _)
    rcases Store.tree?_cases hnew with hleaf | ⟨w, -, -, -, rfl, -⟩
    · exact (Store.eq_of_leaf? hleaf).elim
    refine ⟨w, { m with store := t }, hw, ⟨rfl, ht⟩, fun k v hv => ?_⟩
    exact Store.equalAt_shown hplain (ht.tree? hv) hnew _ _

/-- A list that holds another one twice, with a range that runs down from a negative zero. -/
def sampleStore : Store :=
  ⟨#["a b"], #[[.number (-1.5), .string ⟨0⟩, .list ⟨1⟩, .list ⟨1⟩],
    [.boolean true, .none, .range ⟨-0.0, -2, -0.5⟩]], #[]⟩

def sampleItems : Datum := .list [.boolean true, .none, .range ⟨-0.0, -2, -0.5⟩]

def sampleDatum : Datum := .list [.number (-1.5), .string "a b", sampleItems, sampleItems]

theorem plain_sampleDatum : sampleDatum.Plain := by
  have hitems : sampleItems.Plain := by
    refine .list (List.forall_mem_cons.2 ⟨.boolean true, List.forall_mem_cons.2 ⟨.none, ?_⟩⟩)
    exact List.forall_mem_singleton.2 (@Datum.Plain.range _ (some (-0.5)) rfl)
  refine .list (List.forall_mem_cons.2 ⟨.number (by decide +kernel), ?_⟩)
  refine List.forall_mem_cons.2 ⟨.string (by decide +kernel), ?_⟩
  exact List.forall_mem_cons.2 ⟨hitems, List.forall_mem_singleton.2 hitems⟩

theorem parseExpr_display_sampleStore :
    sampleStore.tree? 2 (.list ⟨0⟩) = some sampleDatum
      ∧ sampleStore.display (.list ⟨0⟩)
        = "[-1.5, 'a b', [true, none, 0..-2..-0.5], [true, none, 0..-2..-0.5]]"
      ∧ parseExpr (sampleStore.display (.list ⟨0⟩)) = .ok sampleDatum.expr
      ∧ ∀ (host : Host) (m : Machine), m.store = sampleStore → ∃ w n,
        sampleDatum.expr.run host m = .ok (.list w) n ∧ m.Grows n
          ∧ n.store.equal (.list ⟨0⟩) (.list w) = true := by
  have htree : sampleStore.tree? 2 (.list ⟨0⟩) = some sampleDatum := rfl
  obtain ⟨hparse, hrun⟩ := parseExpr_display htree (by decide) plain_sampleDatum (by decide +kernel)
  refine ⟨htree, by decide +kernel, hparse, fun host m hm => ?_⟩
  obtain ⟨w, n, hw, hgrows, hequal⟩ := hrun host m
  exact ⟨w, n, hw, hgrows, hequal 2 _ (hm ▸ htree)⟩

end CommandScript
