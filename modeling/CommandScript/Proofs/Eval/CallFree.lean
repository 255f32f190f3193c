import CommandScript.Proofs.Eval.Tracked
import CommandScript.Proofs.Value.Member
import CommandScript.Session

/-!
# Proofs/Eval/CallFree — expressions without calls have no side effects

An expression that calls no function, and of the members only those that read, puts new strings and
lists into the store and does nothing else. `Exec.Quiet` says so of a computation, whether it ends
with a value or an error; sequences inherit it, and the operations of the store that evaluation uses
have it, since they copy what they build on.
-/

namespace CommandScript

mutual
/-- No function is called, and of the members only those that change nothing. -/
def Expr.isCallFree : Expr → Bool
  | .number _ | .string _ | .template _ | .boolean _ | .none | .var _ => true
  | .list items => Expr.allCallFree items
  | .range start stop .none => start.isCallFree && stop.isCallFree
  | .range start stop (.some step) => start.isCallFree && stop.isCallFree && step.isCallFree
  | .binary _ left right => left.isCallFree && right.isCallFree
  | .unary _ operand => operand.isCallFree
  | .call _ _ => false
  | .member receiver name args =>
    ["len", "contains", "trim"].contains name && receiver.isCallFree && Expr.allCallFree args
  | .index target place => target.isCallFree && place.isCallFree

/-- The same of all expressions. -/
def Expr.allCallFree : List Expr → Bool
  | [] => true
  | e :: es => e.isCallFree && Expr.allCallFree es
end

/-- The store may have grown, and nothing else has changed. -/
structure Machine.Grows (m n : Machine) : Prop where
  same : n = { m with store := n.store }
  store : m.store.Extends n.store

variable {m n o : Machine}

theorem Machine.Grows.refl (m : Machine) : m.Grows m := ⟨rfl, .refl m.store⟩

theorem Machine.Grows.trans (h : m.Grows n) (h' : n.Grows o) : m.Grows o where
  same := h'.same.trans (congrArg (fun k : Machine => { k with store := o.store }) h.same)
  store := h.store.trans h'.store

namespace Exec

/-- A computation that adds to the store and does nothing else, also if it fails. -/
def Quiet {α : Type} (x : Exec α) : Prop := ∀ m : Machine, m.Grows (endOf (x m))

namespace Quiet

variable {α β : Type}

theorem pure (a : α) : Quiet (Pure.pure a) := Machine.Grows.refl

theorem bind {x : Exec α} {f : α → Exec β} (hx : Quiet x) (hf : ∀ a, Quiet (f a)) :
    Quiet (x >>= f) := by
  intro m
  obtain ⟨a, n, hxm, heq⟩ | heq := endOf_bind x f m
  · have hfirst := hx m
    rw [hxm] at hfirst
    rw [heq]
    exact hfirst.trans (hf a n)
  · rw [heq]
    exact hx m

theorem look (f : Machine → Except Error α) : Quiet (look f) := by
  intro m
  unfold Exec.look
  cases f m <;> exact .refl m

theorem onStore {f : Store → Except Error (α × Store)}
    (hf : ∀ s a t, f s = .ok (a, t) → s.Extends t) : Quiet (onStore f) := by
  intro m
  unfold Exec.onStore
  cases h : f m.store with
  | error e => exact .refl m
  | ok found => exact ⟨rfl, hf _ found.1 found.2 h⟩

theorem allocate {f : Store → Value × Store} (hf : ∀ s : Store, s.Extends (f s).2) :
    Quiet (allocate f) :=
  fun m => ⟨rfl, hf m.store⟩

/-- What is computed is put into the store as something new. -/
theorem compute (f : Store → Except Error Fresh) : Quiet (compute f) :=
  bind (look _) fun result => allocate fun s => s.extends_place result

theorem makeRange (a b : Float) (c : Option Float) : Quiet (makeRange a b c) := by
  unfold Exec.makeRange
  cases Range.make a b c <;> exact Machine.Grows.refl

theorem fill : ∀ parts : List Part, Quiet (Part.fill insertionOf parts)
  | [] => pure ""
  | .literal _ :: parts => bind (fill parts) fun _ => pure _
  | .hole _ :: parts =>
    bind (bind (look _) fun _ => look _) fun _ => bind (fill parts) fun _ => pure _

/-- Of the members, these change nothing. -/
theorem callMember {name : String} (hname : ["len", "contains", "trim"].contains name = true)
    (v : Value) (args : List Value) : Quiet (Exec.onStore fun s => s.callMember v name args) := by
  refine onStore fun s w t h => (Store.changesOnly_callMember h).2 ?_
  simp only [List.contains_eq_mem, decide_eq_true_eq, List.mem_cons, List.not_mem_nil, or_false]
    at hname
  obtain rfl | rfl | rfl := hname <;> decide

variable {call : Caller}

mutual
/-- **Expressions without calls only add to the store.** -/
theorem eval : ∀ e : Expr, e.isCallFree = true → Quiet (e.eval call)
  | .number _, _ => pure _
  | .string s, _ => allocate fun store => store.extends_newString s
  | .template parts, _ => bind (fill parts) fun text => allocate fun s => s.extends_newString text
  | .boolean _, _ => pure _
  | .none, _ => pure _
  | .var _, _ => look _
  | .list items, h =>
    bind (evalAll items h) fun values => allocate fun s => s.extends_newList values
  | .range start stop .none, h => by
    obtain ⟨hstart, hstop⟩ := Bool.and_eq_true_iff.1 h
    exact bind (eval start hstart) fun _ => bind (look _) fun _ => bind (eval stop hstop) fun _ =>
      bind (look _) fun _ => makeRange _ _ _
  | .range start stop (.some step), h => by
    obtain ⟨hboth, hstep⟩ := Bool.and_eq_true_iff.1 h
    obtain ⟨hstart, hstop⟩ := Bool.and_eq_true_iff.1 hboth
    exact bind (eval start hstart) fun _ => bind (look _) fun _ => bind (eval stop hstop) fun _ =>
      bind (look _) fun _ => bind (eval step hstep) fun _ => bind (look _) fun _ => makeRange _ _ _
  | .binary op left right, h => by
    obtain ⟨hleft, hright⟩ := Bool.and_eq_true_iff.1 h
    have hquiet := eval right hright
    refine bind (eval left hleft) fun a => ?_
    cases op
    case and =>
      refine bind (look _) fun b => ?_
      cases b
      · exact pure a
      · exact hquiet
    case or =>
      refine bind (look _) fun b => ?_
      cases b
      · exact hquiet
      · exact pure a
    all_goals exact bind hquiet fun b => compute _
  | .unary _ operand, h => bind (eval operand h) fun _ => look _
  | .call _ _, h => absurd h Bool.false_ne_true
  | .member receiver name args, h => by
    obtain ⟨hboth, hargs⟩ := Bool.and_eq_true_iff.1 h
    obtain ⟨hname, hreceiver⟩ := Bool.and_eq_true_iff.1 hboth
    exact bind (eval receiver hreceiver) fun v => bind (evalAll args hargs) fun values =>
      callMember hname v values
  | .index target place, h => by
    obtain ⟨htarget, hplace⟩ := Bool.and_eq_true_iff.1 h
    exact bind (eval target htarget) fun _ => bind (eval place hplace) fun _ => compute _

theorem evalAll : ∀ es : List Expr, Expr.allCallFree es = true → Quiet (Expr.evalAll call es)
  | [], _ => pure []
  | e :: es, h => by
    obtain ⟨he, hes⟩ := Bool.and_eq_true_iff.1 h
    exact bind (eval e he) fun _ => bind (evalAll es hes) fun _ => pure _
end

end Quiet

end Exec

/-- **Expressions without calls have no side effects**, whether they have a value or fail. -/
theorem Expr.grows_run (host : Host) {e : Expr} (h : e.isCallFree = true) (m : Machine) :
    m.Grows (m.after (e.run host)) := by
  rw [Machine.after_eq]
  exact Exec.Quiet.eval e h m

/-- Two lists are put together and asked for an element at a place that is none: the run fails, and
leaves the three lists behind. -/
theorem Expr.grows_run_failing :
    let host : Host := ⟨.missing, [], 2⟩
    let m := Machine.start host
    let trimmed : Expr := .member (.string " b ") "trim" []
    let e : Expr := .index (.binary .add (.list [.string "a"]) (.list [trimmed])) (.boolean true)
    m.Grows (m.after (e.run host))
      ∧ (m.after (e.run host)).store.lists.size = m.store.lists.size + 3 := by
  intro host m trimmed e
  have hfree : e.isCallFree = true := by decide
  exact ⟨Expr.grows_run host hfree m, by decide +kernel⟩

end CommandScript
