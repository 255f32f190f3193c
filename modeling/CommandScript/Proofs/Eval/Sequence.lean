import CommandScript.Proofs.Eval.Session

/-!
# Proofs/Eval/Sequence — a script and a session agree

A program can be run as a whole or in two parts, one after the other. What is carried from statement
to statement inside a program is the machine and the last value. The last value counts only where no
statement follows; the machine is handed on in the outermost scope, to which every statement comes
back (`Program.steady_runFrom`). So the second part cannot tell whether it is run on its own, unless
a `return` in the first part keeps it from being run at all (`Program.run_append`).
-/

namespace CommandScript

/-! ## Statements at the top of a program -/

theorem Stmt.steady_run (host : Host) (s : Stmt) : Exec.Steady (s.run host) := by
  intro m
  rw [← Stmt.erase_trackRun]
  exact (Stmt.keeps_trackRun host (Nat.le_refl _) s).restores m rfl

theorem Action.steady_run (host : Host) (a : Action) : Exec.Steady (a.run host) := by
  intro m
  rw [← Action.erase_trackRun]
  exact (Action.keeps_trackRun host (Nat.le_refl _) a).restores m rfl

/-- An action as a statement ends normally if it ends with a value. -/
theorem Stmt.run_perform (host : Host) (a : Action) :
    (Stmt.perform a).run host = do let _ ← a.run host; return .normal := rfl

namespace Program

/-- Whether a `return` at the top of the program is met if its statements are run from the machine
on, each where the one before it ended. -/
def returnsFrom (host : Host) : Program → Machine → Bool
  | [], _ => false
  | s :: rest, m =>
    match s.run host m with
    | .ok (.returned _) _ => true
    | .ok .normal n => returnsFrom host rest n
    | .error _ _ => false

/-- Whether a `return` at the top of the program is met if it is run on the machine. -/
def returns (host : Host) (p : Program) (m : Machine) : Bool :=
  p.returnsFrom host { m with current := m.root }

variable {host : Host} {p : Program} {m : Machine}

theorem run_eq (host : Host) (p : Program) (m : Machine) :
    p.run host m = p.runFrom host none { m with current := m.root } := rfl

/-- The value before a statement is forgotten. -/
theorem runFrom_eq_of_ne_nil (hp : p ≠ []) (last last' : Option Value) :
    p.runFrom host last = p.runFrom host last' := by
  cases p with
  | nil => exact absurd rfl hp
  | cons s rest => cases s <;> rfl

/-- **A program comes back to the scope it starts in**, whether it fails or not. -/
theorem steady_runFrom (host : Host) (p : Program) (last : Option Value) :
    Exec.Steady (p.runFrom host last) := by
  induction p, last using Program.runFrom.induct with
  | case1 last => exact .pure last
  | case2 last action rest ih => exact (Action.steady_run host action).bind ih
  | case3 last s rest hs ih =>
    rw [Program.runFrom.eq_3 host last s rest hs]
    refine (Stmt.steady_run host s).bind fun flow => ?_
    cases flow with
    | normal => exact ih
    | returned v => exact .pure _

/-- What follows a program goes on with its last value on the machine it leaves, unless the program
fails or a `return` ends it. -/
theorem runFrom_append (host : Host) (p q : Program) (last : Option Value) (m : Machine) :
    (p ++ q).runFrom host last m =
      match p.runFrom host last m with
      | .ok v n => if p.returnsFrom host m then .ok v n else q.runFrom host v n
      | .error e n => .error e n := by
  induction p, last using Program.runFrom.induct generalizing m with
  | case1 last => rfl
  | case2 last action rest ih =>
    cases haction : action.run host m with
    | ok v n =>
      have hflow : (Stmt.perform action).run host m = .ok .normal n := by
        rw [Stmt.run_perform, Exec.bind_of_ok haction]
        rfl
      rw [List.cons_append, runFrom, runFrom, Exec.bind_of_ok haction, Exec.bind_of_ok haction,
        returnsFrom, hflow]
      exact ih v n
    | error e n =>
      rw [List.cons_append, runFrom, runFrom, Exec.bind_of_error haction,
        Exec.bind_of_error haction]
  | case3 last s rest hs ih =>
    rw [List.cons_append, Program.runFrom.eq_3 host last s (rest ++ q) hs,
      Program.runFrom.eq_3 host last s rest hs, returnsFrom]
    cases hstmt : s.run host m with
    | ok flow n =>
      rw [Exec.bind_of_ok hstmt, Exec.bind_of_ok hstmt]
      cases flow with
      | normal => exact ih n
      | returned v => rfl
    | error e n => rw [Exec.bind_of_error hstmt, Exec.bind_of_error hstmt]

/-- A program leaves the machine where the next one starts. -/
theorem current_of_run {v : Option Value} {n : Machine} (h : p.run host m = .ok v n) :
    { n with current := n.root } = n := by
  have hrestores := steady_runFrom host p none { m with current := m.root }
  rw [← run_eq, h] at hrestores
  have hcurrent : n.current = n.root := hrestores.current.trans hrestores.root.symm
  exact congrArg (fun e => { n with current := e }) hcurrent.symm

/-- **A script and a session agree.** Whatever machine two programs are run on as one: if the first
fails, the whole fails with its error where it failed. If the first ends and meets no `return`, the
whole leaves the machine that the second one leaves when it is run behind the first, failed or not,
and also ends as the second one does, unless that has no statement. If the first meets a `return`,
the whole ends there. -/
theorem run_append (host : Host) (p q : Program) (m : Machine) :
    (∀ e n, p.run host m = .error e n → (p ++ q).run host m = .error e n)
      ∧ (∀ v n, p.run host m = .ok v n → p.returns host m = false →
        m.after ((p ++ q).run host) = n.after (q.run host)
          ∧ (q ≠ [] → (p ++ q).run host m = q.run host n))
      ∧ ∀ v n, p.run host m = .ok v n → p.returns host m = true →
        (p ++ q).run host m = .ok v n := by
  have happend := runFrom_append host p q none { m with current := m.root }
  rw [← run_eq, ← run_eq] at happend
  refine ⟨fun e n hp => ?_, fun v n hp hreturns => ?_, fun v n hp hreturns => ?_⟩
  · rw [happend, hp]
  · have hwhole : (p ++ q).run host m = q.runFrom host v n := by
      rw [happend, hp]
      exact if_neg (Bool.eq_false_iff.1 hreturns)
    have hsecond : q.run host n = q.runFrom host none n := by
      rw [run_eq, current_of_run hp]
    rw [Machine.after_eq, Machine.after_eq, hwhole, hsecond]
    by_cases hq : q = []
    · subst hq
      exact ⟨rfl, fun hne => absurd rfl hne⟩
    · rw [runFrom_eq_of_ne_nil hq v none]
      exact ⟨rfl, fun _ => rfl⟩
  · rw [happend, hp]
    exact if_pos hreturns

/-- A function that looks at its argument before it gives it back, and a call of it. -/
def definitions : Program :=
  [.function "same" ["x"] [.choose (.var "x") [.giveBack (some (.expression (.var "x")))] .nothing],
    .assign "y" (.expression (.call (.var "same") [.boolean true]))]

/-- The `return` inside the function is none of the program, so the two statements can be run before
the third, which looks up the variable they bind, or together with it. -/
theorem run_append_definitions :
    let host : Host := ⟨.missing, [], 2⟩
    let m := Machine.start host
    let use : Program := [.perform (.expression (.var "y"))]
    definitions.returns host m = false
      ∧ (definitions ++ use).run host m = use.run host (m.after (definitions.run host)) := by
  intro host m use
  have hreturns : definitions.returns host m = false := by decide +kernel
  refine ⟨hreturns, ?_⟩
  cases hrun : definitions.run host m with
  | ok v n =>
    rw [Machine.after_eq, hrun]
    exact ((run_append host definitions use m).2.1 v n hrun hreturns).2 (List.cons_ne_nil _ _)
  | error e n =>
    have hok : (match definitions.run host m with | .ok _ _ => true | .error _ _ => false) = true :=
      by decide +kernel
    rw [hrun] at hok
    exact absurd hok Bool.false_ne_true

end Program

end CommandScript
