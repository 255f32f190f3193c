import CommandScript.Eval.Expr

/-!
# Eval/Stmt — running statements

A block runs in a scope of its own, and so does every round of a loop. A loop over a list looks at the
list anew in every round, but runs no more rounds than the list had elements at first; a loop over a
string goes over the characters it had. A loop over a range runs a round for each of its values. Over a
range without an end it would never stop; that it is given up here when the indices are used up only
makes running a statement a function, and nothing is said of such loops. `Stmt.exec` recurses on the
statement; `callAt` ties the knot through functions, on the number of calls that may still be opened.
-/

namespace CommandScript

namespace Command

/-- The command line with the texts of its names. -/
def render (c : Command) : Exec String := do
  let words ← c.words.mapM (Part.fill Exec.insertionOf)
  return " ".intercalate words

/-- The other reading of the line, where its leading name is a variable. -/
def boundReading? (c : Command) : Exec (Option Expr) := Exec.look fun m =>
  .ok ((c.reading.filter fun r => m.scopes.isDefined m.current r.name).map (·.expression))

/-- Run the command and take its output as a string. -/
def capture (host : Host) (c : Command) : Exec Value := do
  let line ← c.render
  match (← Exec.launch host.launcher line).capture line with
  | .ok text => Exec.allocate fun store => store.newString text
  | .error e => throw e

/-- Run the command and pass its output on. -/
def stream (host : Host) (c : Command) : Exec Value := do
  let line ← c.render
  let (bytes, result) := (← Exec.launch host.launcher line).stream line
  Exec.write bytes
  match result with
  | .ok () => return .none
  | .error e => throw e

end Command

/-- The value of an action; a command gives its output. -/
def Action.eval (host : Host) (call : Caller) : Action → Exec Value
  | .expression e => e.eval call
  | .command c => do
    match ← c.boundReading? with
    | some e => e.eval call
    | none => c.capture host

/-- Perform an action as a statement; a command writes its output and gives `none`. -/
def Action.perform (host : Host) (call : Caller) : Action → Exec Value
  | .expression e => e.eval call
  | .command c => do
    match ← c.boundReading? with
    | some e => e.eval call
    | none => c.stream host

namespace Exec

/-- A loop over the values of a range from an index on, at most `n` rounds. -/
def loopRange (body : Value → Exec Flow) (r : Range) : (n : Nat) → (i : UInt64) → Exec Flow
  | 0, _ => pure .normal
  | n + 1, i => do
    match r.value? i with
    | none => pure .normal
    | some x =>
      match ← body (.number x) with
      | .normal => loopRange body r n (i + 1)
      | .returned v => pure (.returned v)

/-- A loop over the elements of a list from an index on, at most `n` rounds. -/
def loopList (body : Value → Exec Flow) (r : ListRef) : (n i : Nat) → Exec Flow
  | 0, _ => pure .normal
  | n + 1, i => do
    match ((← get).store.list r)[i]? with
    | none => pure .normal
    | some item =>
      match ← body item with
      | .normal => loopList body r n (i + 1)
      | .returned v => pure (.returned v)

/-- A loop over characters, each as a new string. -/
def loopChars (body : Value → Exec Flow) : List Char → Exec Flow
  | [] => pure .normal
  | c :: cs => do
    match ← body (← allocate fun store => store.newChar c) with
    | .normal => loopChars body cs
    | .returned v => pure (.returned v)

/-- A loop over the items of a value. -/
def loop (body : Value → Exec Flow) (items : Value) : Exec Flow := do
  match items with
  | .range r => loopRange body r UInt64.size 0
  | .list r => loopList body r ((← get).store.list r).length 0
  | .string r => loopChars body ((← get).store.string r).toList
  | v => throw (.type (.notIterable v.kind))

end Exec

mutual
/-- Run a statement. -/
def Stmt.exec (host : Host) (call : Caller) : Stmt → Exec Flow
  | .assign name value => do
    let v ← value.eval host call
    Exec.assign name v
    return .normal
  | .assignAt target place value => do
    let t ← target.eval call
    let i ← place.eval call
    let v ← value.eval host call
    Exec.onStore fun store => (store.setElement t i v).map fun store => ((), store)
    return .normal
  | .perform action => do
    let _ ← action.perform host call
    return .normal
  | .choose test body rest => do
    if ← Exec.isTruthy (← test.eval call) then Exec.inChild (Stmt.execAll host call body)
    else rest.exec host call
  | .forEach name items body => do
    let v ← items.eval call
    Exec.loop (fun item => Exec.inChild do
      Exec.define name item
      Stmt.execAll host call body) v
  | .function name params body => do
    let e := (← get).current
    let f ← Exec.allocate fun store => store.newFunction ⟨name, params, body, e⟩
    Exec.define name f
    return .normal
  | .giveBack .none => return .returned .none
  | .giveBack (.some value) => return .returned (← value.eval host call)
  | .block body => Exec.inChild (Stmt.execAll host call body)

/-- Run what follows the block of a conditional whose test failed. -/
def Otherwise.exec (host : Host) (call : Caller) : Otherwise → Exec Flow
  | .nothing => return .normal
  | .orElse body => Exec.inChild (Stmt.execAll host call body)
  | .orIf test body rest => do
    if ← Exec.isTruthy (← test.eval call) then Exec.inChild (Stmt.execAll host call body)
    else rest.exec host call

/-- Run statements up to the first that returns. -/
def Stmt.execAll (host : Host) (call : Caller) : List Stmt → Exec Flow
  | [] => return .normal
  | s :: ss => do
    match ← s.exec host call with
    | .normal => Stmt.execAll host call ss
    | .returned v => return .returned v
end

/-- The function of a handle, if it takes as many arguments as are given. -/
def Exec.closure (f : FunctionRef) (args : List Value) : Exec Closure := Exec.look fun m =>
  match m.store.function? f with
  | none => .error (.type (.notCallable .function))
  | some c =>
    if args.length ≠ c.params.length then .error (.arity c.name c.params.length args.length)
    else .ok c

/-- Call a function, where the given number of calls may still be opened. -/
def callAt (host : Host) : (levels : Nat) → Caller
  | 0, f, args => do
    let _ ← Exec.closure f args
    throw (.callDepth host.maxCallDepth)
  | levels + 1, f, args => do
    let c ← Exec.closure f args
    let e ← Exec.newScope c.scope
    Exec.defineAll e (c.params.zip args)
    match ← Exec.inCall (Exec.inScope e (Stmt.execAll host (callAt host levels) c.body)) with
    | .normal => return .none
    | .returned v => return v

/-- Calls from the machine's present depth on. -/
def Host.caller (host : Host) (m : Machine) : Caller := callAt host (host.maxCallDepth - m.callDepth)

end CommandScript
