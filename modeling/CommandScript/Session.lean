import CommandScript.Eval.Stmt
import CommandScript.Parser.Stmt

/-!
# Session — running programs one after the other

A machine starts with one scope that binds `argv`. Programs, statements, expressions and calls run on it
in turn, and what one of them binds the next one finds. A failed step leaves what it did before failing.
-/

namespace CommandScript

/-- How many calls may be open unless the host says otherwise. -/
def defaultCallDepth : Nat := 256

namespace Exec

/-- New strings with the given texts. -/
def newStrings : List String → Exec (List Value)
  | [] => pure []
  | s :: ss => do
    let v ← allocate fun store => store.newString s
    let vs ← newStrings ss
    return v :: vs

/-- Start over with a new outermost scope, which binds only the arguments of the script. -/
def reset (host : Host) : Exec Unit := do
  modify fun m =>
    let (root, scopes) := m.scopes.newRoot
    { m with scopes := scopes, root := root, current := root, callDepth := 0 }
  let args ← newStrings host.argv
  define "argv" (← allocate fun store => store.newList args)

/-- Write text. -/
def print (text : String) : Exec Unit := write text.toUTF8

/-- Write a line of text. -/
def printLine (text : String) : Exec Unit := print (text ++ "\n")

/-- The text of a value. -/
def display (v : Value) : Exec String := look fun m => .ok (m.store.display v)

end Exec

namespace Machine

/-- A machine with nothing on it. -/
def empty : Machine := ⟨Store.empty, Scopes.empty, ⟨0⟩, ⟨0⟩, 0, ByteArray.empty, []⟩

/-- The state after a computation, whether it failed or not. -/
def after {α : Type} (m : Machine) (x : Exec α) : Machine :=
  match x m with
  | .ok _ m => m
  | .error _ m => m

/-- A machine on which nothing has run yet. -/
def start (host : Host) : Machine := empty.after (Exec.reset host)

/-- The names of the outermost scope with their values. -/
def bindings (m : Machine) : Bindings := m.scopes.all m.root

/-- The value of a name in the outermost scope. -/
def get? (m : Machine) (name : String) : Option Value := m.scopes.get? m.root name

/-- Bind a name in the outermost scope. -/
def define (m : Machine) (name : String) (v : Value) : Machine :=
  { m with scopes := m.scopes.define m.root name v }

end Machine

/-- Evaluate an expression. -/
def Expr.run (host : Host) (e : Expr) : Exec Value := fun m => e.eval (host.caller m) m

/-- Run a statement. -/
def Stmt.run (host : Host) (s : Stmt) : Exec Flow := fun m => s.exec host (host.caller m) m

/-- Perform an action as a statement. -/
def Action.run (host : Host) (a : Action) : Exec Value := fun m => a.perform host (host.caller m) m

/-- Call a function. -/
def Exec.call (host : Host) (f : FunctionRef) (args : List Value) : Exec Value := fun m =>
  host.caller m f args m

/-- Call the function that a name means in the outermost scope. -/
def Machine.callByName (m : Machine) (host : Host) (name : String) (args : List Value) : Exec Value :=
  match m.scopes.lookup m.root name with
  | .error e => throw e
  | .ok (.function f) => Exec.call host f args
  | .ok v => throw (.type (.notCallable v.kind))

/-- Run statements to the end or to the first that returns. The value is that of the last statement if it
is an action, and `last` if there is no statement. -/
def Program.runFrom (host : Host) : Program → (last : Option Value) → Exec (Option Value)
  | [], last => pure last
  | .perform action :: rest, _ => do
    let v ← action.run host
    Program.runFrom host rest (some v)
  | s :: rest, _ => do
    match ← s.run host with
    | .returned v => return some v
    | .normal => Program.runFrom host rest none

/-- Run a program in the outermost scope. -/
def Program.run (host : Host) (p : Program) : Exec (Option Value) := do
  modify fun m => { m with current := m.root }
  Program.runFrom host p none

/-- Read a text as a program and run it. -/
def runSource (host : Host) (commands : CommandSet) (source : String) : Exec (Option Value) := do
  match parseProgram commands source with
  | .ok p => p.run host
  | .error e => throw e

end CommandScript
