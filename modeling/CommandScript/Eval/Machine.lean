import CommandScript.Scope
import CommandScript.Shell.Launcher
import CommandScript.Value.Display

/-!
# Eval/Machine — the state programs run on

A `Machine` holds the store, the scopes, the scope in which statements currently run, the number of open
calls, the output written so far and the command lines that were started. `Exec` are computations on it:
they may fail, and the state is kept either way. What a computation enters it also leaves: `inScope` and
`inCall` put things back when the inner computation ends, also by an error.
-/

namespace CommandScript

/-- What programs find around them. -/
structure Host where
  launcher : Launcher
  /-- Arguments of the script. -/
  argv : List String
  /-- How many calls may be open. -/
  maxCallDepth : Nat

/-- The state programs run on. -/
structure Machine where
  store : Store
  scopes : Scopes
  /-- The outermost scope. -/
  root : ScopeRef
  /-- The scope in which statements run. -/
  current : ScopeRef
  /-- How many calls are open. -/
  callDepth : Nat
  output : ByteArray
  /-- The command lines that were started, the last one first. -/
  started : List String

/-- Computations on a machine. -/
abbrev Exec := EStateM Error Machine

/-- How a statement ends. -/
inductive Flow
  | normal
  | returned (value : Value)

/-- How a function is called. -/
abbrev Caller := FunctionRef → List Value → Exec Value

namespace Exec

/-- Use the store; on an error it stays as it is. -/
def onStore {α : Type} (f : Store → Except Error (α × Store)) : Exec α := fun m =>
  match f m.store with
  | .ok (a, store) => .ok a { m with store := store }
  | .error e => .error e m

/-- Put something new into the store. -/
def allocate (f : Store → Value × Store) : Exec Value :=
  fun ⟨store, scopes, root, current, callDepth, output, started⟩ =>
    let (v, store) := f store
    .ok v ⟨store, scopes, root, current, callDepth, output, started⟩

/-- Read something off the machine. -/
def look {α : Type} (f : Machine → Except Error α) : Exec α := fun m =>
  match f m with
  | .ok a => .ok a m
  | .error e => .error e m

/-- The value of an operation that only reads the store. -/
def compute (f : Store → Except Error Fresh) : Exec Value := do
  let result ← look fun m => f m.store
  allocate fun s => s.place result

/-- Whether a value counts as true. -/
def isTruthy (v : Value) : Exec Bool := look fun m => .ok (m.store.isTruthy v)

/-- The value of a name. -/
def lookup (name : String) : Exec Value := look fun m => m.scopes.lookup m.current name

/-- The text that takes the place of a name. -/
def insertionOf (name : String) : Exec String := do
  let v ← lookup name
  look fun m => .ok (m.store.insertion v)

/-- Give a name a value. -/
def assign (name : String) (v : Value) : Exec Unit :=
  modify fun m => { m with scopes := m.scopes.assign m.current name v }

/-- Bind a name in the current scope. -/
def define (name : String) (v : Value) : Exec Unit :=
  modify fun m => { m with scopes := m.scopes.define m.current name v }

/-- A new scope inside another. -/
def newScope (parent : ScopeRef) : Exec ScopeRef := fun m =>
  let (e, scopes) := m.scopes.newChild parent
  .ok e { m with scopes := scopes }

/-- Bind names in a scope, one after the other. -/
def defineAll (e : ScopeRef) : List (String × Value) → Exec Unit
  | [] => pure ()
  | (name, v) :: rest => do
    modify fun m => { m with scopes := m.scopes.define e name v }
    defineAll e rest

/-- Write bytes. -/
def write (bytes : ByteArray) : Exec Unit := modify fun m => { m with output := m.output ++ bytes }

/-- Start a command line. -/
def launch (l : Launcher) (line : String) : Exec Launch := fun m =>
  let (launch, started) := l.launch m.started line
  .ok launch { m with started := started }

/-- Run a computation in another scope. -/
def inScope {α : Type} (e : ScopeRef) (x : Exec α) : Exec α := fun m =>
  let saved := m.current
  match x { m with current := e } with
  | .ok a m => .ok a { m with current := saved }
  | .error err m => .error err { m with current := saved }

/-- Run a computation in a new scope inside the current one. -/
def inChild {α : Type} (x : Exec α) : Exec α := do
  inScope (← newScope (← get).current) x

/-- Run a computation as a call. -/
def inCall {α : Type} (x : Exec α) : Exec α := fun m =>
  match x { m with callDepth := m.callDepth + 1 } with
  | .ok a m => .ok a { m with callDepth := m.callDepth - 1 }
  | .error err m => .error err { m with callDepth := m.callDepth - 1 }

end Exec

end CommandScript
