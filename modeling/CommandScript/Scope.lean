import CommandScript.Value.Basic

/-!
# Scope — names and their values

A scope binds names to values and may have a parent, which is always older than itself. What a name means
in a scope is decided along its chain of parents (`Scopes.chain`): reading takes the first scope that
binds the name, assigning changes it there, and a name bound nowhere is bound in the scope itself.
-/

namespace CommandScript

/-- Names with their values. -/
abbrev Bindings := List (String × Value)

namespace Bindings

/-- The value of a name. -/
def get? (b : Bindings) (name : String) : Option Value := List.lookup name b

/-- Whether the name is bound. -/
def binds (b : Bindings) (name : String) : Bool := (get? b name).isSome

/-- Bind a name, in the order of names; an older binding of it goes. -/
def insert (name : String) (v : Value) : Bindings → Bindings
  | [] => [(name, v)]
  | (n, w) :: rest =>
    if n = name then (name, v) :: rest
    else if name < n then (name, v) :: (n, w) :: rest
    else (n, w) :: insert name v rest

/-- The bindings of names that were not seen before, of each name the first. -/
def unseen : (seen : List String) → Bindings → Bindings
  | _, [] => []
  | seen, (n, v) :: rest =>
    if seen.contains n then unseen seen rest else (n, v) :: unseen (n :: seen) rest

/-- The bindings in the order of names. -/
def sort (b : Bindings) : Bindings := b.foldr (fun (n, v) b => insert n v b) []

end Bindings

/-- A scope. -/
structure Scope where
  parent : Option ScopeRef
  bindings : Bindings

/-- All scopes there are, by handle. -/
structure Scopes where
  cells : Array Scope

namespace Scopes

/-- No scope yet. -/
def empty : Scopes := ⟨#[]⟩

/-- A new scope without a parent. -/
def newRoot (s : Scopes) : ScopeRef × Scopes :=
  (⟨s.cells.size⟩, ⟨s.cells.push ⟨none, []⟩⟩)

/-- A new scope inside another. -/
def newChild (s : Scopes) (parent : ScopeRef) : ScopeRef × Scopes :=
  (⟨s.cells.size⟩, ⟨s.cells.push ⟨some parent, []⟩⟩)

/-- The parent of a scope. -/
def parent? (s : Scopes) (e : ScopeRef) : Option ScopeRef := (s.cells[e.index]?).bind (·.parent)

/-- The scope's own bindings. -/
def bindings (s : Scopes) (e : ScopeRef) : Bindings :=
  ((s.cells[e.index]?).map (·.bindings)).getD []

/-- The first `n` scopes on the way from a scope outwards. -/
def chainFrom (s : Scopes) : (n : Nat) → ScopeRef → List ScopeRef
  | 0, _ => []
  | n + 1, e =>
    match s.parent? e with
    | none => [e]
    | some p => e :: s.chainFrom n p

/-- The scopes from a scope outwards. A parent is older than its children, so there are no more than
the handle's number and one. -/
def chain (s : Scopes) (e : ScopeRef) : List ScopeRef := s.chainFrom (e.index + 1) e

/-- How many scopes lie on the way outwards, the scope itself included. -/
def depth (s : Scopes) (e : ScopeRef) : Nat := (s.chain e).length

/-- The scope that decides what a name means. -/
def owner? (s : Scopes) (e : ScopeRef) (name : String) : Option ScopeRef :=
  (s.chain e).find? fun o => (s.bindings o).binds name

/-- The value of a name. -/
def get? (s : Scopes) (e : ScopeRef) (name : String) : Option Value :=
  (s.chain e).findSome? fun o => (s.bindings o).get? name

/-- Whether a name has a value. -/
def isDefined (s : Scopes) (e : ScopeRef) (name : String) : Bool := (s.owner? e name).isSome

/-- The value of a name, or the complaint that it has none. -/
def lookup (s : Scopes) (e : ScopeRef) (name : String) : Except Error Value :=
  match s.get? e name with
  | some v => .ok v
  | none => .error (.undefinedVariable name)

/-- Bind a name in a scope. -/
def define (s : Scopes) (e : ScopeRef) (name : String) (v : Value) : Scopes :=
  ⟨s.cells.modify e.index fun cell => { cell with bindings := cell.bindings.insert name v }⟩

/-- Give a name a value: where it is bound already, or else here. -/
def assign (s : Scopes) (e : ScopeRef) (name : String) (v : Value) : Scopes :=
  s.define ((s.owner? e name).getD e) name v

/-- Every name that means something in a scope, in order, with its value: a walk outwards takes each name
where it is first seen. -/
def all (s : Scopes) (e : ScopeRef) : Bindings :=
  (Bindings.unseen [] ((s.chain e).flatMap s.bindings)).sort

end Scopes

end CommandScript
