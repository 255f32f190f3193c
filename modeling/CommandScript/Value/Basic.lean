import CommandScript.Program.Basic
import CommandScript.Value.Range

/-!
# Value/Basic — values and the store

Numbers, booleans, ranges and `none` are what they are. Strings, lists and functions live in a `Store`,
and a value holds only the handle: whoever has the handle sees every change. Scopes are named by handles
too, because functions keep the scope they were defined in.

Lists are equal if they are one list or agree element by element. A pair of lists that is met again while
it is being compared counts as equal, which makes the comparison of lists that hold themselves end:
there are only so many pairs of lists.
-/

namespace CommandScript

/-- Handle of a string. -/
structure StringRef where
  index : Nat
deriving DecidableEq

/-- Handle of a list. -/
structure ListRef where
  index : Nat
deriving DecidableEq

/-- Handle of a function. -/
structure FunctionRef where
  index : Nat
deriving DecidableEq

/-- Handle of a scope. -/
structure ScopeRef where
  index : Nat
deriving DecidableEq

/-- Values. -/
inductive Value
  | number (x : Float)
  | string (cell : StringRef)
  | boolean (b : Bool)
  | list (cell : ListRef)
  | range (r : Range)
  | none
  | function (cell : FunctionRef)

/-- The kind of a value. -/
def Value.kind : Value → Kind
  | number _ => .number
  | string _ => .string
  | boolean _ => .boolean
  | list _ => .list
  | range _ => .range
  | none => .none
  | function _ => .function

/-- The result of an operation that changes nothing: a value that is there, or a string or list that is
still to be stored. -/
inductive Fresh
  | value (v : Value)
  | string (text : String)
  | list (items : List Value)

/-- A function with the scope it was defined in. -/
structure Closure where
  name : String
  params : List String
  body : List Stmt
  scope : ScopeRef

/-- Where strings, lists and functions live. -/
structure Store where
  strings : Array String
  lists : Array (List Value)
  functions : Array Closure

namespace Store

/-- The store that holds nothing. -/
def empty : Store := ⟨#[], #[], #[]⟩

/-- The text of a string; a handle that names none reads as empty. -/
def string (s : Store) (r : StringRef) : String := (s.strings[r.index]?).getD ""

/-- The elements of a list; a handle that names none reads as empty. -/
def list (s : Store) (r : ListRef) : List Value := (s.lists[r.index]?).getD []

/-- The function of a handle. -/
def function? (s : Store) (r : FunctionRef) : Option Closure := s.functions[r.index]?

/-- A new string. -/
def newString (s : Store) (text : String) : Value × Store :=
  (.string ⟨s.strings.size⟩, { s with strings := s.strings.push text })

/-- A new list. -/
def newList (s : Store) (items : List Value) : Value × Store :=
  (.list ⟨s.lists.size⟩, { s with lists := s.lists.push items })

/-- A new function. -/
def newFunction (s : Store) (f : Closure) : Value × Store :=
  (.function ⟨s.functions.size⟩, { s with functions := s.functions.push f })

/-- The value of a result, stored first if it has to be. -/
def place (s : Store) : Fresh → Value × Store
  | .value v => (v, s)
  | .string text => s.newString text
  | .list items => s.newList items

/-- Change the text of a string. -/
def setString (s : Store) (r : StringRef) (text : String) : Store :=
  { s with strings := s.strings.setIfInBounds r.index text }

/-- Change the elements of a list. -/
def setList (s : Store) (r : ListRef) (items : List Value) : Store :=
  { s with lists := s.lists.setIfInBounds r.index items }

/-- Whether a value counts as true: zero, the empty string, list and range, `false` and `none` do not. -/
def isTruthy (s : Store) : Value → Bool
  | .number x => x != 0
  | .string r => !(s.string r).isEmpty
  | .boolean b => b
  | .list r => !(s.list r).isEmpty
  | .range r => !r.isEmpty
  | .none => false
  | .function _ => true

/-- Whether two values are equal while the given pairs of lists are being compared; comparisons nest at
most `depth` deep. -/
def equalAt (s : Store) : (depth : Nat) → (opened : List (ListRef × ListRef)) → Value → Value → Bool
  | _, _, .number x, .number y => x == y
  | _, _, .string a, .string b => s.string a == s.string b
  | _, _, .boolean a, .boolean b => a == b
  | _, _, .range a, .range b => a.equals b
  | _, _, .none, .none => true
  | _, _, .function a, .function b => a == b
  | depth, opened, .list a, .list b =>
    if a = b then true
    else if opened.contains (a, b) then true
    else match depth with
      | 0 => true
      | depth + 1 =>
        let (xs, ys) := (s.list a, s.list b)
        xs.length == ys.length
          && (xs.zip ys).all fun (x, y) => s.equalAt depth ((a, b) :: opened) x y
  | _, _, _, _ => false

/-- Whether two values are equal. -/
def equal (s : Store) (a b : Value) : Bool :=
  s.equalAt (s.lists.size * s.lists.size + 1) [] a b

end Store

end CommandScript
