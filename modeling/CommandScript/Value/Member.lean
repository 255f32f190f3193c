import CommandScript.Value.Display

/-!
# Value/Member — members of lists and strings

`Store.callMember` is `receiver.name(args)`. It gives a value and the store afterwards, or an error, in
which case nothing has changed. Members of strings work on the list of characters, so a string behaves
as the list of its characters does.

`Member.docs` is the table of all members with the line that documents each.
-/

namespace CommandScript

/-- The members. -/
inductive Member
  | len | pop | push | remove | contains | insert | trim
deriving DecidableEq

namespace Member

/-- The name of a member. -/
def text : Member → String
  | len => "len"
  | pop => "pop"
  | push => "push"
  | remove => "remove"
  | contains => "contains"
  | insert => "insert"
  | trim => "trim"

/-- How many arguments a member takes. -/
def arity : Member → Nat
  | len | pop | trim => 0
  | push | remove | contains => 1
  | insert => 2

/-- The members of a kind of value, by name. -/
def ofKind : Kind → List Member
  | .list => [contains, insert, len, pop, push, remove]
  | .string => [contains, insert, len, pop, push, remove, trim]
  | _ => []

/-- The member of the given name. -/
def of? (kind : Kind) (name : String) : Option Member :=
  (ofKind kind).find? fun m => m.text == name

/-- How a member is called. -/
def signature : Kind → Member → String
  | .list, contains => "list.contains(value)"
  | .list, insert => "list.insert(index, value)"
  | .list, push => "list.push(value)"
  | .list, remove => "list.remove(index)"
  | .list, m => "list." ++ m.text
  | _, contains => "str.contains(text)"
  | _, insert => "str.insert(index, char)"
  | _, push => "str.push(char)"
  | _, remove => "str.remove(index)"
  | _, m => "str." ++ m.text

/-- What a member does. -/
def description : Kind → Member → String
  | .list, contains => "Whether an equal element is present"
  | .list, insert => "Insert a value before index (index may equal len)"
  | .list, len => "Number of elements"
  | .list, pop => "Remove and return the last element (none when empty)"
  | .list, push => "Append a value, returning the new length"
  | .list, remove => "Remove and return the element at index"
  | _, contains => "Whether text occurs as a substring"
  | _, insert => "Insert one character before index (index may equal len)"
  | _, len => "Number of characters"
  | _, pop => "Remove and return the last character (none when empty)"
  | _, push => "Append one character, returning the new length"
  | _, remove => "Remove and return the character at index"
  | _, trim => "Copy without leading and trailing whitespace"

/-- One line of documentation. -/
structure Doc where
  receiver : Kind
  signature : String
  description : String

/-- The documentation of all members, by receiver and name. -/
def docs : List Doc :=
  [Kind.list, Kind.string].flatMap fun kind =>
    (ofKind kind).map fun m => ⟨kind, m.signature kind, m.description kind⟩

end Member

/-- The position a value names in a sequence of the given length; `allowEnd` admits the position behind
the last one. -/
def Value.toIndex (length : Nat) (allowEnd : Bool) : Value → Except Error Nat
  | .number x =>
    let limit := if allowEnd then length + 1 else length
    match Number.wholeNumber? x with
    | .some n => if n < limit then .ok n else .error (.index (.outOfBounds x length))
    | .none => .error (.index (.outOfBounds x length))
  | v => .error (.type (.indexKind v.kind))

/-- Whether `needle` occurs in a list of characters. -/
def Text.occurs (needle : List Char) : List Char → Bool
  | [] => needle.isEmpty
  | c :: cs => needle.isPrefixOf (c :: cs) || occurs needle cs

namespace Store

/-- The character of a string of length one. -/
def oneChar (s : Store) (v : Value) : Except Error Char :=
  let fault : Except Error Char := .error (.type (.notOneCharacter (s.describe v)))
  match v with
  | .string r =>
    match (s.string r).toList with
    | [c] => .ok c
    | _ => fault
  | _ => fault

/-- A new string of one character. -/
def newChar (s : Store) (c : Char) : Value × Store := s.newString (String.singleton c)

/-- A member of a list. -/
def callOnList (s : Store) (r : ListRef) (m : Member) (args : List Value) :
    Except Error (Value × Store) :=
  let items := s.list r
  let unknown : Except Error (Value × Store) := .error (.unknownMember Kind.list.text m.text)
  match m, args with
  | .len, _ => .ok (.number (Float.ofNat items.length), s)
  | .pop, _ => .ok (items.getLast?.getD .none, s.setList r items.dropLast)
  | .push, [v] => .ok (.number (Float.ofNat (items.length + 1)), s.setList r (items ++ [v]))
  | .remove, [place] => do
    let i ← place.toIndex items.length false
    return (items[i]?.getD .none, s.setList r (items.eraseIdx i))
  | .contains, [v] => .ok (.boolean (items.any fun item => s.equal item v), s)
  | .insert, [place, v] => do
    let i ← place.toIndex items.length true
    return (.none, s.setList r (items.insertIdx i v))
  | _, _ => unknown

/-- A member of a string. -/
def callOnString (s : Store) (r : StringRef) (m : Member) (args : List Value) :
    Except Error (Value × Store) :=
  let chars := (s.string r).toList
  let unknown : Except Error (Value × Store) := .error (.unknownMember Kind.string.text m.text)
  match m, args with
  | .len, _ => .ok (.number (Float.ofNat chars.length), s)
  | .pop, _ =>
    match chars.getLast? with
    | none => .ok (.none, s)
    | some c => .ok ((s.setString r (String.ofList chars.dropLast)).newChar c)
  | .push, [v] => do
    let c ← s.oneChar v
    return (.number (Float.ofNat (chars.length + 1)), s.setString r (String.ofList (chars ++ [c])))
  | .remove, [place] => do
    let i ← place.toIndex chars.length false
    match chars[i]? with
    | none => return (.none, s)
    | some c => return (s.setString r (String.ofList (chars.eraseIdx i))).newChar c
  | .contains, [.string needle] =>
    .ok (.boolean (Text.occurs (s.string needle).toList chars), s)
  | .contains, [v] => .error (.type (.soughtKind v.kind))
  | .insert, [place, v] => do
    let i ← place.toIndex chars.length true
    let c ← s.oneChar v
    return (.none, s.setString r (String.ofList (chars.insertIdx i c)))
  | .trim, _ => .ok (s.newString (Text.trim (s.string r)))
  | _, _ => unknown

/-- `receiver.name(args)`. -/
def callMember (s : Store) (receiver : Value) (name : String) (args : List Value) :
    Except Error (Value × Store) :=
  match Member.of? receiver.kind name with
  | none => .error (.unknownMember receiver.kind.text name)
  | some m =>
    if args.length ≠ m.arity then .error (.arity name m.arity args.length)
    else match receiver with
      | .list r => s.callOnList r m args
      | .string r => s.callOnString r m args
      | v => .error (.unknownMember v.kind.text name)

/-- `target[index]`. -/
def element (s : Store) (target index : Value) : Except Error Fresh :=
  match target with
  | .list r => do
    let items := s.list r
    let i ← index.toIndex items.length false
    return .value (items[i]?.getD .none)
  | .string r => do
    let chars := (s.string r).toList
    let i ← index.toIndex chars.length false
    match chars[i]? with
    | some c => return .string (String.singleton c)
    | none => return .value .none
  | v => .error (.type (.notIndexable v.kind))

/-- `target[index] = value`. -/
def setElement (s : Store) (target index value : Value) : Except Error Store :=
  match target with
  | .list r => do
    let items := s.list r
    let i ← index.toIndex items.length false
    return s.setList r (items.set i value)
  | .string r => do
    let chars := (s.string r).toList
    let i ← index.toIndex chars.length false
    let c ← s.oneChar value
    return s.setString r (String.ofList (chars.set i c))
  | v => .error (.type (.notAssignable v.kind))

end Store

end CommandScript
