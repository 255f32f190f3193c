import CommandScript.Value.Display

/-!
# Value/Operator — operators on values

Both operands are there already: `&&` and `||` give one of them, the choice not to evaluate the second
is made elsewhere. Sums of strings and of lists are new strings and lists. Operators only read the store;
what they make is a `Fresh` result.
-/

namespace CommandScript

/-- The order between numbers; the undefined number compares as false. -/
def BinaryOp.compareNumbers (op : BinaryOp) (x y : Float) : Bool :=
  match op with
  | less => x < y
  | greater => x > y
  | lessEqual => x ≤ y
  | greaterEqual => x ≥ y
  | _ => false

/-- The order between texts, character by character. -/
def BinaryOp.compareTexts (op : BinaryOp) (x y : String) : Bool :=
  match op with
  | less => x < y
  | greater => y < x
  | lessEqual => !decide (y < x)
  | greaterEqual => !decide (x < y)
  | _ => false

namespace Store

/-- An operator on numbers only. -/
def arithmetic (op : BinaryOp) (f : Float → Float → Float) (left right : Value) :
    Except Error Fresh :=
  match left, right with
  | .number x, .number y => .ok (.value (.number (f x y)))
  | _, _ => .error (.type (.operands op left.kind right.kind))

/-- A comparison. -/
def compareValues (s : Store) (op : BinaryOp) (left right : Value) : Except Error Fresh :=
  match left, right with
  | .number x, .number y => .ok (.value (.boolean (op.compareNumbers x y)))
  | .string a, .string b => .ok (.value (.boolean (op.compareTexts (s.string a) (s.string b))))
  | _, _ => .error (.type (.operands op left.kind right.kind))

/-- A sum: numbers add, lists join, and with a string on either side texts join. -/
def sum (s : Store) (left right : Value) : Except Error Fresh :=
  match left, right with
  | .number x, .number y => .ok (.value (.number (x + y)))
  | .list a, .list b => .ok (.list (s.list a ++ s.list b))
  | .string _, _ | _, .string _ => .ok (.string (s.insertion left ++ s.insertion right))
  | _, _ => .error (.type (.operands .add left.kind right.kind))

/-- The value of a binary operator. -/
def binary (s : Store) (op : BinaryOp) (left right : Value) : Except Error Fresh :=
  match op with
  | .add => s.sum left right
  | .subtract => arithmetic op (· - ·) left right
  | .multiply => arithmetic op (· * ·) left right
  | .divide => arithmetic op (· / ·) left right
  | .power => arithmetic op Float.pow left right
  | .equal => .ok (.value (.boolean (s.equal left right)))
  | .notEqual => .ok (.value (.boolean (!s.equal left right)))
  | .less | .greater | .lessEqual | .greaterEqual => s.compareValues op left right
  | .and => .ok (.value (if s.isTruthy left then right else left))
  | .or => .ok (.value (if s.isTruthy left then left else right))

/-- The value of an operator before an operand. -/
def unary (s : Store) (op : UnaryOp) (operand : Value) : Except Error Value :=
  match op with
  | .not => .ok (.boolean (!s.isTruthy operand))
  | .negate =>
    match operand with
    | .number x => .ok (.number (-x))
    | v => .error (.type (.notNegatable v.kind))

end Store

end CommandScript
