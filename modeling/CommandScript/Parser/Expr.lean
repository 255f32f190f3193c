import CommandScript.Parser.Basic

/-!
# Parser/Expr — the grammar of expressions

From loosest to tightest: `||`, `&&`, comparisons, ranges, sums, products, operators before an operand,
powers, then members, indices and calls. Chains of one level group to the left; a power groups to the
right and takes an operand with its sign as exponent. Ranges do not chain.

`operand` is the only recursion, on the number of levels that may still be opened; what stands in
brackets, after a sign or as exponent is one level deeper. Loops are bounded by `size`, a number that
exceeds the characters of the text, of which every round takes at least one.
-/

namespace CommandScript

namespace Parser

/-- A chain of operands that the operators `op?` recognises, grouped to the left, behind `left`. -/
def chainFrom (op? : Token → Option BinaryOp) (operand : Parser Expr) :
    (size : Nat) → (left : Expr) → Parser Expr
  | 0, left => pure left
  | size + 1, left => do
    match op? (← current) with
    | none => return left
    | some op =>
      advance
      let right ← operand
      chainFrom op? operand size (.binary op left right)

/-- A chain of operands, grouped to the left. -/
def chain (size : Nat) (op? : Token → Option BinaryOp) (operand : Parser Expr) : Parser Expr := do
  chainFrom op? operand size (← operand)

/-- The operator of a disjunction. -/
def orOp? : Token → Option BinaryOp
  | .symbol .orOr => some .or
  | _ => none

/-- The operator of a conjunction. -/
def andOp? : Token → Option BinaryOp
  | .symbol .andAnd => some .and
  | _ => none

/-- The operators of comparisons. -/
def compareOp? : Token → Option BinaryOp
  | .symbol .equalEqual => some .equal
  | .symbol .notEqual => some .notEqual
  | .symbol .less => some .less
  | .symbol .greater => some .greater
  | .symbol .lessEqual => some .lessEqual
  | .symbol .greaterEqual => some .greaterEqual
  | _ => none

/-- The operators of sums. -/
def sumOp? : Token → Option BinaryOp
  | .symbol .plus => some .add
  | .symbol .minus => some .subtract
  | _ => none

/-- The operators of products. -/
def productOp? : Token → Option BinaryOp
  | .symbol .star => some .multiply
  | .symbol .slash => some .divide
  | _ => none

/-- The operators before an operand. -/
def signOp? : Token → Option UnaryOp
  | .symbol .minus => some .negate
  | .symbol .bang => some .not
  | _ => none

/-- `a`, `a..b` or `a..b..c`. -/
def rangeOf (bound : Parser Expr) : Parser Expr := do
  let start ← bound
  if ← check .dotDot then
    advance
    let stop ← bound
    if ← check .dotDot then
      advance
      let step ← bound
      return .range start stop (some step)
    else return .range start stop none
  else return start

/-- An expression over the given operands. -/
def expressionOf (size : Nat) (operand : Parser Expr) : Parser Expr :=
  let sum := chain size sumOp? (chain size productOp? operand)
  chain size orOp? (chain size andOp? (chain size compareOp? (rangeOf sum)))

/-- Items up to a closing bracket, separated by commas; a comma may stand behind the last. -/
def itemsFrom (item : Parser Expr) (closer : Symbol) : (size : Nat) → Parser (List Expr)
  | 0 => pure []
  | size + 1 => do
    if ← check closer then return []
    else
      let e ← item
      if ← check .comma then
        advance
        let es ← itemsFrom item closer size
        return e :: es
      else return [e]

/-- A bracketed list of items; the current token opens it. -/
def items (size : Nat) (item : Parser Expr) (closer : Symbol) : Parser (List Expr) := do
  openGroup
  let es ← itemsFrom item closer size
  closeGroup closer
  return es

/-- What stands alone: literals, names, a group, a list. -/
def primary (size : Nat) (inner : Parser Expr) : Parser Expr := do
  match ← current with
  | .number x => finish (.number x)
  | .string s => finish (.string s)
  | .template parts => finish (.template parts)
  | .keyword .trueWord => finish (.boolean true)
  | .keyword .falseWord => finish (.boolean false)
  | .keyword .noneWord => finish .none
  | .identifier name => finish (.var name)
  | .symbol .leftParen =>
    openGroup
    let e ← inner
    closeGroup .rightParen
    return e
  | .symbol .leftBracket => return .list (← items size inner .rightBracket)
  | _ => unexpected "expression"
where
  /-- Move past the token of an expression. -/
  finish (e : Expr) : Parser Expr := do
    advance
    return e

/-- Members, indices and calls behind an expression. -/
def suffixesFrom (bound : Nat) (inner : Parser Expr) : (size : Nat) → Expr → Parser Expr
  | 0, e => pure e
  | size + 1, e => do
    match ← current with
    | .symbol .dot =>
      advance
      let name ← expectName "member name"
      let args ← if ← check .leftParen then items bound inner .rightParen else pure []
      suffixesFrom bound inner size (.member e name args)
    | .symbol .leftBracket =>
      openGroup
      let place ← inner
      closeGroup .rightBracket
      suffixesFrom bound inner size (.index e place)
    | .symbol .leftParen =>
      let args ← items bound inner .rightParen
      suffixesFrom bound inner size (.call e args)
    | _ => return e

/-- An operand: signs, or a power of what members, indices and calls are taken from. -/
def operandOf (size : Nat) (inner deeper : Parser Expr) : Parser Expr := do
  match signOp? (← current) with
  | some op =>
    advance
    let e ← deeper
    return .unary op e
  | none =>
    let base ← suffixesFrom size inner size (← primary size inner)
    if ← check .caret then
      advance
      let exponent ← deeper
      return .binary .power base exponent
    else return base

/-- An operand, where the given number of levels may still be opened. -/
def operand (size : Nat) : (levels : Nat) → Parser Expr
  | 0 => tooDeep
  | levels + 1 =>
    nested (operandOf size (expressionOf size (operand size levels)) (operand size levels))

/-- An expression, where the given number of levels may still be opened. -/
def expression (size levels : Nat) : Parser Expr := expressionOf size (operand size levels)

end Parser

/-- Read a text as one expression; separators may follow it. -/
def parseExpr (source : String) : Except Error Expr :=
  let cs := source.toList
  let size := cs.length + 1
  match Parser.start cs with
  | .error e => .error e
  | .ok s =>
    let whole : Parser Expr := do
      let e ← Parser.expression size maxDepth
      Parser.skipSeparators size
      if (← Parser.current).isEnd then return e else Parser.unexpected "end of input"
    match whole s with
    | .ok e _ => .ok e
    | .error e _ => .error e

end CommandScript
