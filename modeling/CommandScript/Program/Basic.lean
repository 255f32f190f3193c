import CommandScript.Text.Basic

/-!
# Program/Basic — operators, expressions, actions, statements

Expressions compute. An `Action` stands where a statement needs a value: an expression, or a command
line whose output is the value. Commands occur nowhere else, so an `Expr` never runs one. A conditional
has at least one branch by its form: the first test and block, and then what follows them.
-/

namespace CommandScript

/-- Operators between two operands. -/
inductive BinaryOp
  | add | subtract | multiply | divide | power
  | equal | notEqual | less | greater | lessEqual | greaterEqual
  | and | or
deriving DecidableEq

namespace BinaryOp

/-- How the operator is written. -/
def text : BinaryOp → String
  | add => "+"
  | subtract => "-"
  | multiply => "*"
  | divide => "/"
  | power => "^"
  | equal => "=="
  | notEqual => "!="
  | less => "<"
  | greater => ">"
  | lessEqual => "<="
  | greaterEqual => ">="
  | and => "&&"
  | or => "||"

/-- Every operator. -/
def all : List BinaryOp :=
  [add, subtract, multiply, divide, power, equal, notEqual, less, greater, lessEqual, greaterEqual,
    and, or]

/-- The operator with the given spelling. -/
def of? (s : String) : Option BinaryOp := all.find? fun op => op.text == s

end BinaryOp

/-- Operators before an operand. -/
inductive UnaryOp
  | negate | not
deriving DecidableEq

/-- How the operator is written. -/
def UnaryOp.text : UnaryOp → String
  | negate => "-"
  | not => "!"

/-- Expressions. -/
inductive Expr
  | number (value : Float)
  | string (text : String)
  | template (parts : List Part)
  | boolean (value : Bool)
  | none
  | var (name : String)
  | list (items : List Expr)
  | range (start stop : Expr) (step : Option Expr)
  | binary (op : BinaryOp) (left right : Expr)
  | unary (op : UnaryOp) (operand : Expr)
  | call (callee : Expr) (args : List Expr)
  | member (receiver : Expr) (name : String) (args : List Expr)
  | index (target index : Expr)

/-- A line that starts with the name of a command and can also be read as an expression. -/
structure Reading where
  name : String
  expression : Expr

/-- A command line: words with names to fill in. The other reading of the line, if there is one, is
taken instead where its leading name is a variable. -/
structure Command where
  words : List (List Part)
  reading : Option Reading

/-- What gives a statement its value. -/
inductive Action
  | expression (e : Expr)
  | command (c : Command)

mutual
/-- Statements. -/
inductive Stmt
  | assign (name : String) (value : Action)
  | assignAt (target index : Expr) (value : Action)
  | perform (action : Action)
  | choose (test : Expr) (body : List Stmt) (rest : Otherwise)
  | forEach (name : String) (items : Expr) (body : List Stmt)
  | function (name : String) (params : List String) (body : List Stmt)
  | giveBack (value : Option Action)
  | block (body : List Stmt)

/-- What follows the block of a conditional. -/
inductive Otherwise
  | nothing
  | orElse (body : List Stmt)
  | orIf (test : Expr) (body : List Stmt) (rest : Otherwise)
end

/-- A program is a list of statements. -/
abbrev Program := List Stmt

end CommandScript
