import CommandScript.Number.Decimal
import CommandScript.Program.Basic

/-!
# Program/Printer — programs as source text

Expressions print fully bracketed on one line; statements print one to a line, blocks indented by four
blanks. Command lines stand in back quotes.
-/

namespace CommandScript

mutual
/-- The text of an expression. -/
def Expr.text : Expr → String
  | .number x => Number.text x
  | .string s => "'" ++ s ++ "'"
  | .template parts => "\"" ++ Part.textOf parts ++ "\""
  | .boolean b => if b then "true" else "false"
  | .none => "none"
  | .var name => name
  | .list items => "[" ++ ", ".intercalate (Expr.texts items) ++ "]"
  | .range start stop .none => start.text ++ ".." ++ stop.text
  | .range start stop (.some step) => start.text ++ ".." ++ stop.text ++ ".." ++ step.text
  | .binary op left right => "(" ++ left.text ++ " " ++ op.text ++ " " ++ right.text ++ ")"
  | .unary op operand => op.text ++ operand.text
  | .call callee args => callee.text ++ "(" ++ ", ".intercalate (Expr.texts args) ++ ")"
  | .member receiver name args =>
    receiver.text ++ "." ++ name ++ "(" ++ ", ".intercalate (Expr.texts args) ++ ")"
  | .index target place => target.text ++ "[" ++ place.text ++ "]"

/-- The text of each expression. -/
def Expr.texts : List Expr → List String
  | [] => []
  | e :: es => e.text :: Expr.texts es
end

/-- The words of a command line as they are written. -/
def Command.text (c : Command) : String := " ".intercalate (c.words.map Part.textOf)

/-- The text of an action. -/
def Action.text : Action → String
  | .expression e => e.text
  | .command c => "`" ++ c.text ++ "`"

/-- Four blanks for every level. -/
def indent (depth : Nat) : String := String.ofList (List.replicate (4 * depth) ' ')

mutual
/-- The lines of a statement at the given depth. -/
def Stmt.textAt (depth : Nat) : Stmt → String
  | .assign name value => indent depth ++ name ++ " = " ++ value.text ++ "\n"
  | .assignAt target index value =>
    indent depth ++ target.text ++ "[" ++ index.text ++ "] = " ++ value.text ++ "\n"
  | .perform action => indent depth ++ action.text ++ "\n"
  | .choose test body rest =>
    indent depth ++ "if " ++ test.text ++ " \x7b\n" ++ Stmt.textsAt (depth + 1) body
      ++ rest.textAt depth
  | .forEach name items body =>
    indent depth ++ "for " ++ name ++ " in " ++ items.text ++ " \x7b\n"
      ++ Stmt.textsAt (depth + 1) body ++ indent depth ++ "\x7d\n"
  | .function name params body =>
    indent depth ++ "func " ++ name ++ "(" ++ ", ".intercalate params ++ ") \x7b\n"
      ++ Stmt.textsAt (depth + 1) body ++ indent depth ++ "\x7d\n"
  | .giveBack .none => indent depth ++ "return\n"
  | .giveBack (.some value) => indent depth ++ "return " ++ value.text ++ "\n"
  | .block body =>
    indent depth ++ "\x7b\n" ++ Stmt.textsAt (depth + 1) body ++ indent depth ++ "\x7d\n"

/-- The lines that close a conditional. -/
def Otherwise.textAt (depth : Nat) : Otherwise → String
  | .nothing => indent depth ++ "\x7d\n"
  | .orElse body =>
    indent depth ++ "\x7d else \x7b\n" ++ Stmt.textsAt (depth + 1) body ++ indent depth ++ "\x7d\n"
  | .orIf test body rest =>
    indent depth ++ "\x7d else if " ++ test.text ++ " \x7b\n" ++ Stmt.textsAt (depth + 1) body
      ++ rest.textAt depth

/-- The lines of several statements. -/
def Stmt.textsAt (depth : Nat) : List Stmt → String
  | [] => ""
  | s :: ss => s.textAt depth ++ Stmt.textsAt depth ss
end

/-- The text of a statement. -/
def Stmt.text (s : Stmt) : String := s.textAt 0

/-- The text of a program. -/
def Program.text (p : Program) : String := Stmt.textsAt 0 p

end CommandScript
