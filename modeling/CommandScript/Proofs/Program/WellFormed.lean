import CommandScript.Parser.Stmt
import CommandScript.Proofs.Shell.Words

/-!
# Proofs/Program/WellFormed — programs as they can be written

Which programs can come out of a text at all. In a well-formed one every name is an identifier and
no keyword, names to fill in are names, parameters are told apart, and a command line has words with
text in them. A command line that could also be an expression keeps that reading only under the name
of a known command, with which its first word starts.

That commands stand only where a statement needs a value, never inside an expression, a test or what
a loop runs over, and that a conditional has a branch, needs no condition: programs are of that form
(`Action`, `Stmt.choose`).
-/

namespace CommandScript

/-- Expressions whose names are identifiers. -/
inductive Expr.WellFormed : Expr → Prop
  | number (value : Float) : WellFormed (.number value)
  | string (text : String) : WellFormed (.string text)
  | template {parts : List Part} : Part.Named parts → WellFormed (.template parts)
  | boolean (value : Bool) : WellFormed (.boolean value)
  | none : WellFormed .none
  | var {name : String} : Scan.isIdentifier name = true → WellFormed (.var name)
  | list {items : List Expr} : (∀ e ∈ items, WellFormed e) → WellFormed (.list items)
  | range {start stop : Expr} {step : Option Expr} : WellFormed start → WellFormed stop →
    (∀ e ∈ step, WellFormed e) → WellFormed (.range start stop step)
  | binary {op : BinaryOp} {left right : Expr} : WellFormed left → WellFormed right →
    WellFormed (.binary op left right)
  | unary {op : UnaryOp} {operand : Expr} : WellFormed operand → WellFormed (.unary op operand)
  | call {callee : Expr} {args : List Expr} : WellFormed callee → (∀ e ∈ args, WellFormed e) →
    WellFormed (.call callee args)
  | member {receiver : Expr} {name : String} {args : List Expr} : WellFormed receiver →
    Scan.isIdentifier name = true → (∀ e ∈ args, WellFormed e) →
    WellFormed (.member receiver name args)
  | index {target place : Expr} : WellFormed target → WellFormed place →
    WellFormed (.index target place)

/-- The parts of a word: there are some, with no empty or adjacent literals, and what is to be
filled in are names. -/
structure Part.WellFormed (parts : List Part) : Prop where
  nonempty : parts ≠ []
  tight : Tight parts
  named : Named parts

/-- The first word starts with the given name, in its literal text. -/
def Command.LedBy (name : String) (words : List (List Part)) : Prop :=
  ∃ text parts rest, words = (.literal text :: parts) :: rest ∧ name.toList <+: text.toList

/-- The other reading of a line with the given words. -/
structure Reading.WellFormed (commands : CommandSet) (words : List (List Part)) (r : Reading) :
    Prop where
  known : commands.contains r.name = true
  name : Scan.isIdentifier r.name = true
  expression : r.expression.WellFormed
  leads : Command.LedBy r.name words

/-- Command lines with words in them. -/
structure Command.WellFormed (commands : CommandSet) (c : Command) : Prop where
  nonempty : c.words ≠ []
  words : ∀ parts ∈ c.words, Part.WellFormed parts
  reading : ∀ r ∈ c.reading, r.WellFormed commands c.words

/-- What may give a statement its value. -/
inductive Action.WellFormed (commands : CommandSet) : Action → Prop
  | expression {e : Expr} : e.WellFormed → WellFormed commands (.expression e)
  | command {c : Command} : c.WellFormed commands → WellFormed commands (.command c)

/-- The parameters of a function: identifiers, none of them twice. -/
structure Parameters (names : List String) : Prop where
  distinct : names.Nodup
  identifiers : ∀ name ∈ names, Scan.isIdentifier name = true

mutual
/-- Statements, with all that is nested in them. -/
inductive Stmt.WellFormed (commands : CommandSet) : Stmt → Prop
  | assign {name : String} {value : Action} : Scan.isIdentifier name = true →
    value.WellFormed commands → Stmt.WellFormed commands (.assign name value)
  | assignAt {target place : Expr} {value : Action} : target.WellFormed → place.WellFormed →
    value.WellFormed commands → Stmt.WellFormed commands (.assignAt target place value)
  | perform {action : Action} : action.WellFormed commands →
    Stmt.WellFormed commands (.perform action)
  | choose {test : Expr} {body : List Stmt} {rest : Otherwise} : test.WellFormed →
    (∀ s ∈ body, Stmt.WellFormed commands s) → Otherwise.WellFormed commands rest →
    Stmt.WellFormed commands (.choose test body rest)
  | forEach {name : String} {items : Expr} {body : List Stmt} : Scan.isIdentifier name = true →
    items.WellFormed → (∀ s ∈ body, Stmt.WellFormed commands s) →
    Stmt.WellFormed commands (.forEach name items body)
  | function {name : String} {params : List String} {body : List Stmt} :
    Scan.isIdentifier name = true → Parameters params →
    (∀ s ∈ body, Stmt.WellFormed commands s) →
    Stmt.WellFormed commands (.function name params body)
  | giveBack {value : Option Action} : (∀ a ∈ value, a.WellFormed commands) →
    Stmt.WellFormed commands (.giveBack value)
  | block {body : List Stmt} : (∀ s ∈ body, Stmt.WellFormed commands s) →
    Stmt.WellFormed commands (.block body)

/-- What may follow the block of a conditional. -/
inductive Otherwise.WellFormed (commands : CommandSet) : Otherwise → Prop
  | nothing : Otherwise.WellFormed commands .nothing
  | orElse {body : List Stmt} : (∀ s ∈ body, Stmt.WellFormed commands s) →
    Otherwise.WellFormed commands (.orElse body)
  | orIf {test : Expr} {body : List Stmt} {rest : Otherwise} : test.WellFormed →
    (∀ s ∈ body, Stmt.WellFormed commands s) → Otherwise.WellFormed commands rest →
    Otherwise.WellFormed commands (.orIf test body rest)
end

/-- A program of well-formed statements. -/
def Program.WellFormed (commands : CommandSet) (p : Program) : Prop :=
  ∀ s ∈ p, Stmt.WellFormed commands s

end CommandScript
