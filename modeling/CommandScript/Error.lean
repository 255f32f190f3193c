import CommandScript.Program.Basic
import CommandScript.Text.Paint
import CommandScript.Token.Scan

/-!
# Error — what can go wrong, and how it is reported

An `Error` names its cause; `Error.message` holds all the wording. Faults of reading carry the span they
were met at, and `Error.render` shows them under the line of source they point into. Each family of
faults has a case `other` for a host that reports in its own words.
-/

namespace CommandScript

/-- Faults of the grammar. -/
inductive ParseFault
  /-- Something else stands where `wanted` should. -/
  | expected (wanted found : String)
  | duplicateParameter (name : String)
  | tooDeep (limit : Nat)
  /-- A command line without a word. -/
  | noCommand
  | other (message : String)
deriving DecidableEq

/-- What is said of the fault. -/
def ParseFault.message : ParseFault → String
  | expected wanted found => "Expected " ++ wanted ++ ", found '" ++ found ++ "'"
  | duplicateParameter name => "Duplicate parameter '" ++ name ++ "'"
  | tooDeep limit => "Nesting deeper than " ++ toString limit ++ " levels"
  | noCommand => "Expected command"
  | other message => message

/-- The kinds of values. -/
inductive Kind
  | number | string | boolean | list | range | none | function
deriving DecidableEq

/-- The name of a kind, as messages give it. -/
def Kind.text : Kind → String
  | number => "Number"
  | string => "String"
  | boolean => "Boolean"
  | list => "List"
  | range => "Range"
  | none => "None"
  | function => "Function"

/-- The three numbers of a range. -/
inductive RangePart
  | start | stop | step
deriving DecidableEq

/-- The name of the part. -/
def RangePart.text : RangePart → String
  | start => "range start"
  | stop => "range end"
  | step => "range step"

/-- Values of the wrong kind. -/
inductive TypeFault
  | operands (op : BinaryOp) (left right : Kind)
  | notNegatable (kind : Kind)
  | notCallable (kind : Kind)
  | notIndexable (kind : Kind)
  | notAssignable (kind : Kind)
  | notIterable (kind : Kind)
  | rangePart (part : RangePart) (kind : Kind)
  | indexKind (kind : Kind)
  /-- One character is wanted; `got` is the offending text in quotes or the kind of the value. -/
  | notOneCharacter (got : String)
  | soughtKind (kind : Kind)
  | other (message : String)
deriving DecidableEq

/-- What is said of the fault. -/
def TypeFault.message : TypeFault → String
  | operands op left right =>
    "cannot apply '" ++ op.text ++ "' to " ++ left.text ++ " and " ++ right.text
  | notNegatable kind => "cannot negate " ++ kind.text
  | notCallable kind => kind.text ++ " is not callable"
  | notIndexable kind => kind.text ++ " is not indexable"
  | notAssignable kind => kind.text ++ " does not support index assignment"
  | notIterable kind => "cannot iterate over " ++ kind.text
  | rangePart part kind => part.text ++ " must be a Number, got " ++ kind.text
  | indexKind kind => "index must be a Number, got " ++ kind.text
  | notOneCharacter got => "expected a single character, got " ++ got
  | soughtKind kind => "contains expects a String, got " ++ kind.text
  | other message => message

/-- Numbers that are no index. -/
inductive IndexFault
  | outOfBounds (index : Float) (length : Nat)
  | other (message : String)

/-- What is said of the fault. -/
def IndexFault.message : IndexFault → String
  | outOfBounds index length =>
    "index " ++ Number.display index ++ " out of bounds for length " ++ toString length
  | other message => message

/-- Numbers that make no range. -/
inductive RangeFault
  | infiniteBounds (start stop : Float)
  | badStep (step : Float)
  | wrongDirection (start stop step : Float)
  | other (message : String)

/-- What is said of the fault. -/
def RangeFault.message : RangeFault → String
  | infiniteBounds start stop =>
    "bounds must be finite numbers, got " ++ Number.text start ++ ".." ++ Number.text stop
  | badStep step => "step must be a non-zero finite number, got " ++ Number.text step
  | wrongDirection start stop step =>
    "step " ++ Number.text step ++ " never reaches " ++ Number.text stop ++ " from "
      ++ Number.text start
  | other message => message

/-- Everything that can go wrong. The first error ends the script or the entry it is met in. -/
inductive Error
  | lex (fault : ScanFault) (span : Span)
  | parse (fault : ParseFault) (span : Span)
  | type (fault : TypeFault)
  | index (fault : IndexFault)
  | undefinedVariable (name : String)
  | arity (name : String) (expected found : Nat)
  | unknownMember (receiver name : String)
  | invalidRange (fault : RangeFault)
  /-- A command ended with a status other than zero, or, without one, by a signal. -/
  | commandFailed (line : String) (status : Option Int)
  /-- A command could not be started. -/
  | notLaunched (line reason : String)
  | callDepth (limit : Nat)

namespace Error

/-- What is said of the error. -/
def message : Error → String
  | lex fault span => "Lex error at " ++ span.text ++ ": " ++ fault.message
  | parse fault span => "Parse error at " ++ span.text ++ ": " ++ fault.message
  | type fault => "Type error: " ++ fault.message
  | index fault => "Index error: " ++ fault.message
  | undefinedVariable name => "Undefined variable: " ++ name
  | arity name expected found =>
    name ++ "() takes " ++ toString expected ++ " argument(s), " ++ toString found ++ " given"
  | unknownMember receiver name => receiver ++ " has no member '" ++ name ++ "'"
  | invalidRange fault => "Invalid range: " ++ fault.message
  | commandFailed line (some status) =>
    "Command `" ++ line ++ "` exited with status " ++ toString status
  | commandFailed line none => "Command `" ++ line ++ "` was terminated by a signal"
  | notLaunched line reason => "Failed to launch `" ++ line ++ "`: " ++ reason
  | callDepth limit => "Maximum call depth of " ++ toString limit ++ " exceeded"

/-- Where the error was met, for faults of reading. -/
def span? : Error → Option Span
  | lex _ span => some span
  | parse _ span => some span
  | _ => none

/-- The line of source a span names, counted from one; nothing if there is none. -/
def lineOf (source : String) (span : Span) : String :=
  ((Text.lines source)[span.line - 1]?).getD ""

/-- The message and, for a fault of reading, the line of source with a caret under the place. -/
def render (paint : Paint) (source : String) (e : Error) : String :=
  match e.span? with
  | none => e.message
  | some span =>
    let line := lineOf source span
    let gutter := toString span.line ++ " | "
    let width := min (max span.length 1) (max line.length 1)
    let caret := String.ofList
      (List.replicate (gutter.length + (span.column - 1)) ' ' ++ List.replicate width '^')
    e.message ++ "\n" ++ gutter ++ line ++ "\n" ++ paint.apply (Style.strong .red) caret

end Error

end CommandScript
