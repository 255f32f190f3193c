import CommandScript.CommandLine.Folder
import CommandScript.CommandLine.Options
import CommandScript.CommandLine.Run
import CommandScript.Error
import CommandScript.Eval.Expr
import CommandScript.Eval.Machine
import CommandScript.Eval.Stmt
import CommandScript.Main
import CommandScript.Number.Decimal
import CommandScript.Number.Exact
import CommandScript.Parser.Basic
import CommandScript.Parser.Expr
import CommandScript.Parser.Stmt
import CommandScript.Program.Basic
import CommandScript.Program.Printer
import CommandScript.Repl.Basic
import CommandScript.Repl.Help
import CommandScript.Scope
import CommandScript.Session
import CommandScript.Shell.Builtins
import CommandScript.Shell.CommandSet
import CommandScript.Shell.Launcher
import CommandScript.Shell.Line
import CommandScript.Shell.Rehearsal
import CommandScript.Source.Cursor
import CommandScript.Text.Basic
import CommandScript.Text.Paint
import CommandScript.Text.Utf8
import CommandScript.Token.Basic
import CommandScript.Token.Scan
import CommandScript.Token.Stream
import CommandScript.Value.Basic
import CommandScript.Value.Display
import CommandScript.Value.Member
import CommandScript.Value.Operator
import CommandScript.Value.Range
import CommandScript.Proofs.Eval.Balance
import CommandScript.Proofs.Eval.Session
import CommandScript.Proofs.Token.Lexes
import CommandScript.Proofs.Parser.Walk
import CommandScript.Proofs.Parser.Reads
import CommandScript.Proofs.Parser.Expression
import CommandScript.Proofs.Shell.Passes
import CommandScript.Proofs.Shell.PlainLine
import CommandScript.Proofs.Parser.Action
import CommandScript.Proofs.Parser.Readings
import CommandScript.Proofs.Token.Text
import CommandScript.Proofs.Program.Printed
import CommandScript.Proofs.Parser.RoundTrip
import CommandScript.Proofs.Source.Place
import CommandScript.Proofs.Number.View
import CommandScript.Proofs.Value.Range
import CommandScript.Proofs.Eval.Fuel
import CommandScript.Proofs.Eval.Closed
import CommandScript.Proofs.Scope.Names
import CommandScript.Proofs.Eval.Frame
import CommandScript.Proofs.Number.Sign
import CommandScript.Proofs.Token.Tiling
import CommandScript.Proofs.Value.Tree
import CommandScript.Proofs.Value.Source
import CommandScript.Proofs.Eval.Depth
import CommandScript.Proofs.Shell.Words
import CommandScript.Proofs.Parser.Unbounded
import CommandScript.Proofs.Parser.Likeness
import CommandScript.Proofs.Parser.Progress
import CommandScript.Proofs.Token.NextLine
import CommandScript.Proofs.Parser.Extension
import CommandScript.Proofs.Parser.Append
import CommandScript.Proofs.Eval.Sequence
import CommandScript.Proofs.Parser.Brackets
import CommandScript.Proofs.Repl.Continuation
import CommandScript.Proofs.Parser.Yields
import CommandScript.Proofs.Parser.WellFormed
import CommandScript.Proofs.Parser.Faults
import CommandScript.Proofs.Value.Bisimulation
import CommandScript.Proofs.Number.Literal
import CommandScript.Proofs.Token.Lexeme
import CommandScript.Proofs.Parser.Parameters
import CommandScript.Proofs.Parser.Keeps
import CommandScript.Proofs.Parser.TooDeep
import CommandScript.Proofs.Scope.Chain
import CommandScript.Proofs.Scope.Readers
import CommandScript.Proofs.Scope.Assign
import CommandScript.Proofs.Value.Display
import CommandScript.Proofs.Value.Member
import CommandScript.Proofs.Value.Operation
import CommandScript.Proofs.Value.Mirror
import CommandScript.Proofs.Value.Undo
import CommandScript.Proofs.Eval.Template
import CommandScript.Proofs.Number.Integer
import CommandScript.Proofs.Number.Quotient
import CommandScript.Proofs.Parser.Counters
import CommandScript.Proofs.Value.Progression
