import CommandScript.Text.Paint
import CommandScript.Value.Member

/-!
# Repl/Help — the help text
-/

namespace CommandScript

namespace Help

/-- Fill a text with blanks up to a width. -/
def pad (width : Nat) (text : String) : String :=
  text ++ String.ofList (List.replicate (width - text.length) ' ')

/-- A line of the help text: a sample, some blanks and what it is. -/
def entry (paint : Paint) (style : Style) (sample : String) (gap : Nat) (meaning : String) : String :=
  "  " ++ paint.apply style sample ++ String.ofList (List.replicate gap ' ') ++ "- " ++ meaning

/-- The line of a member. -/
def memberLine (paint : Paint) (doc : Member.Doc) : String :=
  "  " ++ pad 8 doc.receiver.text ++ " " ++ paint.apply (.plain .cyan) (pad 24 doc.signature) ++ " - "
    ++ doc.description

/-- The lines of the help text. -/
def lines (paint : Paint) : List String :=
  let title := paint.apply .heading
  let caption := paint.apply (.plain .green)
  let sample := entry paint (.plain .cyan)
  let word := entry paint (.plain .brightGreen)
  [title "Orca Language Help",
    title "==================",
    "",
    caption "Values:",
    sample "42  'raw'  true  none" 2 "Numbers, strings, booleans, none",
    sample "\"hi $name\"" 10 "Template string",
    sample "[1, 2]  0..10..2" 10 "List and range",
    "",
    caption "Statements:",
    sample "x = 1 + 2" 18 "Assignment",
    sample "if x > 2 \x7b ... \x7d else \x7b ... \x7d" 2 "Conditional",
    sample "for i in 0..3 \x7b ... \x7d" 12 "Loop over range, list or string",
    sample "func add(a, b) \x7b return a + b \x7d" 2 "Function definition",
    "",
    caption "Shell Commands:",
    sample "ls -la" 14 "Runs and prints its output",
    sample "files = ls $dir" 8 "Captures stdout as a string",
    "",
    caption "Members:"]
  ++ Member.docs.map (memberLine paint)
  ++ ["",
    caption "REPL Commands:",
    word "help" 14 "Show this help",
    word "vars" 14 "List variables",
    word ":reset" 12 "Reset the environment",
    entry paint (.plain .brightRed) "quit" 14 "Exit the REPL"]

end Help

end CommandScript
