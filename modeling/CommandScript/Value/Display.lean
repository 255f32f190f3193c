import CommandScript.Value.Basic

/-!
# Value/Display — the text of a value

A list may hold itself. While a list is being written it is open, and where an open list is met again
`[...]` stands for it. Every list that is opened inside another is a new one, so no more lists are open
at once than the store has, and `displayAt` needs no more depth than that.
-/

namespace CommandScript

/-- The text of a function: its name and parameters. -/
def Closure.text (f : Closure) : String :=
  "func " ++ f.name ++ "(" ++ ", ".intercalate f.params ++ ")"

namespace Store

/-- What stands for a list that is already open. -/
def ellipsis : String := "[...]"

/-- The text of a value as an element of a list: strings stand in quotes. -/
def quote (s : Store) (display : Value → String) : Value → String
  | .string r => "'" ++ s.string r ++ "'"
  | v => display v

/-- The text of a value while the given lists are open; lists nest at most `depth` deep. -/
def displayAt (s : Store) : (depth : Nat) → (opened : List ListRef) → Value → String
  | _, _, .number x => Number.display x
  | _, _, .string r => s.string r
  | _, _, .boolean b => if b then "true" else "false"
  | _, _, .range r => r.text
  | _, _, .none => "none"
  | _, _, .function r => ((s.function? r).map Closure.text).getD ""
  | 0, _, .list _ => ellipsis
  | depth + 1, opened, .list r =>
    if opened.contains r then ellipsis
    else
      let texts := (s.list r).map (s.quote (s.displayAt depth (r :: opened)))
      "[" ++ ", ".intercalate texts ++ "]"

/-- The text of a value. -/
def display (s : Store) (v : Value) : String := s.displayAt (s.lists.size + 1) [] v

/-- The text that takes the place of a name in a template or a command: `none` is nothing. -/
def insertion (s : Store) : Value → String
  | .none => ""
  | v => s.display v

/-- How an error names what it got instead of one character. -/
def describe (s : Store) : Value → String
  | .string r => "'" ++ s.string r ++ "'"
  | v => v.kind.text

end Store

end CommandScript
