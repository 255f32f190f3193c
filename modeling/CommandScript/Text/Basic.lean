/-!
# Text/Basic — white space, lines, and names to fill in

`isWhite` is the Unicode property `White_Space`: twenty-five characters in ten runs. `trim` cuts white
space off both ends of a text. Source text knows a smaller class, `isBlank`: what may stand between
two tokens of a line.

Template strings and words of a command line are lists of parts: literal text, and names of variables
whose values are put in later. `Part.cons` adds one character in front and keeps literals maximal, so
a list built with it has no empty literal and no two literals side by side.
-/

namespace CommandScript

namespace Text

/-- The runs of characters with the property `White_Space`, by code point, in ascending order. -/
def whiteRuns : List (Nat × Nat) :=
  [(0x09, 0x0d), (0x20, 0x20), (0x85, 0x85), (0xa0, 0xa0), (0x1680, 0x1680), (0x2000, 0x200a),
    (0x2028, 0x2029), (0x202f, 0x202f), (0x205f, 0x205f), (0x3000, 0x3000)]

/-- Whether a character is white space. -/
def isWhite (c : Char) : Bool :=
  whiteRuns.any fun (first, last) => first ≤ c.toNat && c.toNat ≤ last

/-- Whether a character separates tokens without ending a line. -/
def isBlank (c : Char) : Bool := c == ' ' || c == '\t' || c == '\r'

/-- The text without white space at its ends. -/
def trim (s : String) : String :=
  String.ofList ((s.toList.dropWhile isWhite).reverse.dropWhile isWhite).reverse

example : (whiteRuns.map fun (first, last) => last - first + 1).sum = 25 := by decide

/-- Lines end at a line feed, which is dropped together with one carriage return before it; what
follows the last line feed is a line only if it is not empty. -/
def linesOf : List Char → List (List Char) :=
  fun cs => (split cs).map dropReturn
where
  /-- Cut behind every line feed. -/
  split : List Char → List (List Char)
    | [] => []
    | c :: cs =>
      if c = '\n' then [c] :: split cs
      else match split cs with
        | [] => [[c]]
        | l :: ls => (c :: l) :: ls
  /-- Drop the line feed and one carriage return before it. -/
  dropReturn (line : List Char) : List Char :=
    match line.reverse with
    | '\n' :: '\r' :: rest => rest.reverse
    | '\n' :: rest => rest.reverse
    | _ => line

/-- The lines of a text. -/
def lines (s : String) : List String := (linesOf s.toList).map String.ofList

end Text

/-- One part of a text with names to fill in. -/
inductive Part
  | literal (text : String)
  | hole (name : String)
deriving DecidableEq

namespace Part

/-- The part as it is written: a name follows a dollar sign. -/
def text : Part → String
  | literal s => s
  | hole name => "$" ++ name

/-- The parts as they are written, one after the other. -/
def textOf (parts : List Part) : String := String.join (parts.map text)

/-- Put a character of literal text in front. -/
def cons (c : Char) : List Part → List Part
  | literal s :: parts => literal (String.ofList (c :: s.toList)) :: parts
  | parts => literal (String.ofList [c]) :: parts

/-- The parts with every name replaced by what `value` gives for it; the first name that has no value
ends the attempt. -/
def fill {m : Type → Type} [Monad m] (value : String → m String) : List Part → m String
  | [] => pure ""
  | literal s :: parts => do
    let rest ← fill value parts
    pure (s ++ rest)
  | hole name :: parts => do
    let s ← value name
    let rest ← fill value parts
    pure (s ++ rest)

end Part

end CommandScript
