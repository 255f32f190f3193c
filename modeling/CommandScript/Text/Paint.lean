/-!
# Text/Paint — styled terminal text

A style is a colour, a weight or both. `Paint` says whether styles are written at all; where they are,
`Paint.apply` puts the text between the opening sequence of the style and a reset. A reset inside the
text would end the style early, so the opening sequence is written again behind each of them.
-/

namespace CommandScript

/-- The colours in use. -/
inductive Colour
  | red | green | cyan | brightRed | brightGreen | brightCyan
deriving DecidableEq

/-- The terminal's number for a colour. -/
def Colour.code : Colour → String
  | .red => "31"
  | .green => "32"
  | .cyan => "36"
  | .brightRed => "91"
  | .brightGreen => "92"
  | .brightCyan => "96"

/-- Weight and colour of a text. -/
structure Style where
  bold : Bool
  colour : Option Colour
deriving DecidableEq

namespace Style

/-- The colour alone. -/
def plain (c : Colour) : Style := ⟨false, some c⟩

/-- Bold in a colour. -/
def strong (c : Colour) : Style := ⟨true, some c⟩

/-- Bold alone. -/
def heading : Style := ⟨true, none⟩

/-- Start of a control sequence. -/
def escape : String := "\x1b["

/-- The sequence that ends every style. -/
def reset : String := escape ++ "0m"

/-- The sequence that starts the style; the weight comes before the colour. -/
def opening (s : Style) : String :=
  let codes := (if s.bold then ["1"] else []) ++ s.colour.toList.map Colour.code
  escape ++ ";".intercalate codes ++ "m"

end Style

/-- Whether styles are written. -/
inductive Paint
  | off | on
deriving DecidableEq

namespace Paint

/-- The text in the given style. -/
def apply (p : Paint) (s : Style) (text : String) : String :=
  match p with
  | .off => text
  | .on =>
    s.opening ++ (Style.reset ++ s.opening).intercalate (text.splitOn Style.reset) ++ Style.reset

end Paint

end CommandScript
