/-
**Styled text.**

Terminals show text in a style between a control sequence that opens the style and one that resets
it.  When the text itself contains a reset, the style is opened again after it, so that a styled
piece keeps its style to its end.
-/

set_option autoImplicit false

namespace Resumable

/-- The colours in use. -/
inductive Colour where
  | red | yellow | blue | cyan
deriving DecidableEq

/-- The code of a colour. -/
def Colour.code : Colour → String
  | .red => "31"
  | .yellow => "33"
  | .blue => "34"
  | .cyan => "36"

/-- A style: bold or not, in a colour or not. -/
structure Style where
  bold : Bool := false
  colour : Option Colour := none
deriving DecidableEq

namespace Style

/-- The codes of a style, bold first. -/
def codes (s : Style) : List String :=
  (if s.bold then ["1"] else []) ++ (s.colour.map Colour.code).toList

/-- The control sequence that resets the style. -/
def reset : List Char := ['\x1b', '[', '0', 'm']

/-- The control sequence that opens the style. -/
def opening (s : Style) : List Char :=
  '\x1b' :: '[' :: (";".intercalate s.codes).toList ++ ['m']

/-- Opens the style again after every reset in the text. -/
def reopen (opening : List Char) : List Char → List Char
  | '\x1b' :: '[' :: '0' :: 'm' :: rest => reset ++ opening ++ reopen opening rest
  | c :: rest => c :: reopen opening rest
  | [] => []

/-- The text in the style when `colours` is on, plain otherwise. -/
def paint (s : Style) (colours : Bool) (text : String) : String :=
  if colours then String.ofList (s.opening ++ reopen s.opening text.toList ++ reset) else text

end Style

end Resumable
