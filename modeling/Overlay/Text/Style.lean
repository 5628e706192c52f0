/-!
# Styled text

Styles of text on a terminal. A style stands around a text as two control sequences, one that
turns it on and one that turns it off, so that styles nest.
-/

namespace Overlay.Text

/-- A style of text on a terminal. -/
inductive Style where
  /-- Strong. -/
  | bold
  /-- Faint. -/
  | dim
  /-- In green. -/
  | green
  /-- In yellow. -/
  | yellow
  /-- In white. -/
  | white
  /-- In bright cyan. -/
  | brightCyan
  deriving DecidableEq, Repr

namespace Style

/-- The control sequence with a number. -/
def sequence (number : String) : String := "\x1b[" ++ number ++ "m"

/-- The control sequence that turns a style on. -/
def start : Style → String
  | bold => sequence "1"
  | dim => sequence "2"
  | green => sequence "32"
  | yellow => sequence "33"
  | white => sequence "37"
  | brightCyan => sequence "96"

/-- The control sequence that turns a style off. Strength and colour go by one sequence each. -/
def finish : Style → String
  | bold => sequence "0"
  | dim => sequence "0"
  | _ => sequence "39"

/-- A text in a style. -/
def apply (s : Style) (text : String) : String := s.start ++ text ++ s.finish

end Style

end Overlay.Text
