/-!
# Blank characters and trimming

A character is blank when it has the Unicode property `White_Space`. Trimming removes blanks from
the ends of a text and leaves the inside alone.
-/

namespace Overlay.Text

/-- Whether a character has the Unicode property `White_Space`. -/
def isBlank (c : Char) : Bool :=
  let n := c.toNat
  (9 ≤ n && n ≤ 13) || n == 0x20 || n == 0x85 || n == 0xA0 || n == 0x1680 ||
    (0x2000 ≤ n && n ≤ 0x200A) || n == 0x2028 || n == 0x2029 || n == 0x202F || n == 0x205F ||
    n == 0x3000

/-- A text without the blanks it starts with. -/
def trimStart (cs : List Char) : List Char := cs.dropWhile isBlank

/-- A text without the characters at its end that satisfy `p`. -/
def dropEndWhile (p : Char → Bool) (cs : List Char) : List Char :=
  (cs.reverse.dropWhile p).reverse

/-- A text without the blanks it ends with. -/
def trimEnd (cs : List Char) : List Char := dropEndWhile isBlank cs

/-- A text without the blanks at either end. -/
def trim (cs : List Char) : List Char := trimEnd (trimStart cs)

/-- A string without the blanks at either end. -/
def trimmed (s : String) : String := String.ofList (trim s.toList)

end Overlay.Text
