/-
Blank characters, the Unicode property `White_Space`, and trimming by them.
The ASCII notion of whitespace is smaller: it lacks the vertical tab, the
form feed and every blank above `U+007F`.
-/
import ParamQuery.Text.CodePoints

namespace ParamQuery.Text

/-- The characters with the property `White_Space`. -/
def blanks : CodePoints :=
  [(0x09, 0x0D), (0x20, 0x20), (0x85, 0x85), (0xA0, 0xA0), (0x1680, 0x1680), (0x2000, 0x200A),
    (0x2028, 0x2029), (0x202F, 0x202F), (0x205F, 0x205F), (0x3000, 0x3000)]

/-- Whether the character is white space. -/
def isBlank (c : Char) : Bool := blanks.has c

/-- The text without the blanks at its two ends. -/
def trimBlanks (s : String) : String :=
  String.ofList ((s.toList.dropWhile isBlank).reverse.dropWhile isBlank).reverse

end ParamQuery.Text
