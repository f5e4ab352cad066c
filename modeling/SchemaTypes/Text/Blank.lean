import SchemaTypes.Text.Ranges

/-!
# Blank characters

The code points with the property White_Space of the Unicode standard, and
the removal of such characters from the two ends of a text.
-/

namespace SchemaTypes.Text

/-- The code points with the property White_Space. -/
def blankRanges : CodeRanges :=
  [(0x9, 0xD), (0x20, 0x20), (0x85, 0x85), (0xA0, 0xA0), (0x1680, 0x1680), (0x2000, 0x200A),
   (0x2028, 0x2029), (0x202F, 0x202F), (0x205F, 0x205F), (0x3000, 0x3000)]

/-- Whether a character is blank. -/
def isBlank (c : Char) : Bool := blankRanges.has c

/-- The text without the blanks at its start. -/
def trimStart (s : String) : String := String.ofList (s.toList.dropWhile isBlank)

/-- The text without the blanks at its end. -/
def trimEnd (s : String) : String :=
  String.ofList (s.toList.reverse.dropWhile isBlank).reverse

end SchemaTypes.Text
