import SchemaTypes.Text.Split

/-!
# Lines of a text

A line ends at a line feed.  The line feed is not part of the line, and
neither is a carriage return that stands directly before it.  What follows the
last line feed is a line too, unless it is empty, and it keeps a carriage
return at its end.
-/

namespace SchemaTypes.Text

/-- The line without a carriage return at its end. -/
def dropReturn (line : List Char) : List Char :=
  match line.reverse with
  | '\r' :: rest => rest.reverse
  | _ => line

/-- The lines among the pieces between the line feeds.  Every piece but the
last was ended by a line feed. -/
def linesOfPieces : List (List Char) → List (List Char)
  | [] => []
  | [last] => if last.isEmpty then [] else [last]
  | piece :: rest => dropReturn piece :: linesOfPieces rest

/-- The lines of a text. -/
def lines (s : String) : List String :=
  (linesOfPieces (splitChars '\n' s.toList)).map String.ofList

end SchemaTypes.Text
