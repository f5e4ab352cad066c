import SchemaTypes.Text.Split

/-!
# Generated code as blocks

Generated code is a list of lines and blocks.  A block has an opening line, a
body that is indented one level deeper, and a closing line.  `lines` lays code
out at a given depth.  An empty line stays empty at every depth.

Blocks close what they open, so code can not run out of indentation.
-/

namespace SchemaTypes

/-- One level of indentation. -/
def indentUnit : String := "  "

/-- A line at a depth.  The empty line has no indentation. -/
def indented (depth : Nat) (text : String) : String :=
  if text = "" then "" else Text.replicate depth indentUnit ++ text

theorem indented_zero (text : String) : indented 0 text = text := by
  rw [indented]
  split
  · next hempty => exact hempty.symm
  · exact String.empty_append

/-- A line of code, or a block around indented code. -/
inductive Code
  | line (text : String)
  | block (opening : String) (body : List Code) (closing : String)

namespace Code

mutual

/-- The lines of a piece of code at a depth. -/
def linesAt (depth : Nat) : Code → List String
  | .line text => [indented depth text]
  | .block opening body closing =>
      indented depth opening :: linesAllAt (depth + 1) body ++ [indented depth closing]

/-- The lines of several pieces of code at a depth. -/
def linesAllAt (depth : Nat) : List Code → List String
  | [] => []
  | code :: rest => linesAt depth code ++ linesAllAt depth rest

end

/-- The lines of code that stands at the left margin. -/
def lines (code : List Code) : List String := linesAllAt 0 code

@[simp] theorem linesAllAt_map_line (depth : Nat) (texts : List String) :
    linesAllAt depth (texts.map Code.line) = texts.map (indented depth) := by
  induction texts with
  | nil => simp [linesAllAt]
  | cons text rest ih => simp [linesAllAt, linesAt, ih]

theorem linesAllAt_append (depth : Nat) (front back : List Code) :
    linesAllAt depth (front ++ back) = linesAllAt depth front ++ linesAllAt depth back := by
  induction front with
  | nil => simp [linesAllAt]
  | cons code rest ih => simp [linesAllAt, ih]

theorem lines_append (front back : List Code) : lines (front ++ back) = lines front ++ lines back :=
  linesAllAt_append 0 front back

/-- Lines at the left margin are laid out as they are. -/
theorem lines_map_line (texts : List String) : lines (texts.map Code.line) = texts := by
  rw [lines, linesAllAt_map_line]
  exact List.map_id'' indented_zero texts

end Code

end SchemaTypes
