/-!
# Ranges of code points

A property of characters is given as a list of closed intervals of code
points.  The lists are ascending, so the search for a code point ends at the
first interval that does not lie below it.
-/

namespace SchemaTypes.Text

/-- Closed intervals of code points, in ascending order. -/
abbrev CodeRanges := List (Nat × Nat)

namespace CodeRanges

/-- Whether a code point lies in one of the intervals. -/
def covers : CodeRanges → Nat → Bool
  | [], _ => false
  | (first, last) :: rest, n => if n ≤ last then decide (first ≤ n) else covers rest n

/-- Whether the code point of a character lies in one of the intervals. -/
def has (ranges : CodeRanges) (c : Char) : Bool := ranges.covers c.toNat

end CodeRanges

end SchemaTypes.Text
