import SchemaTypes.Json.Value

/-!
# Documents

A document is what a text says before any of it is kept.  It still has names
that are repeated, numbers that are out of range and strings with half a
surrogate pair.  Such things are errors only where the value is kept, so they
are noted here and judged by the reader.

`Document.keep?` keeps a document as a value.  Of members with one name the
last one wins and the first place is kept.
-/

namespace SchemaTypes.Json

/-- What a text says. -/
inductive Document
  | null
  | bool (b : Bool)
  /-- A number.  None stands for one that is out of range. -/
  | number (n : Option Number)
  /-- A string.  None stands for one with half a surrogate pair. -/
  | string (s : Option String)
  | array (items : List Document)
  | object (members : List (Option String × Document))
deriving Inhabited

namespace Document

mutual

/-- The document as a value, if all of it can be kept. -/
def keep? : Document → Option Value
  | .null => some .null
  | .bool b => some (.bool b)
  | .number n => n.map .number
  | .string s => s.map .string
  | .array items => (keepItems items).map .array
  | .object members => (keepMembers members).map fun pairs => .object (Table.ofPairs pairs)

/-- Keeps every document of a list. -/
def keepItems : List Document → Option (List Value)
  | [] => some []
  | d :: rest =>
      match keep? d, keepItems rest with
      | some v, some vs => some (v :: vs)
      | _, _ => none

/-- Keeps every member of an object. -/
def keepMembers : List (Option String × Document) → Option (List (String × Value))
  | [] => some []
  | (name, d) :: rest =>
      match name, keep? d, keepMembers rest with
      | some n, some v, some vs => some ((n, v) :: vs)
      | _, _, _ => none

end

mutual

/-- How deep lists and objects are nested. -/
def nesting : Document → Nat
  | .array items => nestingItems items + 1
  | .object members => nestingMembers members + 1
  | _ => 0

/-- The deepest nesting in a list. -/
def nestingItems : List Document → Nat
  | [] => 0
  | d :: rest => max (nesting d) (nestingItems rest)

/-- The deepest nesting in an object. -/
def nestingMembers : List (Option String × Document) → Nat
  | [] => 0
  | (_, d) :: rest => max (nesting d) (nestingMembers rest)

end

/-- The document as a value, if all of it can be kept and its lists and
objects are nested no deeper than `room`. -/
def keepWithin? (room : Nat) (d : Document) : Option Value :=
  if d.nesting ≤ room then d.keep? else none

mutual

/-- The document that says exactly a value. -/
def ofValue : Value → Document
  | .null => .null
  | .bool b => .bool b
  | .number n => .number (some n)
  | .string s => .string (some s)
  | .array items => .array (ofItems items)
  | .object members => .object (ofMembers members)

/-- The documents that say exactly the values of a list. -/
def ofItems : List Value → List Document
  | [] => []
  | v :: rest => ofValue v :: ofItems rest

/-- The members that say exactly the members of an object. -/
def ofMembers : List (String × Value) → List (Option String × Document)
  | [] => []
  | (name, v) :: rest => (some name, ofValue v) :: ofMembers rest

end

end Document

end SchemaTypes.Json
