import SchemaTypes.Model.Definition
import SchemaTypes.Naming.Identifier

/-!
# Values of an enum

Every entry of an enum is written as a literal.  An entry without a value
stands for its own name.  A value that is neither a string, a number nor a
truth value is written as the string of its document text.
-/

namespace SchemaTypes

namespace Literal

/-- The literal of an entry. -/
def ofEntry (name : String) (entry : EnumEntry) : String :=
  match entry.value with
  | none => Naming.quote name
  | some (.string s) => Naming.quote s
  | some (.number n) => n.text
  | some (.bool b) => if b then "true" else "false"
  | some .null => "null"
  | some (.array items) => Naming.quote (Json.Value.array items).text
  | some (.object members) => Naming.quote (Json.Value.object members).text

/-- The entries of an enum with their literals. -/
def ofEntries (entries : Table EnumEntry) : Table String :=
  entries.map fun (name, entry) => (name, ofEntry name entry)

/-- The union of literals.  There is no value in an enum without entries. -/
def union (literals : Table String) : String :=
  if literals.isEmpty then "never" else Text.join " | " literals.entries

end Literal

end SchemaTypes
