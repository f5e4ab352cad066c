import SchemaTypes.Table

/-!
# Predefined types

The predefined types of the model and what they are written as.  Binary data
and the types of dates are declared in the base namespace, which every file
imports under `__`.  Decimals and integers of 64 bits may also be written as
strings, where the options ask for it.

Two predefined types are containers: they stand for an association to a
target and not for a value.
-/

namespace SchemaTypes

/-- What a predefined type is written as. -/
inductive BuiltinType
  | fixed (text : String)
  /-- A number that may not fit into 53 bits. -/
  | wideNumber
deriving DecidableEq, Repr

/-- The text of a predefined type. -/
def BuiltinType.text (stringNumbers : Bool) : BuiltinType → String
  | .fixed text => text
  | .wideNumber => if stringNumbers then "number | string" else "number"

/-- The predefined types by name. -/
def builtinTypes : Table BuiltinType :=
  [("cds.UUID", .fixed "string"),
   ("cds.String", .fixed "string"),
   ("cds.LargeString", .fixed "string"),
   ("cds.Vector", .fixed "string"),
   ("cds.Binary", .fixed "__.Binary"),
   ("cds.LargeBinary", .fixed "__.Binary"),
   ("cds.Boolean", .fixed "boolean"),
   ("cds.Integer", .fixed "number"),
   ("cds.UInt8", .fixed "number"),
   ("cds.Int16", .fixed "number"),
   ("cds.Int32", .fixed "number"),
   ("cds.Double", .fixed "number"),
   ("cds.Int64", .wideNumber),
   ("cds.Integer64", .wideNumber),
   ("cds.Decimal", .wideNumber),
   ("cds.DecimalFloat", .wideNumber),
   ("cds.Date", .fixed "__.CdsDate"),
   ("cds.Time", .fixed "__.CdsTime"),
   ("cds.DateTime", .fixed "__.CdsDateTime"),
   ("cds.Timestamp", .fixed "__.CdsTimestamp"),
   ("cds.Map", .fixed "__.CdsMap"),
   ("cds.Association", .fixed "__.Association"),
   ("cds.Composition", .fixed "__.Composition")]

/-- The predefined type of a name. -/
def builtin? (name : String) : Option BuiltinType := builtinTypes.get? name

/-- Whether a name is that of a predefined type. -/
def isBuiltin (name : String) : Bool := (builtin? name).isSome

/-- A predefined type that stands for a target. -/
inductive Container
  | association
  | composition
deriving DecidableEq, Repr

namespace Container

/-- The container of a name. -/
def ofName? (name : String) : Option Container :=
  if name = "cds.Association" then some .association
  else if name = "cds.Composition" then some .composition
  else none

/-- The generic type a container is written as. -/
def wrapper : Container → Bool → String
  | .association, false => "__.Association.to"
  | .association, true => "__.Association.to.many"
  | .composition, false => "__.Composition.of"
  | .composition, true => "__.Composition.of.many"

end Container

end SchemaTypes
