import SchemaTypes.Library.Hana
import SchemaTypes.Naming.Identifier
import SchemaTypes.Naming.Inflection
import SchemaTypes.Path.Basic
import SchemaTypes.Text.Blank
import SchemaTypes.Text.Lines

/-!
# Libraries of predefined types

A library is a type module that is written to the output as it stands when a
model refers to one of its types.  The types it offers are read off its
source: a line that exports a type, a class, an interface or a constant
offers the name that follows.

A registry keeps the libraries in order and notes which were referred to.
-/

namespace SchemaTypes

/-- A type module for one namespace. -/
structure Library where
  /-- The namespace of its types. -/
  path : Path
  /-- Its declarations. -/
  source : String
deriving DecidableEq, Repr

namespace Library

/-- What a line that exports a name can start with. -/
def exportOpenings : List String :=
  ["export type ", "export class ", "export interface ", "export const "]

/-- The characters of a text after an opening, where it starts with it. -/
def after? (opening : String) (text : List Char) : Option (List Char) :=
  if opening.toList.isPrefixOf text then some (text.drop opening.length) else none

/-- The name a line exports, if it exports one. -/
def exportedName? (line : String) : Option String :=
  match exportOpenings.findSome? fun opening => after? opening (Text.trimStart line).toList with
  | none => none
  | some rest =>
      let name := rest.takeWhile Naming.isIdentifierPart
      if name.isEmpty then none else some (String.ofList name)

/-- The names a library exports, in the order of its lines. -/
def exportedNames (lib : Library) : List String := (Text.lines lib.source).filterMap exportedName?

/-- Whether a library exports a name. -/
def offers (lib : Library) (name : String) : Bool := lib.exportedNames.contains name

/-- Whether a dotted name is the namespace of the library followed by a name it
exports. -/
def provides (lib : Library) (qualified : String) : Bool :=
  match Text.splitLast? '.' qualified with
  | none => false
  | some (dotted, name) => lib.path.dotted == dotted && lib.offers name

end Library

/-- A type that a library exports. -/
structure LibraryType where
  /-- The namespace of the library. -/
  path : Path
  /-- The exported name. -/
  name : String
deriving DecidableEq, Repr

/-- The libraries in order, each with a note whether it was referred to. -/
structure Registry where
  /-- The libraries and their notes. -/
  shelves : List (Library × Bool)
deriving Repr

namespace Registry

/-- A registry none of whose libraries was referred to. -/
def ofLibraries (libraries : List Library) : Registry := ⟨libraries.map fun lib => (lib, false)⟩

/-- The libraries every compilation starts from. -/
def standard : Registry := ofLibraries [⟨Path.ofDotted "cds.hana", hanaSource⟩]

/-- The type a dotted name stands for in the first library that provides
it. -/
def find? (r : Registry) (qualified : String) : Option LibraryType :=
  match r.shelves.find? fun shelf => shelf.1.provides qualified with
  | none => none
  | some (lib, _) => some ⟨lib.path, Naming.lastSegment qualified⟩

/-- Notes the first library that provides a dotted name. -/
def markIn (qualified : String) : List (Library × Bool) → List (Library × Bool)
  | [] => []
  | (lib, used) :: rest =>
      if lib.provides qualified then (lib, true) :: rest else (lib, used) :: markIn qualified rest

/-- Notes that a dotted name was referred to. -/
def mark (r : Registry) (qualified : String) : Registry := ⟨markIn qualified r.shelves⟩

/-- Notes dotted names one after the other. -/
def markAll (r : Registry) (names : List String) : Registry := names.foldl mark r

/-- The libraries that were referred to, in order. -/
def referenced (r : Registry) : List Library := (r.shelves.filter (·.2)).map (·.1)

end Registry

end SchemaTypes
