import SchemaTypes.Model.Basic
import SchemaTypes.Naming.Inflection
import SchemaTypes.Path.Basic

/-!
# Full names

A full name such as `bookshop.Books.author.name` says four things at once: a
namespace (`bookshop`), a scope of enclosing definitions (none here), the name
of a definition (`Books`), and elements to walk through (`author`, `name`).
The model tells where one ends and the next begins.

* The namespace goes on as long as the segments so far name nothing, a service
  or a context.  The last segment never belongs to it.
* The definition is the longest one that the name starts with.
* The access goes on as long as the segments are elements.

A name that starts with no definition has no access, and its last segment is
taken for the name.
-/

namespace SchemaTypes

/-- The parts of a full name. -/
structure NameParts where
  /-- The full name. -/
  full : String
  /-- The namespace. -/
  path : Path
  /-- The enclosing definitions, outermost first. -/
  scope : List String
  /-- The name within the scope. -/
  name : String
  /-- The elements to walk through. -/
  access : List String
deriving DecidableEq, Repr

/-- The full name of the definition, without the access. -/
def NameParts.definitionName (n : NameParts) : String :=
  Text.join "." (n.path.segments ++ n.scope ++ [n.name])

namespace Model

/-! ## Taking a name apart -/

/-- Whether a namespace can go on after the segments so far. -/
def continuesNamespace (m : Model) (segments : List String) : Bool :=
  match m.kindOf? (Text.join "." segments) with
  | some kind => kind.isNamespaceLike
  | none => true

/-- The segments of the namespace and those after it, given the segments
already taken into it. -/
def splitNamespace (m : Model) (taken : List String) : List String → List String × List String
  | [] => (taken, [])
  | [last] => (taken, [last])
  | segment :: next :: rest =>
      if m.continuesNamespace (taken ++ [segment]) then
        m.splitNamespace (taken ++ [segment]) (next :: rest)
      else (taken, segment :: next :: rest)

/-- The number of segments of the longest definition, up to a bound. -/
def definedLength? (m : Model) (taken rest : List String) : Nat → Option Nat
  | 0 => none
  | n + 1 =>
      if m.defines (Text.join "." (taken ++ rest.take (n + 1))) then some (n + 1)
      else m.definedLength? taken rest n

/-- Where an element leads: to the target of an association, or into the
element itself. -/
def stepInto (m : Model) (element : Definition) : Definition :=
  (element.target.bind m.find?).getD element

/-- The segments up to the first that is no element. -/
def elementPath (m : Model) (d : Definition) : List String → List String
  | [] => []
  | segment :: rest =>
      match (m.allElements d).get? segment with
      | none => []
      | some element => segment :: m.elementPath (m.stepInto element) rest

/-- The segments after a definition that walk through its elements. -/
def accessPath (m : Model) (definition : String) (trailing : List String) : List String :=
  match m.find? definition with
  | none => []
  | some d => m.elementPath d trailing

/-- The scope and the name that segments stand for. -/
def scopeAndName (segments : List String) : List String × String :=
  (segments.dropLast, segments.getLast?.getD "")

/-- The parts of a full name. -/
def nameParts (m : Model) (full : String) : NameParts :=
  let (space, rest) := m.splitNamespace [] (Text.splitOn '.' full)
  let length? := m.definedLength? space rest rest.length
  let (scope, name) := scopeAndName (rest.take (length?.getD rest.length))
  let access :=
    match length? with
    | none => []
    | some n => m.accessPath (Text.join "." (space ++ rest.take n)) (rest.drop n)
  ⟨full, ⟨space⟩, scope, name, access⟩

/-- The parts of the name of the enclosing definition. -/
def parent? (m : Model) (n : NameParts) : Option NameParts :=
  if n.scope.isEmpty then none
  else some (m.nameParts (Text.join "." (n.path.segments ++ n.scope)))

/-! ## Inflected names -/

/-- Whether definitions of a kind have one name for all uses. -/
def isUninflected (kind : Option Kind) : Bool :=
  kind == some .type || kind == some .aspect || kind == some .event

/-- The names of the definition, and what had to be mended. -/
def inflectionWithIssues (m : Model) (n : NameParts) :
    Naming.Inflection × List Naming.NamingIssue :=
  match m.find? n.definitionName with
  | none => (.uninflected n.name, [])
  | some d =>
      if isUninflected d.kind then (.uninflected n.name, [])
      else Naming.derive n.name (d.noteText? Definition.singularNote)
        (d.noteText? Definition.pluralNote)

/-- The names of the definition. -/
def inflection (m : Model) (n : NameParts) : Naming.Inflection := (m.inflectionWithIssues n).1

end Model

end SchemaTypes
