import SchemaTypes.Library.Basic
import SchemaTypes.Model.Alias
import SchemaTypes.Model.Name
import SchemaTypes.Types.Info
import SchemaTypes.Types.Resolution

/-!
# Resolving the type of an element

An element is an array if it states its items, an enum if it lists values over
a predefined type, and else what its type says.  Without a type it is a
structure.  With a path it refers to an element of a definition.  With a name
it is, in this order: a reference with a colon, a container, a predefined type,
the definition around it, a definition of the model, an element of a
definition, or a library type.

Arrays and structures may be nested to `maxDepth`.  The resolver counts the
levels that are left.
-/

namespace SchemaTypes

/-- Where types are resolved. -/
structure Site where
  /-- The namespace of the file the types are written in. -/
  home : Path
  /-- The definition around the types, if there is one. -/
  current : Option String := none
  /-- The libraries types are looked up in. -/
  libraries : Registry := .standard

namespace Site

/-- Whether a name is that of the definition around the types. -/
def isCurrent (site : Site) (name : String) : Bool := site.current == some name

/-- Where a definition stands as seen from the file.  Its namespace is imported
where it is another one. -/
def place (site : Site) (n : NameParts) : Resolution Place :=
  let imported := !n.path.isHere site.home
  let found : Place := ⟨n.path, n.scope, imported⟩
  if imported then (Resolution.require n.path).andThen fun _ => .found found
  else .found found

end Site

namespace Model

open Resolution

/-! ## Named types -/

/-- A definition of the model, with elements to walk through.  `hint` names
the element in the cause of a failure. -/
def resolveUserDefined (m : Model) (site : Site) (name : String) (access : List String)
    (reference : Bool) (hint : String) : Resolution UserDefined :=
  match m.find? name with
  | none => refuse (.unresolvedType name hint)
  | some d =>
      let parts := m.nameParts name
      (site.place parts).andThen fun place =>
        found ⟨name, place, m.inflection parts, d.kind, access, reference⟩

/-- A definition itself, as seen from the file. -/
def resolveDefinition (m : Model) (site : Site) (name : String) : Resolution UserDefined :=
  m.resolveUserDefined site name [] false name

/-- A type that is a definition, with elements to walk through. -/
def resolveAccess (m : Model) (site : Site) (name : String) (access : List String)
    (reference : Bool) (hint : String) (notNull : Bool) : Resolution TypeInfo :=
  (m.resolveUserDefined site name access reference hint).andThen fun u =>
    found (.userDefined notNull u)

/-- A reference with a colon between the definition and the path. -/
def resolveColon (m : Model) (site : Site) (text hint : String) (notNull : Bool) :
    Resolution TypeInfo :=
  match Text.splitOn ':' text with
  | [name, access] =>
      m.resolveAccess site name (Text.splitOn '.' access) true hint notNull
  | _ => refuse (.malformedReference text)

/-- An association to its target. -/
def resolveAssociation (m : Model) (site : Site) (container : Container) (element : Definition)
    (hint : String) (notNull : Bool) : Resolution TypeInfo :=
  match element.target with
  | none => refuse (.unresolvedType "association without target" hint)
  | some target =>
      (m.resolveUserDefined site target [] false hint).andThen fun u =>
        found (.association (notNull || element.isToMany) container element.isToMany
          (site.isCurrent target) u)

/-- The definition around the types. -/
def resolveSelf (m : Model) (site : Site) (hint : String) (notNull : Bool) : Resolution TypeInfo :=
  match site.current with
  | none => refuse (.unresolvedType Definition.selfName hint)
  | some name =>
      let parts := m.nameParts name
      (site.place parts).andThen fun place =>
        found (.selfReference notNull place (m.inflection parts).singular)

/-- A type of a library. -/
def resolveLibrary (site : Site) (name hint : String) (notNull : Bool) : Resolution TypeInfo :=
  match site.libraries.find? name with
  | none => refuse (.unresolvedType name hint)
  | some type =>
      (useLibrary name).andThen fun _ =>
        (require type.path).andThen fun _ => found (.library notNull type.path type.name)

/-- A type that is stated by its name. -/
def resolveName (m : Model) (site : Site) (name : String) (element : Definition) (hint : String)
    (notNull : Bool) : Resolution TypeInfo :=
  if name.toList.contains ':' then m.resolveColon site name hint notNull
  else
    match Container.ofName? name with
    | some container => m.resolveAssociation site container element hint notNull
    | none =>
        match builtin? name with
        | some type => found (.builtin notNull type)
        | none =>
            if name = Definition.selfName then m.resolveSelf site hint notNull
            else if m.defines name then m.resolveAccess site name [] false hint notNull
            else
              let parts := m.nameParts name
              if parts.access.isEmpty then resolveLibrary site name hint notNull
              else m.resolveAccess site parts.definitionName parts.access false hint notNull

/-! ## Elements -/

/-- Whether the values of an enum are written in place: its type is predefined
or missing. -/
def isPlainEnum (element : Definition) : Bool :=
  element.isEnum &&
    match element.type with
    | none => true
    | some (.name name) => isBuiltin name
    | some (.path _) => false

/-- An enum.  Only that of the element itself gets a constant of its own. -/
def enumInfo (element : Definition) (outermost : Bool) (hint : String) (notNull : Bool) :
    TypeInfo :=
  .enumeration notNull (outermost && hint != "") hint (Literal.ofEntries (element.values.getD []))

/-- The type of an element, with the levels that are left.  `hint` names the
element. -/
def resolveWithin (m : Model) (site : Site) :
    Nat → (outermost : Bool) → Definition → (hint : String) → Resolution TypeInfo
  | 0, _, _, hint => refuse (.recursionLimit hint maxDepth)
  | levels + 1, outermost, element, hint =>
      let notNull := element.notNull || element.key
      match element.items with
      | some items =>
          (m.resolveWithin site levels false items hint).andThen fun item =>
            found (.array notNull item)
      | none =>
          if isPlainEnum element then found (enumInfo element outermost hint notNull)
          else
            match element.type with
            | none =>
                (forEntries (fun name member =>
                  m.resolveWithin site levels false member (hint ++ "_" ++ name))
                  element.ownElements).andThen fun members => found (.inline notNull members)
            | some (.path []) => refuse (.malformedReference "")
            | some (.path (head :: access)) =>
                m.resolveAccess site head access true hint notNull
            | some (.name name) => m.resolveName site name element hint notNull

/-- The type of an element.  `hint` names it: an enum is declared under this
name, and a failure mentions it. -/
def resolve (m : Model) (site : Site) (element : Definition) (hint : String) :
    Resolution TypeInfo :=
  m.resolveWithin site (maxDepth + 1) true element hint

end Model

end SchemaTypes
