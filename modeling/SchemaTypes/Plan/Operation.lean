import SchemaTypes.Declaration.Basic
import SchemaTypes.Plan.Emission
import SchemaTypes.Plan.Session

/-!
# Operations, events and services

An action or a function that stands on its own gives a constant.  One that is
bound to an entity is listed with the entity.  The class of a service lists
the operations of its namespace.

Parameters that stand for the definition around the operation are left out.
In the result of a bound operation the definition around it is the entity.
-/

namespace SchemaTypes

/-- The definition with another type name. -/
def Definition.withType (d : Definition) (name : String) : Definition :=
  { d with type := some (.name name) }

/-- The result of an operation that is bound to an entity.  The entity takes
the place of the definition around the operation. -/
def Definition.boundTo (d : Definition) (entity : String) : Definition :=
  if d.isSelfReference then
    match d.items with
    | some items => { d with items := some (items.withType entity) }
    | none => d.withType entity
  else d

namespace Step

/-- The parameters of an operation. -/
def parameters (m : Model) (home : Path) (operation : String) :
    Table Definition → Step (List Parameter)
  | [] => pure []
  | (name, element) :: rest => do
      if element.isSelfReference then parameters m home operation rest
      else
        let hint := Naming.sanitize (operation ++ "_" ++ name)
        let type ← resolve home fun site => m.resolve site element hint
        let others ← parameters m home operation rest
        pure (⟨name, element.isMandatory, element.key, type⟩ :: others)

/-- The result of an operation, if it has one. -/
def result (m : Model) (home : Path) (operation : String) (entity? : Option String)
    (d : Definition) : Step (Option TypeInfo) :=
  match d.returns with
  | none => pure none
  | some returns => do
      let bound := (entity?.map returns.boundTo).getD returns
      let type ← resolve home fun site => m.resolve site bound (operation ++ "_return")
      pure (some type)

/-- Whether the parameters of an operation can only be passed by name. -/
def byNameOnly (params : Table Definition) : Bool :=
  params.any fun (_, p) => !p.isSelfReference && (p.note? Definition.byNameNote).isSome

/-- What an operation takes and gives. -/
def signature (m : Model) (home : Path) (operation : String) (entity? : Option String)
    (d : Definition) : Step Signature := do
  let params := d.params.getD []
  let parameters ← parameters m home operation params
  let result ← result m home operation entity? d
  pure ⟨parameters, result, byNameOnly params, d.isKind .function⟩

/-- The operations that are bound to an entity. -/
def boundActions (m : Model) (home : Path) (entity : String) :
    Table Definition → Step (List BoundAction)
  | [] => pure []
  | (name, d) :: rest => do
      let s ← signature m home name (some entity) d
      let others ← boundActions m home entity rest
      pure (⟨name, d.doc, s⟩ :: others)

/-- Where a definition of a scope goes: to a section of the top level, or into
the namespace of the scope. -/
def sectionFor (topLevel : Section) (scope : List String) : Section :=
  if scope.isEmpty then topLevel else .ofScope scope

/-- The emission of an operation that stands on its own. -/
def operation (m : Model) (name : String) (d : Definition) : Step Emission := do
  let parts := m.nameParts name
  let plain := Naming.sanitize parts.name
  let s ← signature m parts.path plain none d
  pure {
    path := parts.path
    placements := [⟨sectionFor .operations parts.scope, [.operation plain d.doc s]⟩]
    operationNames := [(plain, parts.name)] }

/-- The properties of an event. -/
def eventProperties (m : Model) (home : Path) (event : String) :
    Table Definition → Step (List Property)
  | [] => pure []
  | (name, element) :: rest => do
      let hint := Naming.sanitize (event ++ "_" ++ name)
      let type ← resolve home fun site => m.resolve site element hint
      let others ← eventProperties m home event rest
      pure (⟨name, element.doc, element.key, true, type⟩ :: others)

/-- The emission of an event. -/
def event (m : Model) (name : String) (d : Definition) : Step Emission := do
  let parts := m.nameParts name
  let properties ← eventProperties m parts.path parts.name d.ownElements
  pure {
    path := parts.path
    placements := [⟨.ofScope parts.scope, [.event parts.name d.doc name properties]⟩] }

end Step

/-- The operations of a namespace that are not nested in other definitions. -/
def Model.operationsOf (m : Model) (path : Path) : List String :=
  m.definitions.filterMap fun (name, d) =>
    if d.kind.any Kind.isOperation then
      let parts := m.nameParts name
      if parts.path = path ∧ parts.scope = [] then some parts.name else none
    else none

/-- The emission of a service. -/
def Model.serviceEmission (m : Model) (name : String) : Emission :=
  let path := Path.ofDotted name
  { path
    placements := [⟨.classes, [.service (m.operationsOf path)]⟩]
    service := some name }

end SchemaTypes
