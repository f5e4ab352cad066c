import SchemaTypes.Plan.Operation

/-!
# Entities, aspects and structured types

A definition with elements gives a function that adds its properties to a base
class, and the classes built from it.  Inherited elements are left out, since
the functions of the ancestors add them.  A managed association to one is
followed by the foreign keys it contributes, unless an element of that name is
declared.

An enum that is written in place gets a constant of its own, and the class a
static member for it.  A member that every class has, or inherits from
functions, is not replaced.
-/

namespace SchemaTypes

/-- The static members that every class has, or inherits from functions. -/
def reservedStatics : List String :=
  ["name", "length", "prototype", "caller", "arguments", "kind", "keys", "elements", "actions",
   "drafts"]

/-- An enum that is written in place of the type of a property. -/
structure InlineEnum where
  /-- The property. -/
  property : String
  /-- The name of its constant. -/
  constant : String
  /-- Its members. -/
  members : List EnumMember

/-- What is declared for the elements of a definition. -/
structure ClassBody where
  /-- The properties. -/
  properties : List Property := []
  /-- The enums that are written in place. -/
  enums : List InlineEnum := []

/-- One body and then another. -/
def ClassBody.append (a b : ClassBody) : ClassBody :=
  ⟨a.properties ++ b.properties, a.enums ++ b.enums⟩

/-- The definition the elements of a class belong to. -/
structure ClassOwner where
  /-- Its full name. -/
  full : String
  /-- The name of one. -/
  singular : String
  /-- The namespace it is written in. -/
  home : Path
  /-- The definition. -/
  definition : Definition

namespace ClassOwner

/-- The name under which an element is mentioned. -/
def hint (o : ClassOwner) (element : String) : String :=
  Naming.sanitize (o.singular ++ "_" ++ element)

end ClassOwner

namespace Step

/-! ## Names -/

/-- The name of a definition in a scope of a namespace. -/
def nameIn (parts : NameParts) (name : String) : String :=
  Text.join "." (parts.path.segments ++ parts.scope ++ [name])

/-- Refuses a singular that is the name of another definition.  Reports a
plural that another entity has taken, and takes a free one. -/
def checkCollisions (m : Model) (name : String) (parts : NameParts)
    (names : Naming.Inflection) : Step Unit := do
  let singular := nameIn parts names.singular
  if singular ≠ name ∧ m.defines singular then
    throw (.nameCollision names.singular name singular)
  let space := parts.path.dotted
  let plural := Text.join "." (parts.scope ++ [names.plural])
  match (← get).ownerOf? space plural with
  | none => modify fun s => { s with plurals := s.plurals ++ [⟨space, plural, name⟩] }
  | some owner =>
      if owner ≠ name then
        report (.fail name ("plural '" ++ names.plural ++ "' is already used by '" ++ owner ++ "'"))

/-! ## Properties -/

/-- The foreign key with the flags of its association. -/
def synthetic (element key : Definition) : Definition :=
  { key with key := element.key, notNull := element.notNull, doc := none }

/-- The finding about a foreign key that is declared as something else. -/
def foreignKeyFinding (o : ClassOwner) (property foreignKey : String) : Diagnostic :=
  .fail o.full ("foreign key '" ++ foreignKey ++ "' of association '" ++ property ++
    "' collides with a declared element and is not emitted")

/-- The properties for the foreign keys of an association. -/
def foreignKeyProperties (m : Model) (o : ClassOwner) (property : String) (element : Definition) :
    KeyElements → Step (List Property)
  | [] => pure []
  | (suffix, key) :: rest => do
      let name := property ++ "_" ++ suffix
      match (m.allElements o.definition).get? name with
      | some declared =>
          if declared.noteText? Definition.foreignKeyNote ≠ some property then
            report (foreignKeyFinding o property name)
          foreignKeyProperties m o property element rest
      | none =>
          let type ← resolve o.home fun site => m.resolve site (synthetic element key) (o.hint name)
          let others ← foreignKeyProperties m o property element rest
          pure (⟨name, none, element.key, true, type⟩ :: others)

/-- The properties for the foreign keys that an element contributes. -/
def foreignKeysOf (m : Model) (o : ClassOwner) (property : String) (element : Definition) :
    Step (List Property) := do
  let association ← ofExcept (m.chase element)
  if association.isManagedToOne then
    let keys ← ask (m.foreignKeys association)
    foreignKeyProperties m o property element keys
  else pure []

/-- The enum that is written in place of a type, if it is one. -/
def inlineEnum (property hint : String) (type : TypeInfo) (element : Definition) :
    List InlineEnum :=
  match type, element.values with
  | .enumeration .., some entries => [⟨property, hint, EnumMember.ofEntries entries⟩]
  | _, _ => []

/-- What is declared for one element. -/
def elementBody (m : Model) (o : ClassOwner) (property : String) (element : Definition) :
    Step ClassBody := do
  let hint := o.hint property
  let type ← resolve o.home fun site => m.resolve site element hint
  let foreignKeys ← foreignKeysOf m o property element
  pure ⟨⟨property, element.doc, element.key, false, type⟩ :: foreignKeys,
    inlineEnum property hint type element⟩

/-- What is declared for elements, without those that are inherited. -/
def bodyOf (m : Model) (o : ClassOwner) : Table Definition → Step ClassBody
  | [] => pure {}
  | (property, element) :: rest =>
      if m.isInherited o.definition property then bodyOf m o rest
      else do
        let first ← elementBody m o property element
        let others ← bodyOf m o rest
        pure (first.append others)

/-- The included definitions. -/
def ancestors (m : Model) (home : Path) : List String → Step (List UserDefined)
  | [] => pure []
  | name :: rest => do
      let u ← resolve home fun site => m.resolveDefinition site name
      let others ← ancestors m home rest
      pure (u :: others)

/-! ## Emissions -/

/-- The function that adds the properties of a definition, and the enums that
are written in place. -/
def aspect (m : Model) (o : ClassOwner) (kind : Kind) : Step (Aspect × List InlineEnum) := do
  let ancestors ← ancestors m o.home o.definition.ancestors
  let body ← within o.full (bodyOf m o o.definition.ownElements)
  let actions ← boundActions m o.home o.full (o.definition.actions.getD [])
  let constants := body.enums.filterMap fun e =>
    if reservedStatics.contains e.property then none else some (e.property, e.constant)
  pure (⟨o.singular, o.definition.doc, kind, ancestors, body.properties, constants, actions⟩,
    body.enums)

/-- The classes of a definition. -/
def classes (name : String) (d : Definition) (kind : Kind) (names : Naming.Inflection)
    (drafts : Bool) : List Declaration :=
  .singularClass names.singular d.doc name drafts ::
    if kind = .entity then [.pluralClass names.plural names.singular name drafts] else []

/-- The section of a definition: aspects have one of their own. -/
def structureSection (kind : Kind) (scope : List String) : Section :=
  if kind = .aspect ∧ scope = [] then .aspects else .ofScope scope

/-- The record of an entity in the runtime stub. -/
def entityRecord (kind : Kind) (parts : NameParts) (names : Naming.Inflection) :
    List InflectionRecord :=
  if kind = .entity then [⟨parts.scope, names.singular, names.plural, parts.name⟩] else []

/-- The constant of an enum that is written in place. -/
def InlineEnum.placement (e : InlineEnum) : Placement :=
  ⟨.enums, [.constants e.constant none e.members]⟩

/-- The constant of an enum in the runtime stub. -/
def InlineEnum.stub (e : InlineEnum) : EnumStub := ⟨e.constant, EnumMember.literals e.members⟩

/-- The emission of an entity, an aspect or a structured type. -/
def structured (m : Model) (name : String) (d : Definition) (kind : Kind) : Step Emission := do
  let parts := m.nameParts name
  let (names, issues) := m.inflectionWithIssues parts
  for issue in issues do
    report (.warn name issue.describe)
  if kind = .entity then
    checkCollisions m name parts names
  let (a, enums) ← aspect m ⟨name, names.singular, parts.path, d⟩ kind
  let drafts := kind = .entity ∧ (← get).isDraftEnabled name
  pure {
    path := parts.path
    placements := enums.map InlineEnum.placement ++
      [⟨structureSection kind parts.scope, .aspect a :: classes name d kind names drafts⟩]
    inflections := entityRecord kind parts names
    enumStubs := enums.map InlineEnum.stub }

end Step

end SchemaTypes
