import SchemaTypes.Json.Value

/-!
# Definitions

A definition is a node of the model.  Top-level definitions, elements,
parameters and return types all have this one shape.  Each part is present
only where the document states it.

The predicates at the end say what a definition is: an association, an enum, a
structure, a reference to the definition around it.
-/

namespace SchemaTypes

/-- What a definition declares. -/
inductive Kind
  | entity
  | type
  | aspect
  | service
  | context
  | event
  | action
  | function
  | annotationDef
  | other
deriving DecidableEq, Repr, Inhabited

namespace Kind

/-- The word for a kind. -/
def text : Kind → String
  | .entity => "entity"
  | .type => "type"
  | .aspect => "aspect"
  | .service => "service"
  | .context => "context"
  | .event => "event"
  | .action => "action"
  | .function => "function"
  | .annotationDef => "annotation"
  | .other => "other"

/-- The kinds that have a word of their own. -/
def known : List Kind :=
  [.entity, .type, .aspect, .service, .context, .event, .action, .function, .annotationDef]

/-- The kind a word stands for. -/
def ofText (word : String) : Kind := (known.find? fun k => k.text == word).getD .other

/-- Whether definitions of the kind only contribute a namespace segment. -/
def isNamespaceLike (k : Kind) : Bool := k == .service || k == .context

/-- Whether definitions of the kind can be called. -/
def isOperation (k : Kind) : Bool := k == .action || k == .function

end Kind

/-- The type of an element: a name, or a path into another definition. -/
inductive TypeRef
  | name (text : String)
  | path (segments : List String)
deriving DecidableEq, Repr

/-- A foreign key that an association states. -/
structure ForeignKey where
  /-- The path of the element in the target. -/
  path : List String
  /-- The name of the key, where the model gives one. -/
  asName : Option String
deriving DecidableEq, Repr

/-- What follows the name of the association in the name of a foreign key. -/
def ForeignKey.suffix (k : ForeignKey) : String := k.asName.getD (Text.join "_" k.path)

/-- An entry of an enum. -/
structure EnumEntry where
  /-- Its value, where it is not its own name. -/
  value : Option Json.Value
  /-- Its documentation. -/
  doc : Option String

/-- A node of the model. -/
structure Definition where
  /-- What it declares. -/
  kind : Option Kind := none
  /-- Its type. -/
  type : Option TypeRef := none
  /-- The elements of a structure. -/
  elements : Option (List (String × Definition)) := none
  /-- What the entries of an array are. -/
  items : Option Definition := none
  /-- The operations bound to it. -/
  actions : Option (List (String × Definition)) := none
  /-- The parameters of an operation. -/
  params : Option (List (String × Definition)) := none
  /-- The result of an operation. -/
  returns : Option Definition := none
  /-- The target of an association. -/
  target : Option String := none
  /-- The upper bound of a cardinality. -/
  max : Option Json.Value := none
  /-- The stated foreign keys of an association. -/
  keys : Option (List ForeignKey) := none
  /-- The entries of an enum. -/
  values : Option (Table EnumEntry) := none
  /-- The definitions it includes. -/
  includes : Option (List String) := none
  /-- The condition of an unmanaged association. -/
  condition : Option Json.Value := none
  /-- Whether it is part of the key. -/
  key : Bool := false
  /-- Whether it always has a value. -/
  notNull : Bool := false
  /-- Its documentation. -/
  doc : Option String := none
  /-- Everything else that is said of it. -/
  annotations : Table Json.Value := []

namespace Definition

instance : Inhabited Definition := ⟨{}⟩

/-! ## Parts -/

/-- The name of its type, where the type is a name. -/
def typeName? (d : Definition) : Option String :=
  match d.type with
  | some (.name text) => some text
  | _ => none

/-- The names of the included definitions. -/
def ancestors (d : Definition) : List String := d.includes.getD []

/-- Its own elements. -/
def ownElements (d : Definition) : Table Definition := d.elements.getD []

/-- The value of an annotation. -/
def note? (d : Definition) (name : String) : Option Json.Value := Table.get? d.annotations name

/-- The text of an annotation, where its value is one. -/
def noteText? (d : Definition) (name : String) : Option String :=
  (d.note? name).bind Json.Value.asString?

/-- Whether an annotation is set to true. -/
def noteIsTrue (d : Definition) (name : String) : Bool := (d.note? name).any Json.Value.isTrue

/-! ## Annotations with a meaning -/

/-- Marks the root of a tree of entities that can be drafted. -/
def draftNote : String := "@odata.draft.enabled"

/-- Names the association that a generated foreign key belongs to. -/
def foreignKeyNote : String := "@odata.foreignKey4"

/-- Gives the singular of an entity. -/
def singularNote : String := "@singular"

/-- Gives the plural of an entity. -/
def pluralNote : String := "@plural"

/-- Marks an element that has to be given. -/
def mandatoryNote : String := "@mandatory"

/-- Marks a parameter that can only be passed by name. -/
def byNameNote : String := "@RFC.parameterCategory"

/-! ## What a definition is -/

/-- Whether it is of a kind. -/
def isKind (d : Definition) (k : Kind) : Bool := d.kind == some k

/-- Whether it is a composition. -/
def isComposition (d : Definition) : Bool := d.typeName? == some "cds.Composition"

/-- Whether it is an association of either sort. -/
def isAssociation (d : Definition) : Bool :=
  d.typeName? == some "cds.Association" || d.isComposition

/-- Whether an upper bound lies above one. -/
def boundIsMany : Json.Value → Bool
  | .string s => s == "*"
  | .number (.integer n) => 1 < n
  | _ => false

/-- Whether an association leads to many. -/
def isToMany (d : Definition) : Bool := d.max.any boundIsMany

/-- Whether an association is to one and has no condition.  These are the ones
that have foreign keys. -/
def isManagedToOne (d : Definition) : Bool :=
  d.isAssociation && d.condition.isNone && !d.isToMany

/-- Whether it lists values. -/
def isEnum (d : Definition) : Bool := d.values.any fun entries => !entries.isEmpty

/-- Whether it is a structure. -/
def isStructure (d : Definition) : Bool := d.elements.isSome

/-- Whether it has to be given. -/
def isMandatory (d : Definition) : Bool := d.notNull || d.noteIsTrue mandatoryNote

/-- The type name that stands for the definition around it. -/
def selfName : String := "$self"

/-- Whether its type, or that of its items, stands for the definition around
it. -/
def isSelfReference (d : Definition) : Bool :=
  d.typeName? == some selfName || d.items.any fun item => item.typeName? == some selfName

end Definition

end SchemaTypes
