import SchemaTypes.Types.Property

/-!
# Declarations

What is declared in the type layer of a namespace, as data.  A declaration
holds the names it introduces and the resolved types it mentions, and nothing
of how it is written.  `Declaration.exports` lists the names that are exported.
The layout is in the next module.
-/

namespace SchemaTypes

/-! ## Parts of declarations -/

/-- A property of a class. -/
structure Property where
  /-- Its name. -/
  name : String
  /-- Its documentation. -/
  doc : Option String
  /-- Whether it is part of the key. -/
  keyed : Bool
  /-- Whether an enum is written as a union, since no constant is declared for
  it. -/
  anonymous : Bool
  /-- Its type. -/
  type : TypeInfo

/-- The finished type of a property. -/
def Property.typeText (c : Config) (p : Property) : String :=
  TypeInfo.keyText p.keyed (if p.anonymous then p.type.anonymousText c else p.type.text c)

/-- A parameter of an operation. -/
structure Parameter where
  /-- Its name. -/
  name : String
  /-- Whether it has to be given. -/
  mandatory : Bool
  /-- Whether it is part of the key. -/
  keyed : Bool
  /-- Its type. -/
  type : TypeInfo

/-- The type of a parameter. -/
def Parameter.typeText (c : Config) (p : Parameter) : String :=
  nullable p.type.notNull (TypeInfo.keyText p.keyed (p.type.anonymousText c))

/-- What an operation takes and gives. -/
structure Signature where
  /-- The parameters, without those that stand for the definition around. -/
  parameters : List Parameter
  /-- The type of the result, if there is one. -/
  result : Option TypeInfo
  /-- Whether the parameters can only be passed by name. -/
  byNameOnly : Bool
  /-- Whether it is a function and not an action. -/
  isFunction : Bool

/-- The type of the result of an operation. -/
def Signature.resultText (c : Config) (s : Signature) : String :=
  match s.result with
  | none => "void"
  | some type => nullable type.notNull (type.anonymousText c)

/-- An operation that is bound to an entity. -/
structure BoundAction where
  /-- Its name. -/
  name : String
  /-- Its documentation. -/
  doc : Option String
  /-- What it takes and gives. -/
  signature : Signature

/-- A key of an enum. -/
structure EnumMember where
  /-- The key. -/
  key : String
  /-- Its literal. -/
  literal : String
  /-- Its documentation. -/
  doc : Option String

/-- The members of an enum. -/
def EnumMember.ofEntries (entries : Table EnumEntry) : List EnumMember :=
  entries.map fun (name, entry) => ⟨name, Literal.ofEntry name entry, entry.doc⟩

/-- The literals of members, by key. -/
def EnumMember.literals (members : List EnumMember) : Table String :=
  members.map fun m => (m.key, m.literal)

/-- The function that adds the properties of a definition to a base class. -/
structure Aspect where
  /-- The name of one. -/
  singular : String
  /-- Its documentation. -/
  doc : Option String
  /-- What it declares. -/
  kind : Kind
  /-- The included definitions, first one innermost. -/
  ancestors : List UserDefined
  /-- The properties. -/
  properties : List Property
  /-- The properties that have a constant, with its name. -/
  constants : List (String × String)
  /-- The operations bound to it. -/
  actions : List BoundAction

/-! ## Declarations -/

/-- What is declared in a type layer. -/
inductive Declaration
  /-- A function that adds properties to a class. -/
  | aspect (a : Aspect)
  /-- The class of one.  `drafts` says that it can be drafted. -/
  | singularClass (singular : String) (doc : Option String) (full : String) (drafts : Bool)
  /-- The class of many. -/
  | pluralClass (plural singular full : String) (drafts : Bool)
  /-- A constant and a type for an enum. -/
  | constants (name : String) (doc : Option String) (members : List EnumMember)
  /-- Another name for a type. -/
  | typeAlias (name : String) (doc : Option String) (type : TypeInfo)
  /-- A constant for an operation that is not bound. -/
  | operation (name : String) (doc : Option String) (signature : Signature)
  /-- The class of an event. -/
  | event (name : String) (doc : Option String) (full : String) (properties : List Property)
  /-- The class of a service, with the names of its operations. -/
  | service (operations : List String)

/-- What sort of name is exported. -/
inductive ExportSort
  | classType
  | typeAlias
  | constant
  | declaredConstant
  | function
deriving DecidableEq, Repr

/-- The name of the function that adds the properties of a definition. -/
def aspectName (singular : String) : String := "_" ++ singular ++ "Aspect"

/-- The names a declaration exports. -/
def Declaration.exports : Declaration → List (ExportSort × String)
  | .aspect a => [(.function, aspectName a.singular)]
  | .singularClass singular .. => [(.classType, singular)]
  | .pluralClass plural .. => [(.classType, plural)]
  | .constants name .. => [(.constant, name), (.typeAlias, name)]
  | .typeAlias name .. => [(.typeAlias, name)]
  | .operation name .. => [(.declaredConstant, name)]
  | .event name .. => [(.classType, name)]
  | .service _ => []

end SchemaTypes
