import SchemaTypes.Config
import SchemaTypes.Model.Definition
import SchemaTypes.Naming.Inflection
import SchemaTypes.Path.Basic
import SchemaTypes.Types.Builtin
import SchemaTypes.Types.Literal

/-!
# Resolved types

A resolved type says what the type of an element is, as seen from the file it
is written in.  It does not depend on the options.  `TypeInfo.text` writes it
under given options, and `TypeInfo.inflection` gives its names.

A named definition is written with a qualifier: the import alias where it
stands in another namespace, and the scopes around it.  Types nest in two
places only: in the items of an array and in the members of a structure.
-/

namespace SchemaTypes

open Naming (Inflection)

/-! ## What a type can be -/

/-- Where a definition stands, as seen from a file. -/
structure Place where
  /-- Its namespace. -/
  path : Path
  /-- The enclosing definitions. -/
  scope : List String
  /-- Whether its namespace is another one than that of the file. -/
  imported : Bool
deriving DecidableEq, Repr

/-- What stands before the name of a definition. -/
def Place.qualifier (p : Place) : String :=
  (if p.imported then p.path.identifier ++ "." else "") ++
    String.join (p.scope.map fun segment => segment ++ ".")

/-- A definition of the model that is used as a type. -/
structure UserDefined where
  /-- Its full name. -/
  full : String
  /-- Where it stands. -/
  place : Place
  /-- Its names, without a qualifier. -/
  names : Inflection
  /-- What it declares. -/
  kind : Option Kind
  /-- The elements that are walked through. -/
  access : List String
  /-- Whether it is referred to as the type of something else. -/
  reference : Bool
deriving DecidableEq, Repr

namespace UserDefined

/-- The qualified name of one. -/
def singular (u : UserDefined) : String := u.place.qualifier ++ u.names.singular

/-- The qualified name of many. -/
def plural (u : UserDefined) : String := u.place.qualifier ++ u.names.plural

end UserDefined

/-- A resolved type.  `notNull` says that there is always a value. -/
inductive TypeInfo
  /-- A predefined type. -/
  | builtin (notNull : Bool) (type : BuiltinType)
  /-- An association.  `toSelf` says that it leads to the definition around it. -/
  | association (notNull : Bool) (container : Container) (many toSelf : Bool) (target : UserDefined)
  /-- A definition of the model, or elements of it. -/
  | userDefined (notNull : Bool) (definition : UserDefined)
  /-- A type of a library. -/
  | library (notNull : Bool) (path : Path) (name : String)
  /-- The definition around it. -/
  | selfReference (notNull : Bool) (place : Place) (name : String)
  /-- An anonymous structure. -/
  | inline (notNull : Bool) (members : List (String × TypeInfo))
  /-- An enum.  `named` says that a constant of the given name is declared for it. -/
  | enumeration (notNull named : Bool) (name : String) (literals : Table String)
  /-- An array. -/
  | array (notNull : Bool) (item : TypeInfo)
deriving Inhabited

namespace TypeInfo

/-- Whether there is always a value. -/
def notNull : TypeInfo → Bool
  | .builtin b _ | .association b .. | .userDefined b _ | .library b .. | .selfReference b ..
  | .inline b _ | .enumeration b .. | .array b _ => b

/-- Whether it is a predefined type or a container. -/
def isBuiltin : TypeInfo → Bool
  | .builtin .. | .association .. => true
  | _ => false

/-- Whether it is declared in place. -/
def isInline : TypeInfo → Bool
  | .inline .. | .enumeration .. => true
  | _ => false

/-- Whether it refers to the type of something else. -/
def isReference : TypeInfo → Bool
  | .userDefined _ u => u.reference
  | _ => false

/-- Whether it stands for many values. -/
def isArray : TypeInfo → Bool
  | .array .. => true
  | .association _ _ many .. => many
  | _ => false

/-- The name without a qualifier, of a type that has one. -/
def plainName? : TypeInfo → Option String
  | .userDefined _ u => some u.names.singular
  | .library _ _ name => some name
  | .selfReference _ _ name => some name
  | _ => none

/-! ## The text of a type -/

end TypeInfo

/-- A type that is also null, unless there is always a value. -/
def nullable (notNull : Bool) (text : String) : String :=
  if notNull then text else text ++ " | null"

/-- What stands between a property and its type. -/
def separator (optional : Bool) : String := if optional then "?:" else ":"

/-- An object type in one line. -/
def objectType (fields : List String) : String :=
  if fields.isEmpty then "\x7b\x7d" else "\x7b " ++ Text.join "; " fields ++ " \x7d"

/-- The access to an element, segment by segment or by its flattened name. -/
def InlineMode.access (mode : InlineMode) (path : List String) : String :=
  match mode with
  | .flat => "[" ++ Naming.quote (Text.join "_" path) ++ "]"
  | .structured => String.join (path.map fun segment => "[" ++ Naming.quote segment ++ "]")

/-- The text of a definition that is used as a type. -/
def UserDefined.text (c : Config) (u : UserDefined) : String :=
  if u.access.isEmpty then u.singular
  else "__.DeepRequired<" ++ u.singular ++ ">" ++ c.inlineMode.access u.access

/-- What the container of an association holds. -/
def associationArgument (many toSelf : Bool) (target : UserDefined) : String :=
  match toSelf, many with
  | true, false => "this"
  | true, true => "this[]"
  | false, false => target.singular
  | false, true => target.plural

namespace TypeInfo

mutual

/-- The text of a type. -/
def text (c : Config) : TypeInfo → String
  | .builtin _ type => type.text c.stringNumbers
  | .association _ container many toSelf target =>
      container.wrapper many ++ "<" ++ associationArgument many toSelf target ++ ">"
  | .userDefined _ u => u.text c
  | .library _ path name => path.identifier ++ "." ++ name
  | .selfReference _ place name => place.qualifier ++ name
  | .inline _ members => objectType (fieldTexts c c.optionalProperties members)
  | .enumeration _ named name literals => if named then name else Literal.union literals
  | .array _ item => "Array<" ++ text c item ++ ">"

/-- The texts of the members of a structure. -/
def fieldTexts (c : Config) (optional : Bool) : List (String × TypeInfo) → List String
  | [] => []
  | (name, info) :: rest =>
      (Naming.propertyKey name ++ separator optional ++ " " ++ nullable info.notNull (text c info))
        :: fieldTexts c optional rest

end

/-- The object type of the members of a structure. -/
def membersText (c : Config) (optional : Bool) (members : List (String × TypeInfo)) : String :=
  objectType (fieldTexts c optional members)

/-- The names of a type. -/
def inflection (c : Config) (info : TypeInfo) : Inflection :=
  let text := info.text c
  match info with
  | .userDefined _ u => ⟨text, u.singular, u.plural⟩
  | .inline .. => ⟨text, text, "Array<" ++ text ++ ">"⟩
  | .array _ item => ⟨text, item.text c, text⟩
  | _ => .uninflected text

/-- The type of a property that is part of the key. -/
def keyText (keyed : Bool) (text : String) : String :=
  if keyed then "__.Key<" ++ text ++ ">" else text

/-- The text of the type of a property.  `keyed` says that the property is part
of the key. -/
def propertyText (c : Config) (keyed : Bool) (info : TypeInfo) : String :=
  keyText keyed (info.text c)

/-- The text where no constant can be declared for an enum. -/
def anonymousText (c : Config) : TypeInfo → String
  | .enumeration _ _ _ literals => Literal.union literals
  | info => info.text c

end TypeInfo

end SchemaTypes
