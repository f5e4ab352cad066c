import SchemaTypes.Code.Block
import SchemaTypes.Types.Info

/-!
# Properties

How the property of a class is declared.  A property whose type is an
anonymous structure with members is declared in one of two ways.  The flat
mode declares a property for every leaf of the structure, named by the path to
it.  The structured mode declares one property and the members in a block
below it.  Any other property is one line.
-/

namespace SchemaTypes

/-- How properties are declared. -/
structure PropertyStyle where
  /-- What stands before the outermost name. -/
  modifier : String
  /-- Whether properties are optional. -/
  optional : Bool
deriving DecidableEq, Repr

namespace PropertyStyle

/-- The name of a property with what stands around it. -/
def opening (style : PropertyStyle) (name : String) : String :=
  style.modifier ++ Naming.propertyKey name ++ separator style.optional ++ " "

/-- The style of members in a block. -/
def nested (style : PropertyStyle) : PropertyStyle := { style with modifier := "" }

/-- A property in one line. -/
def plain (style : PropertyStyle) (name type : String) (notNull : Bool) : Code :=
  .line (style.opening name ++ nullable notNull type ++ ";")

/-- The last line of a block of members. -/
def blockEnd (notNull : Bool) : String := if notNull then "\x7d;" else "\x7d | null;"

end PropertyStyle

namespace TypeInfo

mutual

/-- A property in the flat mode.  `type` is its finished type. -/
def flatProperty (c : Config) (style : PropertyStyle) (name type : String) : TypeInfo → List Code
  | .inline _ (m :: ms) => flatMembers c style name (m :: ms)
  | info => [style.plain name type info.notNull]

/-- The properties of the members of a structure in the flat mode. -/
def flatMembers (c : Config) (style : PropertyStyle) (name : String) :
    List (String × TypeInfo) → List Code
  | [] => []
  | (member, info) :: rest =>
      flatProperty c style (name ++ "_" ++ member) (info.text c) info ++
        flatMembers c style name rest

end

mutual

/-- A property in the structured mode.  `type` is its finished type. -/
def nestedProperty (c : Config) (style : PropertyStyle) (name type : String) : TypeInfo → Code
  | .inline notNull (m :: ms) =>
      .block (style.opening name ++ "\x7b") (nestedMembers c style.nested (m :: ms))
        (PropertyStyle.blockEnd notNull)
  | info => style.plain name type info.notNull

/-- The properties of the members of a structure in the structured mode. -/
def nestedMembers (c : Config) (style : PropertyStyle) : List (String × TypeInfo) → List Code
  | [] => []
  | (member, info) :: rest =>
      nestedProperty c style member (info.text c) info :: nestedMembers c style rest

end

/-- A property in the mode of the options. -/
def propertyCode (c : Config) (style : PropertyStyle) (name type : String) (info : TypeInfo) :
    List Code :=
  match c.inlineMode with
  | .flat => flatProperty c style name type info
  | .structured => [nestedProperty c style name type info]

end TypeInfo

end SchemaTypes
