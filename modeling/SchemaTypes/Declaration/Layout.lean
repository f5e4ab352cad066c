import SchemaTypes.Declaration.Basic
import SchemaTypes.Text.Blank
import SchemaTypes.Text.Lines

/-!
# The layout of declarations

How each declaration is written.  A documentation comment stands before what
it documents.  The end of a comment cannot occur inside one: `*/` in the text
is written with a backslash between the two characters.
-/

namespace SchemaTypes

/-! ## Documentation -/

/-- The text with `*\/` for every `*/`. -/
def escapeCommentEnd : List Char → List Char
  | [] => []
  | '*' :: '/' :: rest => '*' :: '\\' :: '/' :: escapeCommentEnd rest
  | c :: rest => c :: escapeCommentEnd rest

/-- A line of a documentation comment. -/
def docLine (line : String) : String :=
  Text.trimEnd (" * " ++ String.ofList (escapeCommentEnd line.toList))

/-- A documentation comment. -/
def docComment (doc : String) : List Code :=
  .line "/**" :: (Text.lines doc).map (fun line => .line (docLine line)) ++ [.line " */"]

/-- A documentation comment, if there is documentation. -/
def docCode (doc : Option String) : List Code := (doc.map docComment).getD []

/-! ## Parts of declarations -/

/-- The statement that sets a property of a class. -/
def defineProperty (class_ property value : String) : Code :=
  .line ("Object.defineProperty(" ++ class_ ++ ", '" ++ property ++ "', \x7b value: " ++ value ++
    " \x7d)")

/-- A property with its documentation. -/
def Property.code (c : Config) (style : PropertyStyle) (p : Property) : List Code :=
  docCode p.doc ++ p.type.propertyCode c style p.name (p.typeText c)

/-- A key of an enum with its documentation. -/
def EnumMember.code (m : EnumMember) : List Code :=
  docCode m.doc ++ [.line (Naming.propertyKey m.key ++ ": " ++ m.literal ++ ",")]

/-- A constant and a type for an enum. -/
def enumCode (name : String) (members : List EnumMember) : List Code :=
  [.block ("export const " ++ name ++ " = \x7b") (members.flatMap EnumMember.code) "\x7d as const;",
   .line ("export type " ++ name ++ " = " ++ Literal.union (EnumMember.literals members) ++ ";")]

/-! ## Operations -/

namespace Signature

/-- A parameter that is passed by position. -/
def positional (c : Config) (p : Parameter) : String :=
  Naming.sanitize p.name ++ ": " ++ p.typeText c

/-- A parameter that is passed by name. -/
def field (c : Config) (p : Parameter) : String :=
  Naming.propertyKey p.name ++ separator (!p.mandatory) ++ " " ++ p.typeText c

/-- The binding of a parameter that is passed by name. -/
def binding (p : Parameter) : String :=
  if Naming.isIdentifier p.name then p.name
  else Naming.quote p.name ++ ": " ++ Naming.sanitize p.name

/-- The object type of all parameters. -/
def parameterType (c : Config) (s : Signature) : String :=
  objectType (s.parameters.map (field c))

/-- The result, now or later. -/
def callResult (c : Config) (s : Signature) : String :=
  s.resultText c ++ " | Promise<" ++ s.resultText c ++ ">"

/-- The call with parameters by position. -/
def positionalCall (c : Config) (s : Signature) : String :=
  "(" ++ Text.join ", " (s.parameters.map (positional c)) ++ "): " ++ s.callResult c ++ ";"

/-- The call with parameters by name. -/
def namedCall (c : Config) (s : Signature) : String :=
  "(\x7b " ++ Text.join ", " (s.parameters.map binding) ++ " \x7d: " ++ s.parameterType c ++ "): " ++
    s.callResult c ++ ";"

/-- The members of the type of an operation. -/
def members (c : Config) (s : Signature) : List String :=
  (if s.byNameOnly then [] else [s.positionalCall c]) ++
  (if s.parameters.isEmpty then [] else [s.namedCall c]) ++
  ["__parameters: " ++ s.parameterType c ++ ";",
   "__returns: " ++ s.resultText c ++ ";",
   "readonly kind: '" ++ (if s.isFunction then "function" else "action") ++ "';"]

/-- The members in lines of their own. -/
def code (c : Config) (s : Signature) : List Code := (s.members c).map .line

end Signature

/-- A bound operation with its documentation. -/
def BoundAction.code (c : Config) (a : BoundAction) : List Code :=
  docCode a.doc ++ [.block (Naming.propertyKey a.name ++ ": \x7b") (a.signature.code c) "\x7d;"]

/-! ## Aspects and classes -/

namespace Aspect

/-- The type parameter and the parameter of the function. -/
def signatureText : String := "<TBase extends new (...args: any[]) => object>(Base: TBase)"

/-- The style of properties of a class. -/
def style (c : Config) : PropertyStyle := ⟨"declare ", c.optionalProperties⟩

/-- The base class with the properties of all ancestors added. -/
def base (ancestors : List UserDefined) : String :=
  ancestors.foldl (fun inner u =>
    u.place.qualifier ++ aspectName u.names.singular ++ "(" ++ inner ++ ")") "Base"

/-- What a static member inherits from the ancestors. -/
def inherited (ancestors : List UserDefined) (member : String) : String :=
  String.join (ancestors.map fun u => " & typeof " ++ u.singular ++ "." ++ member)

/-- A static member for the constant of an enum. -/
def constantLine (entry : String × String) : Code :=
  .line ("static readonly " ++ Naming.propertyKey entry.1 ++ " = " ++ entry.2 ++ ";")

/-- The static members that say what the class is. -/
def staticLines (a : Aspect) : List Code :=
  [.line ("static readonly kind: 'entity' | 'type' | 'aspect' = '" ++ a.kind.text ++ "';"),
   .line ("declare static readonly keys: __.KeysOf<" ++ a.singular ++ ">" ++
      inherited a.ancestors "keys" ++ ";"),
   .line ("declare static readonly elements: __.ElementsOf<" ++ a.singular ++ ">" ++
      inherited a.ancestors "elements" ++ ";")]

/-- The operations of all ancestors. -/
def inheritedActions (a : Aspect) : List String :=
  a.ancestors.map fun u => "typeof " ++ u.singular ++ ".actions"

/-- The static member that lists the bound operations. -/
def actionCode (c : Config) (a : Aspect) : Code :=
  let opening := "declare static readonly actions: "
  if a.actions.isEmpty then
    .line (opening ++
      Text.join " & " (a.inheritedActions ++ ["globalThis.Record<never, never>"]) ++ ";")
  else
    .block (opening ++ Text.join " & " (a.inheritedActions ++ ["\x7b"]))
      (a.actions.flatMap (BoundAction.code c)) "\x7d;"

/-- The function with its documentation. -/
def code (c : Config) (a : Aspect) : List Code :=
  docCode a.doc ++
  [.block ("export function " ++ aspectName a.singular ++ signatureText ++ " \x7b")
    [.block ("return class " ++ a.singular ++ " extends " ++ base a.ancestors ++ " \x7b")
      (a.properties.flatMap (Property.code c (style c)) ++ a.constants.map constantLine ++
        a.staticLines ++ [a.actionCode c]) "\x7d;"] "\x7d"]

end Aspect

/-- The class of one. -/
def singularClassCode (singular : String) (doc : Option String) (full : String) (drafts : Bool) :
    List Code :=
  let opening := "export class " ++ singular ++ " extends " ++ aspectName singular ++
    "(__.Entity) \x7b"
  docCode doc ++
  [if drafts then
      .block opening [.line ("declare static readonly drafts: __.DraftOf<" ++ singular ++ ">;")] "\x7d"
    else .line (opening ++ "\x7d"),
   defineProperty singular "name" (Naming.quote full),
   defineProperty singular "is_singular" "true"]

/-- The class of many. -/
def pluralClassCode (plural singular full : String) (drafts : Bool) : List Code :=
  [.block ("export class " ++ plural ++ " extends Array<" ++ singular ++ "> \x7b")
    (.line "$count?: number;" ::
      if drafts then [.line ("declare static readonly drafts: __.DraftsOf<" ++ singular ++ ">;")]
      else []) "\x7d",
   defineProperty plural "name" (Naming.quote full)]

/-- The class of an event.  An event is always filled in, so its properties are
not optional. -/
def eventCode (c : Config) (name : String) (doc : Option String) (full : String)
    (properties : List Property) : List Code :=
  docCode doc ++
  [.block ("export class " ++ name ++ " \x7b")
    (properties.flatMap (Property.code c ⟨"declare ", false⟩)) "\x7d",
   defineProperty name "name" (Naming.quote full)]

/-- The member of the class of a service for an operation. -/
def serviceMember (operation : String) : Code :=
  .line ("declare static readonly " ++ Naming.propertyKey operation ++ ": typeof " ++
    Naming.sanitize operation ++ ";")

/-- How a declaration is written. -/
def Declaration.code (c : Config) : Declaration → List Code
  | .aspect a => a.code c
  | .singularClass singular doc full drafts => singularClassCode singular doc full drafts
  | .pluralClass plural singular full drafts => pluralClassCode plural singular full drafts
  | .constants name doc members => docCode doc ++ enumCode name members
  | .typeAlias name doc type =>
      docCode doc ++ [.line ("export type " ++ name ++ " = " ++ type.text c ++ ";")]
  | .operation name doc signature =>
      docCode doc ++
        [.block ("export declare const " ++ name ++ ": \x7b") (signature.code c) "\x7d;"]
  | .event name doc full properties => eventCode c name doc full properties
  | .service operations =>
      [.block "export default class \x7b" (operations.map serviceMember) "\x7d"]

end SchemaTypes
