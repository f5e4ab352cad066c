import SchemaTypes.CompileError
import SchemaTypes.Json.Reader

/-!
# Configuration

The configuration says where the generated files go and how types are
written.  It is read from a document: an object with the options by name, or a
list with the options by position.  Options that are left out keep their
defaults.  Unknown names are skipped, and a known name may not be repeated.
-/

namespace SchemaTypes

/-- How an anonymous structure is declared as a property. -/
inductive InlineMode
  /-- A property for each member, such as `x_a`. -/
  | flat
  /-- One property with a nested object type. -/
  | structured
deriving DecidableEq, Repr, Inhabited

namespace InlineMode

/-- The word for a mode. -/
def text : InlineMode → String
  | .flat => "flat"
  | .structured => "structured"

/-- The mode a word stands for. -/
def parse? (word : String) : Option InlineMode :=
  if word = "flat" then some .flat
  else if word = "structured" then some .structured
  else none

/-- The mode a word stands for, or the cause why it stands for none. -/
def parse (word : String) : Except CompileError InlineMode :=
  match parse? word with
  | some mode => .ok mode
  | none => .error (.invalidConfig ("unknown inline declaration mode '" ++ word ++
      "', expected 'flat' or 'structured'"))

end InlineMode

/-- The options of a compilation. -/
structure Config where
  /-- The directory the generated files go to. -/
  outputDirectory : String := "@cds-models"
  /-- How anonymous structures are declared as properties. -/
  inlineMode : InlineMode := .structured
  /-- Whether the generated properties are optional. -/
  optionalProperties : Bool := true
  /-- Whether 64-bit integers and decimals also accept strings. -/
  stringNumbers : Bool := false
  /-- Whether the runtime binds entities through a proxy. -/
  entitiesProxy : Bool := false
deriving DecidableEq, Repr, Inhabited

namespace Config

open Json (Document)

/-! ## Reading -/

/-- A string of a document. -/
def readString? : Document → Option String
  | .string s => s
  | _ => none

/-- A truth value of a document. -/
def readBool? : Document → Option Bool
  | .bool b => some b
  | _ => none

/-- A mode: its word, or an object whose one member has that name and holds
nothing. -/
def readMode? : Document → Option InlineMode
  | .string (some word) => InlineMode.parse? word
  | .object [(some word, .null)] => InlineMode.parse? word
  | _ => none

/-- The names of the options, by position. -/
def optionNames : List String :=
  ["outputDirectory", "inlineDeclarations", "propertiesOptional", "IEEE754Compatible",
   "useEntitiesProxy"]

/-- Sets the option of a name.  A name of no option changes nothing. -/
def set? (c : Config) (name : String) (d : Document) : Option Config :=
  if name = "outputDirectory" then
    (readString? d).map fun s => { c with outputDirectory := s }
  else if name = "inlineDeclarations" then
    (readMode? d).map fun mode => { c with inlineMode := mode }
  else if name = "propertiesOptional" then
    (readBool? d).map fun b => { c with optionalProperties := b }
  else if name = "IEEE754Compatible" then
    (readBool? d).map fun b => { c with stringNumbers := b }
  else if name = "useEntitiesProxy" then
    (readBool? d).map fun b => { c with entitiesProxy := b }
  else some c

/-- Sets options by position. -/
def setPositions? (c : Config) : List String → List Document → Option Config
  | _, [] => some c
  | [], _ :: _ => none
  | name :: names, d :: rest => (c.set? name d).bind fun c => c.setPositions? names rest

/-- Sets options by name.  `seen` holds the options that were set. -/
def setMembers? (c : Config) (seen : List String) :
    List (Option String × Document) → Option Config
  | [] => some c
  | (none, _) :: _ => none
  | (some name, d) :: rest =>
      if seen.contains name then none
      else
        let seen := if optionNames.contains name then name :: seen else seen
        (c.set? name d).bind fun c => c.setMembers? seen rest

/-- The configuration a document states. -/
def ofDocument? : Document → Option Config
  | .object members => ({} : Config).setMembers? [] members
  | .array items => ({} : Config).setPositions? optionNames items
  | _ => none

/-- The configuration a document states, or the cause why there is none. -/
def ofDocument (d : Document) : Except CompileError Config :=
  match ofDocument? d with
  | some c => .ok c
  | none => .error (.invalidConfig "not a configuration document")

/-- The configuration a text states, or the cause why there is none. -/
def ofText (text : String) : Except CompileError Config :=
  match Document.parse? text with
  | some d => ofDocument d
  | none => .error (.invalidConfig "not a JSON text")

end Config

end SchemaTypes
