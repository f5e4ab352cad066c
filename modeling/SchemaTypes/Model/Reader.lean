import SchemaTypes.CompileError
import SchemaTypes.Json.Reader
import SchemaTypes.Model.Basic

/-!
# Reading a model

A model document is an object with the member `definitions`.  What the model
needs is read strictly: every part has to have its form, a part may not be
stated twice, and nothing that is kept may be out of range.  What it does not
need is skipped, whatever it says.

Lists and objects may be nested to a limited depth where they are kept.  The
readers carry the `room` that is left.  Each list and each object takes one.

Some records may also be given as lists, with their parts by position.
-/

namespace SchemaTypes

namespace Model.Reader

open Json (Document)

/-! ## Members of an object -/

/-- The members of an object, if all their names can be read. -/
def named : List (Option String × Document) → Option (Table Document)
  | [] => some []
  | (none, _) :: _ => none
  | (some name, d) :: rest => (named rest).map ((name, d) :: ·)

/-- Whether none of the given names is stated twice. -/
def statesOnce (names : List String) (members : Table Document) : Bool :=
  names.all fun name => (members.filter (·.1 == name)).length ≤ 1

/-- The members of an object, if no known part is stated twice. -/
def parts? (known : List String) (members : List (Option String × Document)) :
    Option (Table Document) :=
  (named members).filter (statesOnce known)

/-! ## Scalars -/

/-- A part that may be missing or null. -/
def optional {α : Type} (read : Document → Option α) : Option Document → Option (Option α)
  | none => some none
  | some .null => some none
  | some d => (read d).map some

/-- A text. -/
def text? : Document → Option String
  | .string s => s
  | _ => none

/-- A truth value that is false where it is missing. -/
def flag? : Option Document → Option Bool
  | none => some false
  | some (.bool b) => some b
  | some _ => none

/-- Texts, if all documents are. -/
def texts? : List Document → Option (List String)
  | [] => some []
  | d :: rest =>
      match text? d, texts? rest with
      | some s, some ss => some (s :: ss)
      | _, _ => none

/-- A list of texts. -/
def textList? (room : Nat) : Document → Option (List String)
  | .array items => if room = 0 then none else texts? items
  | _ => none

/-! ## Records -/

/-- A kind: its word, or an object whose one member has that name and holds
nothing. -/
def kind? (room : Nat) : Document → Option Kind
  | .string s => s.map Kind.ofText
  | .object [(some word, .null)] => if room = 0 then none else some (.ofText word)
  | _ => none

/-- A type: its name, or an object that states a path. -/
def type? (room : Nat) (d : Document) : Option TypeRef :=
  match d with
  | .string s => s.map .name
  | .object members =>
      if (d.keepWithin? room).isNone then none
      else
        match parts? ["ref"] members with
        | none => none
        | some parts => ((parts.get? "ref").bind (textList? room)).map .path
  | _ => none

/-- The upper bound of a cardinality, by name or by position. -/
def bound? (room : Nat) (d : Document) : Option (Option Json.Value) :=
  match room, d with
  | 0, _ => none
  | room + 1, .object members =>
      (parts? ["max"] members).bind fun parts =>
        optional (Document.keepWithin? room) (parts.get? "max")
  | _ + 1, .array [] => some none
  | room + 1, .array [bound] => optional (Document.keepWithin? room) (some bound)
  | _, _ => none

/-- A stated foreign key, by name or by position. -/
def foreignKey? (room : Nat) (d : Document) : Option ForeignKey :=
  match room, d with
  | 0, _ => none
  | room + 1, .object members => do
      let parts ← parts? ["ref", "as"] members
      let path ← (parts.get? "ref").bind (textList? room)
      let asName ← optional text? (parts.get? "as")
      pure ⟨path, asName⟩
  | room + 1, .array [path] => (textList? room path).map fun path => ⟨path, none⟩
  | room + 1, .array [path, asName] => do
      let path ← textList? room path
      let asName ← optional text? (some asName)
      pure ⟨path, asName⟩
  | _, _ => none

/-- Stated foreign keys, if all documents are. -/
def foreignKeys? (room : Nat) : List Document → Option (List ForeignKey)
  | [] => some []
  | d :: rest =>
      match foreignKey? room d, foreignKeys? room rest with
      | some k, some ks => some (k :: ks)
      | _, _ => none

/-- A list of stated foreign keys. -/
def foreignKeyList? (room : Nat) (d : Document) : Option (List ForeignKey) :=
  match room, d with
  | room + 1, .array items => foreignKeys? room items
  | _, _ => none

/-- An entry of an enum, by name or by position. -/
def enumEntry? (room : Nat) (d : Document) : Option EnumEntry :=
  match room, d with
  | 0, _ => none
  | room + 1, .object members => do
      let parts ← parts? ["val", "doc"] members
      let value ← optional (Document.keepWithin? room) (parts.get? "val")
      let doc ← optional text? (parts.get? "doc")
      pure ⟨value, doc⟩
  | _ + 1, .array [] => some ⟨none, none⟩
  | room + 1, .array [value] => do
      let value ← optional (Document.keepWithin? room) (some value)
      pure ⟨value, none⟩
  | room + 1, .array [value, doc] => do
      let value ← optional (Document.keepWithin? room) (some value)
      let doc ← optional text? (some doc)
      pure ⟨value, doc⟩
  | _, _ => none

/-! ## Tables -/

/-- The entries of a table, if all of them can be read. -/
def entries? {α : Type} (read : Document → Option α) : Table Document → Option (Table α)
  | [] => some []
  | (name, d) :: rest =>
      match read d, entries? read rest with
      | some a, some as => some ((name, a) :: as)
      | _, _ => none

/-- The members of an object in order, if all of them can be read. -/
def pairs? {α : Type} (read : Nat → Document → Option α) (room : Nat) (d : Document) :
    Option (List (String × α)) :=
  match room, d with
  | room + 1, .object members => (named members).bind (entries? (read room))
  | _, _ => none

/-- A table.  Of entries with one name the last one wins. -/
def table? {α : Type} (read : Nat → Document → Option α) (room : Nat) (d : Document) :
    Option (Table α) :=
  (pairs? read room d).map Table.ofPairs

/-! ## Definitions -/

/-- The parts of a definition that have a meaning of their own. -/
def definitionParts : List String :=
  ["kind", "type", "elements", "items", "actions", "params", "returns", "target", "cardinality",
   "keys", "enum", "includes", "on", "key", "notNull", "doc"]

/-- Everything else that is said of a definition. -/
def annotations? (room : Nat) (parts : Table Document) : Option (Table Json.Value) :=
  (entries? (Document.keepWithin? room)
    (parts.filter fun part => !definitionParts.contains part.1)).map Table.ofPairs

/-- A definition. -/
def definition? : Nat → Document → Option Definition
  | room + 1, .object members => do
      let parts ← parts? definitionParts members
      let kind ← optional (kind? room) (parts.get? "kind")
      let type ← optional (type? room) (parts.get? "type")
      let elements ← optional (tableOf room) (parts.get? "elements")
      let items ← optional (definition? room) (parts.get? "items")
      let actions ← optional (tableOf room) (parts.get? "actions")
      let params ← optional (tableOf room) (parts.get? "params")
      let returns ← optional (definition? room) (parts.get? "returns")
      let target ← optional text? (parts.get? "target")
      let max ← optional (bound? room) (parts.get? "cardinality")
      let keys ← optional (foreignKeyList? room) (parts.get? "keys")
      let values ← optional (table? enumEntry? room) (parts.get? "enum")
      let includes ← optional (textList? room) (parts.get? "includes")
      let condition ← optional (Document.keepWithin? room) (parts.get? "on")
      let key ← flag? (parts.get? "key")
      let notNull ← flag? (parts.get? "notNull")
      let doc ← optional text? (parts.get? "doc")
      let annotations ← annotations? room parts
      pure {
        kind, type, elements, items, actions, params, returns, target, max := max.bind id, keys,
        values, includes, condition, key, notNull, doc, annotations }
  | _, _ => none
where
  /-- A table of definitions. -/
  tableOf : Nat → Document → Option (Table Definition)
    | room + 1, .object members =>
        ((named members).bind (entries? (definition? room))).map Table.ofPairs
    | _, _ => none

/-! ## Models -/

/-- A model, by name or by position. -/
def model? (room : Nat) (d : Document) : Option Model :=
  match room, d with
  | room + 1, .object members =>
      (parts? ["definitions"] members).bind fun parts =>
        match parts.get? "definitions" with
        | none => some {}
        | some d => (pairs? definition? room d).map Model.ofPairs
  | _ + 1, .array [] => some {}
  | room + 1, .array [d] => (pairs? definition? room d).map Model.ofPairs
  | _, _ => none

/-- How deep lists and objects may be nested in a text. -/
def textRoom : Nat := 127

/-- The cause when a document is no model. -/
def refusal : CompileError := .invalidModel "not a model document"

end Model.Reader

namespace Model

/-- The model a document states, or the cause why there is none. -/
def ofDocument (d : Json.Document) : Except CompileError Model :=
  match Reader.model? (d.nesting + 1) d with
  | some m => .ok m
  | none => .error Reader.refusal

/-- The model a text states, or the cause why there is none. -/
def ofText (text : String) : Except CompileError Model :=
  match (Json.Document.parse? text).bind (Reader.model? Reader.textRoom) with
  | some m => .ok m
  | none => .error Reader.refusal

end Model

end SchemaTypes
