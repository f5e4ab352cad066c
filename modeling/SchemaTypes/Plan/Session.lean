import SchemaTypes.Diagnostic
import SchemaTypes.Model.Keys
import SchemaTypes.Types.Resolver

/-!
# The session of a compilation

What a compilation knows besides the model: the entities that can be drafted,
the keys found so far, the libraries that were referred to, the findings, the
plurals that are taken, and the definitions that are being written.

A step of a compilation has an outcome, or a cause why there is none, and
leaves the session behind in either case.  `Step.within` makes a step while a
definition counts as being written.
-/

namespace SchemaTypes

/-- A plural that is taken. -/
structure TakenPlural where
  /-- The namespace, dotted. -/
  space : String
  /-- The plural with the scope around it, dotted. -/
  name : String
  /-- The full name of the entity that took it. -/
  owner : String
deriving DecidableEq, Repr

/-- What a compilation knows besides the model. -/
structure Session where
  /-- The entities that can be drafted. -/
  draftEnabled : List String := []
  /-- The keys found so far. -/
  keys : KeyState := {}
  /-- The libraries, with notes on which were referred to. -/
  registry : Registry := .standard
  /-- The findings, in order. -/
  diagnostics : List Diagnostic := []
  /-- The plurals that are taken. -/
  plurals : List TakenPlural := []
  /-- The definitions that are being written, innermost last. -/
  context : List String := []
  /-- The namespaces the definition being written has referred to. -/
  imports : List Path := []

namespace Session

/-- Begins to write a definition. -/
def push (s : Session) (name : String) : Session := { s with context := s.context ++ [name] }

/-- Ends to write a definition. -/
def pop (s : Session) : Session := { s with context := s.context.dropLast }

/-- The definition that is being written. -/
def current? (s : Session) : Option String := s.context.getLast?

/-- Whether a definition is the one being written. -/
def isCurrent (s : Session) (name : String) : Bool := s.current? == some name

/-- Whether an entity can be drafted. -/
def isDraftEnabled (s : Session) (name : String) : Bool := s.draftEnabled.contains name

/-- Where types are resolved that are written in a file. -/
def site (s : Session) (home : Path) : Site := ⟨home, s.current?, s.registry⟩

/-- Lists a finding. -/
def report (s : Session) (d : Diagnostic) : Session :=
  { s with diagnostics := s.diagnostics ++ [d] }

/-- Takes note of what came up while a type was resolved. -/
def note (s : Session) (n : Needs) : Session :=
  { s with imports := s.imports ++ n.imports, registry := s.registry.markAll n.libraryTypes }

/-- The owner of a plural that is taken. -/
def ownerOf? (s : Session) (space name : String) : Option String :=
  (s.plurals.find? fun p => p.space == space && p.name == name).map (·.owner)

end Session

/-- A step of a compilation. -/
abbrev Step (α : Type) := ExceptT CompileError (StateM Session) α

namespace Step

variable {α : Type}

/-- Lists a finding. -/
def report (d : Diagnostic) : Step Unit := modify fun s => s.report d

/-- Resolves a type that is written in a file. -/
def resolve (home : Path) (find : Site → Resolution α) : Step α := fun s =>
  let r := find (s.site home)
  (r.outcome, s.note r.needs)

/-- Asks a question about keys. -/
def ask (q : KeyQuery α) : Step α := fun s =>
  let (answer, keys) := q s.keys
  (answer, { s with keys })

/-- Makes a step while a definition counts as being written. -/
def within (name : String) (step : Step α) : Step α := fun s =>
  let (outcome, s) := step (s.push name)
  (outcome, s.pop)

/-- An outcome that depends on nothing. -/
def ofExcept (e : Except CompileError α) : Step α := fun s => (e, s)

end Step

end SchemaTypes
