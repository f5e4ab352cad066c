import SchemaTypes.Text.Split

/-!
# What stops a compilation

Each constructor is one cause.  `message` gives its wording, `code` the fixed
word tools know it by, and `help?` a hint where there is one.
-/

namespace SchemaTypes

/-- A cause that stops a compilation. -/
inductive CompileError
  /-- A file could not be read or written. -/
  | fileAccess (path message : String)
  /-- The model is not a model document. -/
  | invalidModel (message : String)
  /-- The configuration is not a configuration document. -/
  | invalidConfig (message : String)
  /-- A type name stands for nothing. -/
  | unresolvedType (name element : String)
  /-- A reference does not have the form of one. -/
  | malformedReference (reference : String)
  /-- Types or keys are nested too deep. -/
  | recursionLimit (name : String) (limit : Nat)
  /-- A derived singular is the name of another definition. -/
  | nameCollision (name qualified existing : String)
  /-- Roots of draft trees are composed by other roots. -/
  | draftConflicts (conflicts : List String)
deriving DecidableEq, Repr

namespace CompileError

/-- The wording of a cause. -/
def message : CompileError → String
  | .fileAccess path text => "Failed to access '" ++ path ++ "': " ++ text
  | .invalidModel text => "Invalid model: " ++ text
  | .invalidConfig text => "Invalid configuration: " ++ text
  | .unresolvedType name element => "Cannot resolve type '" ++ name ++ "' of '" ++ element ++ "'"
  | .malformedReference reference => "Malformed type reference '" ++ reference ++ "'"
  | .recursionLimit name limit =>
      "Type resolution of '" ++ name ++ "' exceeded the depth limit of " ++ toString limit
  | .nameCollision name qualified existing =>
      "Derived singular '" ++ name ++ "' of '" ++ qualified ++
        "' collides with the definition '" ++ existing ++ "'"
  | .draftConflicts conflicts => "Conflicting draft enablement:\n" ++ Text.join "\n" conflicts

/-- The fixed word for a cause. -/
def code : CompileError → String
  | .fileAccess .. => "csn_typer::io::access_failed"
  | .invalidModel .. => "csn_typer::input::invalid_model"
  | .invalidConfig .. => "csn_typer::input::invalid_config"
  | .unresolvedType .. => "csn_typer::resolve::unresolved_type"
  | .malformedReference .. => "csn_typer::resolve::malformed_reference"
  | .recursionLimit .. => "csn_typer::resolve::recursion_limit"
  | .nameCollision .. => "csn_typer::naming::collision"
  | .draftConflicts .. => "csn_typer::draft::conflict"

/-- What to do about a cause, where something can be said. -/
def help? : CompileError → Option String
  | .invalidModel .. =>
      some "The input must be a compiled CSN document with a top-level 'definitions' object"
  | .unresolvedType .. =>
      some "The type is neither a builtin, a model definition nor part of a known library"
  | .malformedReference .. => some "References take the form 'Entity:element.path'"
  | .recursionLimit .. => some "The model probably contains a cyclic type definition"
  | .nameCollision .. => some "Annotate the entity with @singular or @plural to pick distinct names"
  | .draftConflicts .. =>
      some "Only the root of a composition hierarchy may carry @odata.draft.enabled"
  | _ => none

end CompileError

end SchemaTypes
