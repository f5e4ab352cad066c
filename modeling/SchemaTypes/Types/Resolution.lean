import SchemaTypes.CompileError
import SchemaTypes.Path.Basic

/-!
# Resolutions

Resolving a type has an outcome, and it has needs: namespaces that have to be
imported, and library types that were used.  The needs are listed in the order
in which they came up.  They also count where the outcome is a cause of
failure.

An outcome never depends on the needs of what came before.  So a resolution is
a pair, and doing one after the other appends their needs.
-/

namespace SchemaTypes

/-- What has come up while types were resolved. -/
structure Needs where
  /-- The namespaces to be imported. -/
  imports : List Path := []
  /-- The full names of the library types that were used. -/
  libraryTypes : List String := []
deriving DecidableEq, Repr

/-- The needs of one thing and then another. -/
def Needs.append (a b : Needs) : Needs :=
  ⟨a.imports ++ b.imports, a.libraryTypes ++ b.libraryTypes⟩

instance : Append Needs := ⟨Needs.append⟩

/-- An outcome together with its needs. -/
structure Resolution (α : Type) where
  /-- What was found, or the cause why nothing was. -/
  outcome : Except CompileError α
  /-- What has come up on the way. -/
  needs : Needs := {}

namespace Resolution

variable {α β : Type}

/-- An outcome that needs nothing. -/
def found (a : α) : Resolution α := { outcome := .ok a }

/-- A failure that needs nothing. -/
def refuse (e : CompileError) : Resolution α := { outcome := .error e }

/-- Goes on with what was found. -/
def andThen (r : Resolution α) (next : α → Resolution β) : Resolution β :=
  match r.outcome with
  | .error e => ⟨.error e, r.needs⟩
  | .ok a => ⟨(next a).outcome, r.needs ++ (next a).needs⟩

instance : Monad Resolution where
  pure := found
  bind := andThen

/-- Asks for the import of a namespace. -/
def require (path : Path) : Resolution Unit := ⟨.ok (), { imports := [path] }⟩

/-- Notes that a library type was used. -/
def useLibrary (qualified : String) : Resolution Unit :=
  ⟨.ok (), { libraryTypes := [qualified] }⟩

/-- Resolves the entries of a table one after the other. -/
def forEntries (resolve : String → α → Resolution β) :
    List (String × α) → Resolution (List (String × β))
  | [] => found []
  | (name, a) :: rest =>
      (resolve name a).andThen fun b =>
        (forEntries resolve rest).andThen fun bs => found ((name, b) :: bs)

end Resolution

end SchemaTypes
