import SchemaTypes.Files.Host
import SchemaTypes.Model.Reader
import SchemaTypes.Plan.Output

/-!
# Compiling files

A model file is read, compiled and its output written below a directory.  Each
generated file becomes an `index.ts` in the directory of its namespace, and an
`index.js` beside it where it has a runtime stub.

`Output.writes` lists what is written, in order, without touching any file.
The rest carries it out on a host and stops at the first failure.  What was
written before stays.
-/

namespace SchemaTypes

/-! ## What is written -/

/-- A file to be written. -/
structure FileWrite where
  /-- The directory it stands in. -/
  directory : String
  /-- Its name in the directory. -/
  name : String
  /-- Its text. -/
  text : String
deriving DecidableEq, Repr

/-- The path of the file. -/
def FileWrite.path (w : FileWrite) : String := Directory.push w.directory w.name

/-- What is written for one namespace below a directory. -/
def GeneratedFile.writes (below : String) (f : GeneratedFile) : List FileWrite :=
  let directory := Directory.push below f.directory
  ⟨directory, "index.ts", f.types⟩ ::
    match f.runtime with
    | some text => [⟨directory, "index.js", text⟩]
    | none => []

/-- What is written for an output below a directory, in order. -/
def Output.writes (o : Output) (below : String) : List FileWrite :=
  o.files.flatMap (GeneratedFile.writes below)

/-! ## On a host -/

section OnHost

variable {m : Type → Type} [Monad m] [Host m]

/-- The result of an operation on the file at a path. -/
def onFile {α : Type} (path : String) (operation : m (Except String α)) : ExceptT Failure m α :=
  ExceptT.mk do
    match ← operation with
    | .ok a => pure (.ok a)
    | .error text => pure (.error (.cause (.fileAccess path text)))

/-- A result that may be a cause. -/
def orCause {α : Type} (result : Except CompileError α) : ExceptT Failure m α :=
  ExceptT.mk (pure (result.mapError Failure.cause))

/-- The model in a file. -/
def Model.load (path : String) : ExceptT Failure m Model := do
  let text ← onFile path (Host.readText path)
  orCause (Model.ofText text)

/-- The configuration in a file. -/
def Config.load (path : String) : ExceptT Failure m Config := do
  let text ← onFile path (Host.readText path)
  orCause (Config.ofText text)

/-- Writes one file. -/
def FileWrite.carryOut (w : FileWrite) : ExceptT Failure m Unit := do
  onFile w.directory (Host.makeDirectories w.directory)
  onFile w.path (Host.writeText w.path w.text)

/-- Writes files, one after the other. -/
def FileWrite.carryOutAll : List FileWrite → ExceptT Failure m Unit
  | [] => pure ()
  | w :: rest => do
      w.carryOut
      carryOutAll rest

/-- Writes an output below a directory. -/
def Output.writeTo (o : Output) (below : String) : ExceptT Failure m Unit :=
  FileWrite.carryOutAll (o.writes below)

/-- The output for the model in a file.  Nothing is written. -/
def checkFile (c : Config) (path : String) : ExceptT Failure m Output := do
  let model ← Model.load path
  ExceptT.mk (pure (compile model c))

/-- What compiling a file came to. -/
structure Summary where
  /-- How many namespaces were written. -/
  namespaces : Nat
  /-- How many entities the model has. -/
  entities : Nat
  /-- The findings. -/
  diagnostics : List Diagnostic
deriving DecidableEq, Repr

/-- Compiles the model in a file and writes the output. -/
def compileFile (c : Config) (path : String) : ExceptT Failure m Summary := do
  let model ← Model.load path
  let output ← ExceptT.mk (pure (compile model c))
  output.writeTo c.outputDirectory
  pure {
    namespaces := output.files.length
    entities := (model.definitions.entries.filter (·.isKind .entity)).length
    diagnostics := output.diagnostics }

end OnHost

end SchemaTypes
