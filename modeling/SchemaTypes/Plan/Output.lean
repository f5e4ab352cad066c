import SchemaTypes.Library.BaseRuntime
import SchemaTypes.Library.BaseTypes
import SchemaTypes.Plan.Basic
import SchemaTypes.Plan.SourceTable

/-!
# The output of a compilation

The output lists the generated files: the base namespace first, then the
libraries that are referred to, then the namespaces of the model.  Every file
has a type layer, and every file but those of libraries has a runtime stub.

`compile` makes a plan of the model and writes it out.  It fails with a cause
or, should a buffer be misused, with a fault.
-/

namespace SchemaTypes

/-- The generated code of one namespace. -/
structure GeneratedFile where
  /-- The namespace. -/
  path : Path
  /-- The text of `index.ts`. -/
  types : String
  /-- The text of `index.js`. -/
  runtime : Option String
deriving DecidableEq, Repr

/-- The directory of a file below the output directory. -/
def GeneratedFile.directory (f : GeneratedFile) : String := f.path.outputDirectory

/-- Everything a compilation produced. -/
structure Output where
  /-- The files, in order. -/
  files : List GeneratedFile
  /-- The findings. -/
  diagnostics : List Diagnostic
deriving DecidableEq, Repr

namespace Output

/-- The directories of the files, in order. -/
def directories (o : Output) : List String := o.files.map GeneratedFile.directory

/-- The place of the first file of a namespace. -/
def indexOf? (o : Output) (dotted : String) : Option Nat :=
  o.files.findIdx? fun f => f.path.dotted == dotted

end Output

/-- Why a compilation has no output. -/
inductive Failure
  | cause (e : CompileError)
  | fault (f : Fault)
deriving DecidableEq, Repr

/-- The file of the base namespace. -/
def baseFile : GeneratedFile := ⟨basePath, baseTypes, some baseRuntime⟩

/-- The file of a library. -/
def Library.file (lib : Library) : GeneratedFile :=
  ⟨lib.path, banner ++ "\n\n" ++ lib.source, none⟩

/-- The file of a namespace of the model. -/
def SourceFile.file (c : Config) (file : SourceFile) : GeneratedFile :=
  ⟨file.path, file.typeLayer, some (file.runtimeStub c.entitiesProxy basePath)⟩

/-- The files of the namespaces of the model. -/
def Plan.sources (c : Config) (p : Plan) : Except Fault Store := do
  let files ← SourceTable.emitAll c [] p.emissions
  Store.finished files.entries

/-- Writes out a plan. -/
def Plan.render (c : Config) (p : Plan) : Except Fault Output := do
  let sources ← p.sources c
  pure {
    files := baseFile :: p.libraries.map Library.file ++ sources.map (SourceFile.file c)
    diagnostics := p.diagnostics }

/-- The output for a model under given options. -/
def compile (m : Model) (c : Config) : Except Failure Output :=
  match Plan.ofModel m with
  | .error e => .error (.cause e)
  | .ok plan =>
      match plan.render c with
      | .error f => .error (.fault f)
      | .ok output => .ok output

end SchemaTypes
