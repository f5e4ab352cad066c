import SchemaTypes.Code.RuntimeStub
import SchemaTypes.Declaration.Layout

/-!
# Emissions

Every definition of the model that is generated code for gives one emission.
It says what goes into the file of a namespace: imports, declarations with
their sections, and what the runtime stub exports.

A store lists files in the order in which their namespaces came up.  When all
emissions are written, the files are finished one after the other.
-/

namespace SchemaTypes

/-- Declarations that are written together, and where. -/
structure Placement where
  /-- The section they go to. -/
  target : Section
  /-- The declarations. -/
  declarations : List Declaration

/-- How the declarations are written. -/
def Placement.code (c : Config) (p : Placement) : List Code :=
  p.declarations.flatMap (Declaration.code c)

/-- What one definition adds to the file of a namespace. -/
structure Emission where
  /-- The namespace. -/
  path : Path
  /-- The namespaces that are referred to. -/
  imports : List Path := []
  /-- The declarations. -/
  placements : List Placement := []
  /-- The entities the runtime exports. -/
  inflections : List InflectionRecord := []
  /-- The enums the runtime exports. -/
  enumStubs : List EnumStub := []
  /-- The binding and the runtime name of operations. -/
  operationNames : List (String × String) := []
  /-- The service the file belongs to. -/
  service : Option String := none

/-- The namespace of the definitions that every file shares. -/
def basePath : Path := Path.ofDotted "_"

namespace SourceFile

/-- A file for a namespace.  It imports the base namespace. -/
def start (path : Path) : SourceFile := ({ path } : SourceFile).addImport basePath

/-- Adds placements one after the other. -/
def place (c : Config) (file : SourceFile) : List Placement → Except Fault SourceFile
  | [] => .ok file
  | p :: rest => do
      let file ← file.append p.target (p.code c)
      file.place c rest

/-- Adds an emission. -/
def emit (c : Config) (file : SourceFile) (e : Emission) : Except Fault SourceFile := do
  let file ← (file.addImports e.imports).place c e.placements
  pure { file with
    inflections := file.inflections ++ e.inflections
    enumStubs := file.enumStubs ++ e.enumStubs
    operationNames := file.operationNames ++ e.operationNames
    service := e.service.or file.service }

/-- The finished file. -/
def finished (file : SourceFile) : Except Fault SourceFile :=
  match file.finish with
  | (file, none) => .ok file
  | (_, some fault) => .error fault

end SourceFile

/-- Files, in the order in which their namespaces came up. -/
abbrev Store := List SourceFile

/-- The finished files. -/
def Store.finished : Store → Except Fault Store
  | [] => .ok []
  | file :: rest => do
      let file ← file.finished
      let rest ← finished rest
      pure (file :: rest)

end SchemaTypes
