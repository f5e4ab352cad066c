import SchemaTypes.Code.Buffer
import SchemaTypes.Naming.Identifier
import SchemaTypes.Path.Basic
import SchemaTypes.Table

/-!
# Source files

A source file holds what is generated for one namespace: the imports, one
buffer per section, and what the runtime stub has to export.

Definitions that are nested in another definition go into an
`export namespace` of their own.  Its buffer is opened when it is first
written to and closed by `finish`.

Imports are kept by module specifier, in ascending order.  A specifier is
imported once, and the file's own namespace never.
-/

namespace SchemaTypes

/-- The names under which the runtime exports an entity. -/
structure InflectionRecord where
  /-- The enclosing definitions below the namespace. -/
  scope : List String
  /-- The name of one. -/
  singular : String
  /-- The name of many. -/
  plural : String
  /-- The name the runtime knows the entity by. -/
  runtimeName : String
deriving DecidableEq, Repr

/-- A constant object the runtime exports for an enum. -/
structure EnumStub where
  /-- Its name, with the enclosing definitions. -/
  name : String
  /-- The keys with their rendered values. -/
  entries : Table String
deriving DecidableEq, Repr

/-- The parts of a type layer. -/
inductive Section
  | preamble
  | types
  | enums
  | nested (name : String)
  | aspects
  | classes
  | operations
deriving DecidableEq, Repr

/-- Where the classes of a scope go: the top level, or the namespace named
after the scope. -/
def Section.ofScope (scope : List String) : Section :=
  if scope.isEmpty then .classes else .nested (Text.join "." scope)

/-- The generated code of one namespace. -/
structure SourceFile where
  /-- The namespace. -/
  path : Path
  /-- The imported namespaces by module specifier, ascending. -/
  imports : Table Path := []
  preamble : Buffer := {}
  types : Buffer := {}
  enums : Buffer := {}
  /-- The nested namespaces, in the order of their first use. -/
  namespaces : Table Buffer := []
  aspects : Buffer := {}
  classes : Buffer := {}
  operations : Buffer := {}
  /-- The entities the runtime exports. -/
  inflections : List InflectionRecord := []
  /-- The enums the runtime exports. -/
  enumStubs : List EnumStub := []
  /-- The exported binding and the runtime name of each unbound operation. -/
  operationNames : List (String × String) := []
  /-- The service the file belongs to. -/
  service : Option String := none
deriving DecidableEq, Repr

namespace SourceFile

/-! ## Imports -/

/-- Puts an import at its place. -/
def insertImport (specifier : String) (target : Path) : Table Path → Table Path
  | [] => [(specifier, target)]
  | (s, p) :: rest =>
      if specifier < s then (specifier, target) :: (s, p) :: rest
      else (s, p) :: insertImport specifier target rest

/-- Whether importing a namespace adds something: it is not the file's own
and its specifier is not imported yet. -/
def lacksImport (file : SourceFile) (target : Path) : Bool :=
  !target.isHere file.path && !Table.has file.imports (target.specifierFrom file.path)

/-- Imports a namespace where that adds something. -/
def addImport (file : SourceFile) (target : Path) : SourceFile :=
  if file.lacksImport target then
    { file with imports := insertImport (target.specifierFrom file.path) target file.imports }
  else file

/-- Imports namespaces one after the other. -/
def addImports (file : SourceFile) (targets : List Path) : SourceFile :=
  targets.foldl addImport file

/-! ## Sections -/

/-- The buffer of a nested namespace that nothing was written to. -/
def openedNamespace (name : String) : Buffer :=
  { lines := ["export namespace " ++ name ++ " \x7b"], depth := 1 }

/-- The buffer of a section. -/
def buffer (file : SourceFile) : Section → Buffer
  | .preamble => file.preamble
  | .types => file.types
  | .enums => file.enums
  | .nested name => (Table.get? file.namespaces name).getD (openedNamespace name)
  | .aspects => file.aspects
  | .classes => file.classes
  | .operations => file.operations

/-- The file with another buffer for a section. -/
def setBuffer (file : SourceFile) (b : Buffer) : Section → SourceFile
  | .preamble => { file with preamble := b }
  | .types => { file with types := b }
  | .enums => { file with enums := b }
  | .nested name => { file with namespaces := Table.put file.namespaces name b }
  | .aspects => { file with aspects := b }
  | .classes => { file with classes := b }
  | .operations => { file with operations := b }

/-- Adds a rendered definition to a section. -/
def append (file : SourceFile) (target : Section) (code : List Code) : Except Fault SourceFile := do
  let b ← (file.buffer target).append code
  pure (file.setBuffer b target)

/-- Makes edits in a section, up to the first that goes wrong. -/
def edit (file : SourceFile) (target : Section) (edits : List Edit) : SourceFile × Option Fault :=
  let (b, fault) := (file.buffer target).applyAll edits
  (file.setBuffer b target, fault)

/-! ## Finishing -/

/-- Leaves and closes the buffer of a nested namespace, once. -/
def finishBuffer (b : Buffer) : Except Fault Buffer :=
  if b.closed then .ok b
  else do
    let b ← b.outdent
    let b ← b.add "\x7d"
    pure b.close

/-- Finishes buffers one after the other, up to the first that goes wrong. -/
def finishAll : Table Buffer → Table Buffer × Option Fault
  | [] => ([], none)
  | (name, b) :: rest =>
      match finishBuffer b with
      | .error fault => ((name, b) :: rest, some fault)
      | .ok b' =>
          let (rest', fault) := finishAll rest
          ((name, b') :: rest', fault)

/-- Closes all nested namespaces. -/
def finish (file : SourceFile) : SourceFile × Option Fault :=
  let (namespaces, fault) := finishAll file.namespaces
  ({ file with namespaces }, fault)

end SourceFile

end SchemaTypes
