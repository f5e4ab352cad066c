import SchemaTypes.Code.TypeLayer

/-!
# The runtime stub of a namespace

The runtime stub is the text of `index.js`.  It exports every entity of the
namespace under its singular, its plural, and its own name where that is a
third one.  Then come the name of the service, the enums and the operations.

There are two forms.  The direct one assigns each alias to a property of
`module.exports`, nested as the scopes are.  The other one hands a table of
aliases to a proxy that binds them on first use.  Both write `aliasTable`,
which lists the entities of outer scopes before those of inner ones, so that
an object is exported before its properties.
-/

namespace SchemaTypes

/-! ## Names in the stub -/

/-- A name below its scope, dotted. -/
def scopedName (scope : List String) (name : String) : String :=
  if scope.isEmpty then name else Text.join "." scope ++ "." ++ name

/-- The access to a member: with a dot where the name is an identifier, else
with brackets. -/
def memberAccess (name : String) : String :=
  if Naming.isIdentifier name then "." ++ name else "[" ++ Naming.quote name ++ "]"

/-- The access to an exported name, member by member. -/
def exportPath (names : List String) : String :=
  "module.exports" ++ String.join (names.map memberAccess)

/-! ## The alias table -/

/-- A name under which an entity is exported. -/
structure Alias where
  /-- The enclosing definitions below the namespace. -/
  scope : List String
  /-- The exported name. -/
  name : String
  /-- The name the runtime knows the entity by. -/
  runtimeName : String
  /-- Whether the name stands for one. -/
  singular : Bool
deriving DecidableEq, Repr

/-- The aliases of one entity: the singular, the plural, and the runtime name
where it is neither. -/
def InflectionRecord.aliases (r : InflectionRecord) : List Alias :=
  [⟨r.scope, r.singular, r.runtimeName, true⟩, ⟨r.scope, r.plural, r.runtimeName, false⟩] ++
  if r.runtimeName = r.singular ∨ r.runtimeName = r.plural then []
  else [⟨r.scope, r.runtimeName, r.runtimeName, false⟩]

namespace SourceFile

/-- The length of the longest scope among the entities. -/
def deepestScope (records : List InflectionRecord) : Nat :=
  records.foldr (fun r deepest => max r.scope.length deepest) 0

/-- The entities by the length of their scope, and in the order they came
where that is the same. -/
def byScope (records : List InflectionRecord) : List InflectionRecord :=
  (List.range (deepestScope records + 1)).flatMap fun depth =>
    records.filter fun r => r.scope.length == depth

/-- The exported aliases, those of outer scopes first. -/
def aliasTable (file : SourceFile) : List Alias :=
  (byScope file.inflections).flatMap InflectionRecord.aliases

/-! ## The lines of the stub -/

/-- An alias in the table of the proxy. -/
def proxyEntry (a : Alias) : String :=
  Naming.quote (scopedName a.scope a.name) ++ ": [" ++
    Naming.quote (scopedName a.scope a.runtimeName) ++ ", " ++
    (if a.singular then "true" else "false") ++ "],"

/-- The assignment that exports an alias. -/
def aliasAssignment (a : Alias) : String :=
  let source := "csn[" ++ Naming.quote (scopedName a.scope a.runtimeName) ++ "]"
  let target := exportPath (a.scope ++ [a.name])
  if a.singular then
    target ++ " = \x7b is_singular: true, __proto__: " ++ source ++ " \x7d"
  else target ++ " = " ++ source

/-- The comment that heads the assignments of an entity. -/
def recordHeading (r : InflectionRecord) : String := "// " ++ scopedName r.scope r.singular

/-- The lines that export the entities through the proxy. -/
def proxyLines (file : SourceFile) (base : Path) : List Code :=
  let namespaceText := Naming.quote file.path.dotted
  [.line ("const \x7b createEntitiesProxy \x7d = require(" ++
      Naming.quote (base.specifierFrom file.path) ++ ")"),
   .block ("module.exports = createEntitiesProxy(" ++ namespaceText ++ ", \x7b")
      (file.aliasTable.map fun a => .line (proxyEntry a)) "\x7d)"]

/-- The lines that export the entities directly. -/
def directLines (file : SourceFile) : List Code :=
  [.line "const cds = require('@sap/cds')",
   .line ("const csn = cds.entities(" ++ Naming.quote file.path.dotted ++ ")")] ++
  (byScope file.inflections).flatMap fun r =>
    .line (recordHeading r) :: r.aliases.map fun a => .line (aliasAssignment a)

/-- The line that exports the name of the service. -/
def serviceLines (file : SourceFile) : List Code :=
  match file.service with
  | none => []
  | some name =>
      [.line ("Object.defineProperty(module.exports, 'name', \x7b value: " ++
        Naming.quote name ++ " \x7d)")]

/-- The assignment that exports an enum. -/
def enumAssignment (stub : EnumStub) : String :=
  let entries := stub.entries.map fun entry => Naming.propertyKey entry.1 ++ ": " ++ entry.2
  exportPath (Text.splitOn '.' stub.name) ++ " = \x7b " ++ Text.join ", " entries ++ " \x7d"

/-- The lines that export the enums. -/
def enumLines (file : SourceFile) : List Code :=
  if file.enumStubs.isEmpty then []
  else .line "// enums" :: file.enumStubs.map fun stub => .line (enumAssignment stub)

/-- The assignment that exports an operation. -/
def operationAssignment (binding name : String) : String :=
  exportPath [binding] ++ " = " ++ Naming.quote name

/-- The lines that export the operations. -/
def operationLines (file : SourceFile) : List Code :=
  if file.operationNames.isEmpty then []
  else .line "// actions" ::
    file.operationNames.map fun entry => .line (operationAssignment entry.1 entry.2)

/-- The text of `index.js`.  `base` is the namespace the proxy comes from. -/
def runtimeStub (file : SourceFile) (useProxy : Bool) (base : Path) : String :=
  let code :=
    [.line banner] ++ (if useProxy then file.proxyLines base else file.directLines) ++
    file.serviceLines ++ file.enumLines ++ file.operationLines
  Text.join "\n" (Code.lines code) ++ "\n"

end SourceFile

end SchemaTypes
