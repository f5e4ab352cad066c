import SchemaTypes.Code.SourceFile

/-!
# The type layer of a namespace

The type layer is the text of `index.ts`: the banner, the imports and the
sections that are not empty, with a blank line between each two of them.
-/

namespace SchemaTypes

/-- The first line of every generated file. -/
def banner : String :=
  "// This is an automatically generated file. Please do not change its contents manually!"

namespace SourceFile

/-- The line that imports a namespace. -/
def importLine (specifier : String) (target : Path) : String :=
  "import * as " ++ target.identifier ++ " from '" ++ specifier ++ "';"

/-- The block of import lines, if there are any. -/
def importBlock (file : SourceFile) : List String :=
  if file.imports.isEmpty then []
  else [Text.join "\n" (file.imports.map fun entry => importLine entry.1 entry.2)]

/-- The text of a section, if anything was written to it. -/
def sectionBlock (b : Buffer) : List String :=
  if b.lines.isEmpty then [] else [b.joined "\n"]

/-- The text of `index.ts`. -/
def typeLayer (file : SourceFile) : String :=
  let blocks :=
    [banner] ++ file.importBlock ++
    sectionBlock file.preamble ++ sectionBlock file.types ++ sectionBlock file.enums ++
    file.namespaces.map (fun entry => entry.2.joined "\n") ++
    sectionBlock file.aspects ++ sectionBlock file.classes ++ sectionBlock file.operations
  Text.join "\n\n" blocks ++ "\n"

end SourceFile

end SchemaTypes
