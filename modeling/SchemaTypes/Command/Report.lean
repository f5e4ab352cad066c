import SchemaTypes.Plan.Output

/-!
# What the command line prints

A report is a list of lines.  It opens with the name and version of the
program, lists the findings, and closes with the files that were written or
with a count.
-/

namespace SchemaTypes

namespace Report

/-- The name of the program. -/
def program : String := "csn-typer"

/-- The version of the program. -/
def version : String := "0.1.0"

/-- The answer to the question for the version. -/
def versionLines : List String := [program ++ " " ++ version]

/-- The answer to the question for help. -/
def helpLines : List String :=
  ["Usage: " ++ program ++ " [--log-level LEVEL] compile|check [OPTIONS] MODEL",
   "",
   "  compile   writes the generated files",
   "  check     writes nothing",
   "",
   "  -o, --output DIR                          only for compile",
   "  -c, --config FILE",
   "      --inline-declarations flat|structured",
   "      --properties-optional true|false",
   "      --ieee754-compatible",
   "      --use-entities-proxy"]

/-- The lines that open a compilation. -/
def header : List String := ["  ◆ " ++ program ++ " " ++ version, ""]

/-- The lines that close a failed compilation. -/
def failed : List String := ["", "  ◆ Nope.", ""]

/-! ## Findings -/

/-- The line of a finding. -/
def findingLine (d : Diagnostic) : String :=
  "  ▸ " ++ d.severity.text ++ "[" ++ d.subject ++ "] " ++ d.message

/-- The lines of all findings. -/
def findings (ds : List Diagnostic) : List String :=
  if ds.isEmpty then []
  else ds.map findingLine ++ ["  The findings above did not stop the compilation.", ""]

/-! ## The box of namespaces -/

/-- The text with spaces behind it, so that it has at least the given width. -/
def padded (width : Nat) (text : String) : String :=
  text ++ String.ofList (List.replicate (width - text.length) ' ')

/-- A horizontal line. -/
def rule (width : Nat) : String := String.ofList (List.replicate width '─')

/-- The upper edge of a box. -/
def boxTop (title : String) : String :=
  "  ╭─ " ++ title ++ " " ++ rule (49 - title.length) ++ "╮"

/-- A line in a box. -/
def boxLine (content : String) : String := "  │ " ++ padded 53 content ++ "│"

/-- The lower edge of a box. -/
def boxBottom : String := "  ╰" ++ rule 53 ++ "╯"

/-- What the box says of a generated file. -/
def fileLine (f : GeneratedFile) : String :=
  let directory := if f.directory == "" then "." else f.directory
  let names := if f.runtime.isSome then "index.ts · index.js" else "index.ts"
  "▸ " ++ padded 28 directory ++ " " ++ names

/-- The box of all generated files. -/
def box (files : List GeneratedFile) : List String :=
  boxTop "NAMESPACES" :: boxLine "" :: files.map (boxLine ∘ fileLine) ++ [boxLine "", boxBottom]

/-! ## Reports -/

/-- What is reported of an output that was written. -/
def compiled (o : Output) (written : Nat) (below : String) (milliseconds : Nat) : List String :=
  findings o.diagnostics ++
    ["  ◉ " ++ toString o.files.length ++ " namespaces, " ++ toString written ++ " files", ""] ++
    box o.files ++
    ["", "  ◇ Written to " ++ below, "  ◇ Done in " ++ toString milliseconds ++ "ms", ""]

/-- What is reported of an output that was not written. -/
def checked (o : Output) : List String :=
  findings o.diagnostics ++
    ["  ◉ Looking good.", "",
     "    " ++ toString o.files.length ++ " namespaces · " ++
       toString (Diagnostic.count .warning o.diagnostics) ++ " warnings · " ++
       toString (Diagnostic.count .error o.diagnostics) ++ " errors"]

end Report

end SchemaTypes
