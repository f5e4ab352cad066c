import SchemaTypes.Plan.Emission

/-!
# The files of a run

The files of a run stand in a table, each under the dotted name of its
namespace, in the order in which the namespaces came up.

An emission takes the file of its namespace out of the table (`checkOut`),
writes into it and puts it back (`checkIn`).  A file is started when it is
taken out for the first time.  While a file is out, a placeholder keeps its
slot.  What is put back goes under the name of its own namespace.
-/

namespace SchemaTypes

/-- The files under the names of their namespaces. -/
abbrev SourceTable := Table SourceFile

namespace SourceTable

/-- What keeps the slot of a file that is taken out.  It imports nothing. -/
def placeholder (path : Path) : SourceFile := { path }

/-- Takes out the file of a namespace, and leaves a placeholder behind. -/
def checkOut (files : SourceTable) (path : Path) : SourceFile × SourceTable :=
  ((files.get? path.dotted).getD (.start path), files.put path.dotted (placeholder path))

/-- Puts a file back. -/
def checkIn (files : SourceTable) (file : SourceFile) : SourceTable :=
  files.put file.path.dotted file

/-- Adds an emission to the file of its namespace. -/
def emit (c : Config) (files : SourceTable) (e : Emission) : Except Fault SourceTable := do
  let (file, files) := files.checkOut e.path
  let file ← file.emit c e
  pure (files.checkIn file)

/-- Adds emissions one after the other. -/
def emitAll (c : Config) (files : SourceTable) : List Emission → Except Fault SourceTable
  | [] => .ok files
  | e :: rest => do
      let files ← files.emit c e
      emitAll c files rest

end SourceTable

end SchemaTypes
