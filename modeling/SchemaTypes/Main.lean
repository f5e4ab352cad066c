import SchemaTypes.Command.Run

/-!
# The command line

Runs the arguments on the files of the machine.  Reports go to standard output
and failures to standard error.
-/

namespace SchemaTypes

/-- The result of an action, or the wording of its failure. -/
def attempt {α : Type} (action : IO α) : IO (Except String α) := do
  try
    return .ok (← action)
  catch e =>
    return .error (toString e)

/-- The files of the machine. -/
instance : Host IO where
  readText path := attempt (IO.FS.readFile path)
  makeDirectories path :=
    attempt (if path == "" then pure () else IO.FS.createDirAll path)
  writeText path text := attempt (IO.FS.writeFile path text)
  milliseconds := IO.monoMsNow

/-- What standard error says of an ending. -/
def Ending.complaint (e : Ending) : List String :=
  match e.failure with
  | some (.cause c) => c.message :: c.help?.toList
  | some (.fault f) => [f.message]
  | none => if e.status == 2 then Report.helpLines else []

end SchemaTypes

/-- Runs the arguments and ends with their status. -/
def main (arguments : List String) : IO UInt32 := do
  let ending ← SchemaTypes.runArguments arguments
  for line in ending.lines do
    IO.println line
  for line in ending.complaint do
    IO.eprintln line
  return ending.status.toUInt32
