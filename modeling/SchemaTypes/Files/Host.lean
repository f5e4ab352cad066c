/-!
# Where files are

The generator reads a model and a configuration from files and writes files of
its own.  A *host* is where these files are.  It reads and writes texts, makes
directories and tells the time.  An operation on files either has a result or
fails with a wording of the host's own.

Everything that touches files is written for any host.  The command line runs
on the files of the machine, and `FileTree` is a host that is a plain value.
-/

namespace SchemaTypes

/-- A place with files. -/
class Host (m : Type → Type) where
  /-- The text of a file. -/
  readText (path : String) : m (Except String String)
  /-- Makes a directory and those above it, where they are missing. -/
  makeDirectories (path : String) : m (Except String Unit)
  /-- Writes a file, which may be there already. -/
  writeText (path text : String) : m (Except String Unit)
  /-- Milliseconds since some fixed moment. -/
  milliseconds : m Nat

end SchemaTypes
