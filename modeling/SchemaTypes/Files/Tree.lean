import SchemaTypes.Files.Host
import SchemaTypes.Path.Directory

/-!
# File trees

A file tree is a value that holds directories and files with their texts.
Each entry stands at a *location*, the list of names that leads to it from the
root.  The root itself is a directory of every tree.  Paths that do not start
at the root start at the home of the tree.

A path is walked name by name.  Every name is looked up in a directory, so a
path through a file or through nothing leads nowhere.  `.` and the empty name
stay where they are, and `..` goes one name up.  The last name may be missing,
for that is where a new file goes.

Names and paths are bounded.  A name has at most 255 bytes and a path at most
4095, and neither holds the character zero.  The bound on paths is on the text:
`./a` is longer than `a`, though both lead to one location.

A change that fails may have changed something already.  Making `a/b` leaves
`a` behind where `b` cannot be made.

`FileTree` is a host: programs that read and write files can be run on it, and
the tree they leave is a value like any other.
-/

namespace SchemaTypes

/-- What stands at a location. -/
inductive FileEntry
  | directory
  | text (content : String)
deriving DecidableEq, Repr

/-- The names that lead from the root to an entry. -/
abbrev Location := List String

/-- Directories and files, and the directory that paths start from. -/
structure FileTree where
  /-- Where paths start that do not start at the root. -/
  home : Location := []
  /-- The entries below the root. -/
  entries : List (Location × FileEntry) := []
deriving DecidableEq, Repr, Inhabited

namespace FileTree

/-! ## Entries -/

/-- The entry at a location. -/
def find? (t : FileTree) (location : Location) : Option FileEntry :=
  if location = [] then some .directory else t.entries.lookup location

/-- Whether a directory stands at a location. -/
def isDirectory (t : FileTree) (location : Location) : Bool :=
  t.find? location == some .directory

/-- The entries with one set at a location. -/
def putEntry : List (Location × FileEntry) → Location → FileEntry → List (Location × FileEntry)
  | [], location, entry => [(location, entry)]
  | (l, e) :: rest, location, entry =>
      if l = location then (l, entry) :: rest else (l, e) :: putEntry rest location entry

/-- The tree with an entry set at a location. -/
def put (t : FileTree) (location : Location) (entry : FileEntry) : FileTree :=
  { t with entries := putEntry t.entries location entry }

/-- A tree with an empty directory as its home. -/
def emptyHome : FileTree := { home := ["home", "work"] : FileTree }
  |>.put ["home"] .directory |>.put ["home", "work"] .directory

/-! ## Walking a path -/

/-- The most bytes a name may have. -/
def nameBytes : Nat := 255

/-- The most bytes a path may have. -/
def pathBytes : Nat := 4095

/-- Whether an entry may have the name. -/
def isEntryName (name : String) : Bool := decide (name.utf8ByteSize ≤ nameBytes)

/-- Whether the text may be a path. -/
def isPath (path : String) : Bool :=
  decide (path.utf8ByteSize ≤ pathBytes) && path.toList.all (· != '\x00')

/-- The location one name further. -/
def step? (t : FileTree) (here : Location) (name : String) : Option Location :=
  if !t.isDirectory here then none
  else if name == "" || name == "." then some here
  else if name == ".." then some here.dropLast
  else if isEntryName name then some (here ++ [name])
  else none

/-- The location some names further. -/
def walk? (t : FileTree) : Location → List String → Option Location
  | here, [] => some here
  | here, name :: names => (t.step? here name).bind fun next => t.walk? next names

/-- Where a path starts. -/
def start (t : FileTree) (path : String) : Location :=
  if Directory.isAbsolute path then [] else t.home

/-- The location of a path.  The empty path has none. -/
def locate? (t : FileTree) (path : String) : Option Location :=
  if path == "" || !isPath path then none else t.walk? (t.start path) (Text.splitOn '/' path)

/-! ## Operations -/

/-- The wording of every failure. -/
def refusal : String := "no such file or directory"

/-- The text of a file. -/
def read (t : FileTree) (path : String) : Except String String :=
  match (t.locate? path).bind t.find? with
  | some (.text content) => .ok content
  | _ => .error refusal

/-- What a change came to, and the tree after it. -/
abbrev Change := Except String Unit × FileTree

/-- Writes a file. -/
def write (t : FileTree) (path text : String) : Change :=
  match t.locate? path with
  | none => (.error refusal, t)
  | some location =>
      if t.isDirectory location then (.error refusal, t)
      else (.ok (), t.put location (.text text))

/-- Walks on and makes the directories that are missing. -/
def walkMaking (t : FileTree) : Location → List String → Change
  | _, [] => (.ok (), t)
  | here, name :: names =>
      match t.step? here name with
      | none => (.error refusal, t)
      | some next =>
          match t.find? next with
          | some .directory => walkMaking t next names
          | some (.text _) => (.error refusal, t)
          | none => walkMaking (t.put next .directory) next names

/-- Makes a directory, and those above it.  The empty path stands for the home,
which is there. -/
def makeDirectories (t : FileTree) (path : String) : Change :=
  if path == "" then (.ok (), t)
  else if isPath path then walkMaking t (t.start path) (Text.splitOn '/' path)
  else (.error refusal, t)

/-- A tree is a host whose clock stands still. -/
instance : Host (StateM FileTree) where
  readText path := fun t => (t.read path, t)
  makeDirectories path := fun t => t.makeDirectories path
  writeText path text := fun t => t.write path text
  milliseconds := pure 0

/-- The tree with a file and the directories above it, as far as they can be
there. -/
def place (t : FileTree) (path text : String) : FileTree :=
  let above := Text.join "/" (Text.splitOn '/' path).dropLast
  let directory := if Directory.isAbsolute path then "/" ++ above else above
  ((t.makeDirectories directory).2.write path text).2

/-! ## Listing -/

/-- The names after a location that another one starts with. -/
def namesBelow? : Location → Location → Option (List String)
  | [], names => some names
  | _ :: _, [] => none
  | a :: as, b :: bs => if a = b then namesBelow? as bs else none

/-- The files below a location, by their paths from there. -/
def filesBelow (t : FileTree) (location : Location) : List (String × String) :=
  let files := t.entries.filterMap fun (place, entry) =>
    match entry, namesBelow? location place with
    | .text content, some (name :: names) => some (Text.join "/" (name :: names), content)
    | _, _ => none
  files.mergeSort fun a b => decide (a.1 ≤ b.1)

end FileTree

end SchemaTypes
