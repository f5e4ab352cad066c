import SchemaTypes.Path.Directory

/-!
# Namespace paths

A namespace of the model is a sequence of segments, written with dots between
them.  The generator writes one directory per namespace and refers to other
namespaces by import aliases.  So a path has three texts: the dotted one, the
alias and the directory.
-/

namespace SchemaTypes

/-- A namespace, segment by segment. -/
structure Path where
  /-- The segments, outermost first. -/
  segments : List String
deriving DecidableEq, Repr, Inhabited

namespace Path

/-- The namespace above all others. -/
def root : Path := ⟨[]⟩

/-- The namespace a dotted text names.  The empty text names the root. -/
def ofDotted (text : String) : Path :=
  if text = "" then root else ⟨Text.splitOn '.' text⟩

/-- The dotted text. -/
def dotted (p : Path) : String := Text.join "." p.segments

/-- The alias under which a file imports the namespace. -/
def identifier (p : Path) : String := "_" ++ Text.join "_" p.segments

/-- The namespace one segment shorter.  The root is its own parent. -/
def parent (p : Path) : Path := ⟨p.segments.dropLast⟩

/-! ## Order -/

/-- Segment by segment, by code points.  A path comes before its extensions. -/
def compareSegments : List String → List String → Ordering
  | [], [] => .eq
  | [], _ :: _ => .lt
  | _ :: _, [] => .gt
  | a :: as, b :: bs => (compare a b).then (compareSegments as bs)

instance : Ord Path := ⟨fun p q => compareSegments p.segments q.segments⟩

/-! ## Directories -/

/-- How a directory is written. -/
structure DirectoryStyle where
  /-- The namespace whose directory is the point of view. -/
  relativeTo : Option Path := none
  /-- Starts with `./`, as a module specifier has to. -/
  asSpecifier : Bool := false
  /-- A backslash is written as `/`. -/
  forwardSlashes : Bool := false
deriving DecidableEq, Repr

/-- The directory of the namespace below the output directory. -/
def location (p : Path) : String := Directory.joinNames p.segments

/-- The directory of the namespace as seen from another namespace. -/
def locationFrom (p base : Path) : String :=
  (Directory.relative? p.location base.location).getD p.location

/-- The text with `/` for every backslash. -/
def withForwardSlashes (text : String) : String :=
  String.ofList (text.toList.map fun c => if c = '\\' then '/' else c)

/-- The directory in the given style. -/
def directory (p : Path) (style : DirectoryStyle) : String :=
  let plain := match style.relativeTo with
    | some base => p.locationFrom base
    | none => p.location
  let slashed := if style.forwardSlashes then withForwardSlashes plain else plain
  if style.asSpecifier then "./" ++ slashed else slashed

/-- The module specifier under which a file of the namespace `home` imports
this one. -/
def specifierFrom (p home : Path) : String :=
  p.directory { relativeTo := some home, asSpecifier := true, forwardSlashes := true }

/-- The directory below the output directory, with forward slashes. -/
def outputDirectory (p : Path) : String := p.directory { forwardSlashes := true }

/-- Whether the namespace is the current directory as seen from another. -/
def isHere (p base : Path) : Bool := p.directory { relativeTo := some base } == ""

end Path

end SchemaTypes
