import SchemaTypes.Text.Split

/-!
# Directory texts

A directory is written as names with `/` between them.  `joinNames` puts names
together the way a path is extended name by name: a name that starts with `/`
starts the path anew, and a separator is added only where none stands yet.

`components` reads a text back.  Empty names and the name `.` stand for
nothing, but a leading `/` is a component of its own, and so is a `.` at the
very start.

`relative?` walks from one directory to another.  The common start of both is
dropped.  Then each remaining component of the base is left by `..`, and the
remaining components of the target follow.
-/

namespace SchemaTypes

namespace Directory

/-! ## Joining names -/

/-- Whether the text starts at the root. -/
def isAbsolute (path : String) : Bool := path.toList.head? == some '/'

/-- Whether the text ends with a separator. -/
def endsWithSeparator (path : String) : Bool := path.toList.getLast? == some '/'

/-- The path with one name more. -/
def push (path name : String) : String :=
  if isAbsolute name then name
  else if path == "" || endsWithSeparator path then path ++ name
  else path ++ "/" ++ name

/-- The path made of names, one after the other. -/
def joinNames (names : List String) : String := names.foldl push ""

/-! ## Components -/

/-- One step of a path. -/
inductive Component
  | root
  | current
  | parent
  | name (text : String)
deriving DecidableEq, Repr

/-- How a component is written. -/
def Component.text : Component → String
  | .root => "/"
  | .current => "."
  | .parent => ".."
  | .name text => text

/-- The component a name between separators stands for, if any. -/
def Component.ofName? (name : String) : Option Component :=
  if name == "" || name == "." then none
  else if name == ".." then some .parent
  else some (.name name)

/-- What a path starts with: the root, the current directory or neither. -/
def leading (path : String) : List Component :=
  if isAbsolute path then [.root]
  else if (Text.splitOn '/' path).head? == some "." then [.current]
  else []

/-- The components of a path. -/
def components (path : String) : List Component :=
  leading path ++ (Text.splitOn '/' path).filterMap Component.ofName?

/-- The path made of components. -/
def ofComponents (steps : List Component) : String := joinNames (steps.map Component.text)

/-! ## Walking from one directory to another -/

/-- The steps from the base to the target once they differ. -/
def leave (base target : List Component) : List Component :=
  base.map (fun _ => .parent) ++ target

/-- The steps from the base to the target, given the steps taken so far.  There
are none where the base climbs above a directory that is not known. -/
def stepsFrom? : List Component → List Component → List Component → Option (List Component)
  | taken, target, [] => some (taken ++ target)
  | taken, [], _ :: base => stepsFrom? (taken ++ [.parent]) [] base
  | taken, t :: target, b :: base =>
      if taken.isEmpty && t == b then stepsFrom? taken target base
      else if b == .current then stepsFrom? (taken ++ [t]) target base
      else if b == .parent then none
      else some (taken ++ leave (b :: base) (t :: target))

/-- The target as seen from the base, where there is such a path. -/
def relative? (target base : String) : Option String :=
  if isAbsolute target = isAbsolute base then
    (stepsFrom? [] (components target) (components base)).map ofComponents
  else if isAbsolute target then some target
  else none

end Directory

end SchemaTypes
