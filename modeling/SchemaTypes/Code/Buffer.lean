import SchemaTypes.Code.Block
import SchemaTypes.Text.Lines

/-!
# Buffers

A buffer collects the lines of one section of a file.  It has a depth, which
indents every line that is added, and it can be closed.  Two edits can go
wrong: leaving a block that was never entered, and writing into a closed
buffer.  Each is a `Fault`, and the buffer keeps what was written before it.

`Edit` is what can be done to a buffer, as data.  `Buffer.append` is the edit
the generator makes: it adds a rendered definition, with a blank line before
it unless it is the first one of its block.
-/

namespace SchemaTypes

/-- What can go wrong with a buffer. -/
inductive Fault
  | belowMargin
  | closedBuffer
deriving DecidableEq, Repr

/-- The wording of a fault. -/
def Fault.message : Fault → String
  | .belowMargin => "cannot outdent a buffer below zero"
  | .closedBuffer => "cannot write into a closed buffer"

/-- Lines written so far, and how the next one is written. -/
structure Buffer where
  /-- The lines, first one first. -/
  lines : List String := []
  /-- Levels of indentation of the next line. -/
  depth : Nat := 0
  /-- Whether the buffer takes no more lines. -/
  closed : Bool := false
deriving DecidableEq, Repr, Inhabited

/-- A change of a buffer. -/
inductive Edit
  | indent
  | outdent
  | close
  | add (line : String)
  | addLines (text : String)
  | block (opening : String) (body : List Edit) (closing : String)
deriving Inhabited

namespace Buffer

/-- The indentation of the next line. -/
def indentation (b : Buffer) : String := Text.replicate b.depth indentUnit

/-- Enters a block. -/
def indent (b : Buffer) : Buffer := { b with depth := b.depth + 1 }

/-- Leaves a block. -/
def outdent (b : Buffer) : Except Fault Buffer :=
  if b.depth = 0 then .error .belowMargin else .ok { b with depth := b.depth - 1 }

/-- Adds a line at the current depth. -/
def add (b : Buffer) (line : String) : Except Fault Buffer :=
  if b.closed then .error .closedBuffer
  else .ok { b with lines := b.lines ++ [indented b.depth line] }

/-- Adds lines at the current depth. -/
def addAll (b : Buffer) : List String → Except Fault Buffer
  | [] => .ok b
  | line :: rest => do
      let b ← b.add line
      b.addAll rest

/-- Adds every line of a text at the current depth. -/
def addLines (b : Buffer) (text : String) : Except Fault Buffer := b.addAll (Text.lines text)

/-- Takes no more lines. -/
def close (b : Buffer) : Buffer := { b with closed := true }

/-- The lines with a text between each two of them. -/
def joined (b : Buffer) (glue : String) : String := Text.join glue b.lines

/-- Whether the next line is the first of the buffer or of a block. -/
def opensBlock (b : Buffer) : Bool :=
  match b.lines.getLast? with
  | none => true
  | some line => line.toList.getLast? == some '{'

/-- Adds a rendered definition, set off from the one before by a blank
line. -/
def append (b : Buffer) (code : List Code) : Except Fault Buffer := do
  let b ← if b.opensBlock then pure b else b.add ""
  b.addLines (Text.join "\n" (Code.lines code))

/-! ## Edits -/

/-- The buffer after a step that can go wrong.  It is left as it was when the
step went wrong. -/
def orKeep (b : Buffer) : Except Fault Buffer → Buffer × Option Fault
  | .ok b' => (b', none)
  | .error fault => (b, some fault)

mutual

/-- Makes an edit.  A block whose body goes wrong stays entered. -/
def apply (b : Buffer) : Edit → Buffer × Option Fault
  | .indent => (b.indent, none)
  | .outdent => b.orKeep b.outdent
  | .close => (b.close, none)
  | .add line => b.orKeep (b.add line)
  | .addLines text => b.orKeep (b.addLines text)
  | .block opening body closing =>
      match b.add opening with
      | .error fault => (b, some fault)
      | .ok opened =>
          match applyAll opened.indent body with
          | (inside, some fault) => (inside, some fault)
          | (inside, none) =>
              match inside.outdent with
              | .error fault => (inside, some fault)
              | .ok outside => outside.orKeep (outside.add closing)

/-- Makes edits one after the other, up to the first that goes wrong. -/
def applyAll (b : Buffer) : List Edit → Buffer × Option Fault
  | [] => (b, none)
  | edit :: rest =>
      match b.apply edit with
      | (b', some fault) => (b', some fault)
      | (b', none) => b'.applyAll rest

end

end Buffer

end SchemaTypes
