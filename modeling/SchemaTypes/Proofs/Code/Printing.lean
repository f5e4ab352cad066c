import SchemaTypes.Code.RuntimeStub
import SchemaTypes.Declaration.Layout

/-!
# Printing code line by line

Code is printed into a buffer by edits: a line is added, and a block is entered
after its opening line and left before its closing line (`Code.edits`).  In a
buffer that takes lines no edit goes wrong.  The buffer comes back to its depth,
and the lines that were added are those of the layout (`Buffer.applyAll_editsAll`).

A printer that gives up half way has made the first ones of these edits.  They do
not go wrong either (`Code.prints`).
-/

namespace SchemaTypes

namespace Code

mutual

/-- The edits that print a piece of code. -/
def edits : Code → List Edit
  | .line text => [.add text]
  | .block opening body closing =>
      [.add opening, .indent] ++ editsAll body ++ [.outdent, .add closing]

/-- The edits that print several pieces of code. -/
def editsAll : List Code → List Edit
  | [] => []
  | code :: rest => edits code ++ editsAll rest

end

end Code

namespace Buffer

open Code

variable {b : Buffer}

theorem applyAll_append (b : Buffer) (first second : List Edit) :
    b.applyAll (first ++ second) =
      match b.applyAll first with
      | (b', some fault) => (b', some fault)
      | (b', none) => b'.applyAll second := by
  induction first generalizing b with
  | nil => rfl
  | cons edit rest ih =>
    simp only [List.cons_append, applyAll]
    rcases b.apply edit with ⟨b', _ | fault⟩
    · exact ih b'
    · rfl

/-- Edits of which none goes wrong, and then other ones. -/
theorem applyAll_append_of_eq {b' : Buffer} {first : List Edit}
    (h : b.applyAll first = (b', none)) (second : List Edit) :
    b.applyAll (first ++ second) = b'.applyAll second := by
  rw [applyAll_append, h]

/-- The buffer with more lines. -/
def extend (b : Buffer) (lines : List String) : Buffer := { b with lines := b.lines ++ lines }

@[simp] theorem closed_extend (lines : List String) : (b.extend lines).closed = b.closed := rfl

@[simp] theorem depth_extend (lines : List String) : (b.extend lines).depth = b.depth := rfl

@[simp] theorem extend_extend (first second : List String) :
    (b.extend first).extend second = b.extend (first ++ second) := by
  simp only [extend, List.append_assoc]

theorem indent_extend (lines : List String) : b.indent.extend lines = (b.extend lines).indent := rfl

theorem applyAll_add (h : b.closed = false) (text : String) :
    b.applyAll [.add text] = (b.extend [indented b.depth text], none) := by
  simp only [applyAll, apply, orKeep, add, h, Bool.false_eq_true, if_false, extend]

theorem applyAll_enter (h : b.closed = false) (opening : String) :
    b.applyAll [.add opening, .indent] = ((b.extend [indented b.depth opening]).indent, none) := by
  simp only [applyAll, apply, orKeep, add, h, Bool.false_eq_true, if_false, extend]

theorem applyAll_leave (h : b.closed = false) (closing : String) :
    b.indent.applyAll [.outdent, .add closing] = (b.extend [indented b.depth closing], none) := by
  simp only [applyAll, apply, orKeep, outdent, indent, add, h, Nat.add_one_ne_zero, if_false,
    Nat.add_sub_cancel, Bool.false_eq_true, extend]

mutual

theorem applyAll_edits (b : Buffer) (h : b.closed = false) :
    ∀ code, b.applyAll (edits code) = (b.extend (linesAt b.depth code), none)
  | .line text => applyAll_add h text
  | .block opening body closing => by
    have hinside := applyAll_editsAll (b.extend [indented b.depth opening]).indent h body
    rw [edits, List.append_assoc, applyAll_append_of_eq (applyAll_enter h opening),
      applyAll_append_of_eq hinside, indent_extend, applyAll_leave (by simpa using h)]
    simp only [extend_extend, depth_extend, linesAt, List.append_assoc, List.cons_append]
    rfl

/-- Code is printed into a buffer that takes lines as it is laid out at the depth of
the buffer. -/
theorem applyAll_editsAll (b : Buffer) (h : b.closed = false) :
    ∀ code, b.applyAll (editsAll code) = (b.extend (linesAllAt b.depth code), none)
  | [] => by simp [editsAll, linesAllAt, applyAll, extend]
  | code :: rest => by
    have hrest := applyAll_editsAll (b.extend (linesAt b.depth code)) h rest
    rw [editsAll, applyAll_append_of_eq (applyAll_edits b h code), hrest, extend_extend,
      depth_extend, linesAllAt]

end

/-- Where no edit goes wrong, none of the first ones does. -/
theorem applyAll_prefix {first edits : List Edit} (hfirst : first <+: edits)
    (h : (b.applyAll edits).2 = none) : (b.applyAll first).2 = none := by
  obtain ⟨second, rfl⟩ := hfirst
  rw [applyAll_append] at h
  split at h
  · cases h
  · next heq => rw [heq]

end Buffer

/-- Code is printed into a buffer of its own as it is laid out, and nothing goes
wrong however far printing comes, in any buffer that takes lines. -/
structure Code.Prints (code : List Code) : Prop where
  whole : ({} : Buffer).applyAll (Code.editsAll code) = ({ lines := Code.lines code }, none)
  beginning : ∀ (b : Buffer) (first : List Edit), b.closed = false →
    first <+: Code.editsAll code → (b.applyAll first).2 = none

theorem Code.prints (code : List Code) : Code.Prints code where
  whole := Buffer.applyAll_editsAll {} rfl code
  beginning := fun b _ h hfirst =>
    Buffer.applyAll_prefix hfirst (by rw [Buffer.applyAll_editsAll b h code])

/-- The code of the runtime stub. -/
def SourceFile.stubCode (file : SourceFile) (useProxy : Bool) (base : Path) : List Code :=
  [.line banner] ++ (if useProxy then file.proxyLines base else file.directLines) ++
    file.serviceLines ++ file.enumLines ++ file.operationLines

theorem SourceFile.runtimeStub_eq (file : SourceFile) (useProxy : Bool) (base : Path) :
    file.runtimeStub useProxy base =
      Text.join "\n" (Code.lines (file.stubCode useProxy base)) ++ "\n" := rfl

end SchemaTypes
