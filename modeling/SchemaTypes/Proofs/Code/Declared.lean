import SchemaTypes.Proofs.Code.SourceFile
import SchemaTypes.Proofs.Declaration
import SchemaTypes.Proofs.Name

/-!
# Names that a file declares

A section of a file stands at the top level, or in the nested namespaces of a scope
(`Section.IsAt`).  A file declares a name in a scope when code in such a section has a line
that exports the name, and the code is part of the text of the file
(`SourceFile.Declares`).  What a file holds declares the names that its code exports
(`SourceFile.Holds.declares`).
-/

namespace SchemaTypes

/-! ## Scopes -/

/-- A section is where the declarations of a scope stand. -/
def Section.IsAt (scope : List String) : Section → Prop
  | .nested name => scope ≠ [] ∧ name = Text.join "." scope
  | _ => scope = []

/-- The names of the nested namespaces around what stands in a section, outermost first. -/
def Section.scope : Section → List String
  | .nested name => Text.splitOn '.' name
  | _ => []

theorem Section.isAt_scope (t : Section) : t.IsAt t.scope := by
  cases t with
  | nested name => exact ⟨Model.splitOn_ne_nil '.' name, (Text.join_splitOn '.' name).symm⟩
  | _ => rfl

theorem Section.scope_ofScope {scope : List String} (h : ∀ s ∈ scope, '.' ∉ s.toList) :
    (Section.ofScope scope).scope = scope := by
  cases scope with
  | nil => rfl
  | cons s rest => exact @Text.splitOn_join '.' _ (List.cons_ne_nil s rest) h

/-! ## Files -/

/-- A file declares a name in a scope: in a section of the scope stands code
with a line that exports the name, and the code is part of the text of the file. -/
def SourceFile.Declares (c : Config) (file : SourceFile) (scope : List String) (sort : ExportSort)
    (name : String) : Prop :=
  ∃ p : Placement, p.target.IsAt scope ∧ file.Holds c p ∧
    (Text.join "\n" (p.lines c)).toList <:+: file.typeLayer.toList ∧
    ∃ line ∈ Code.lines (p.code c), (sort.opening name).toList <+: line.toList

/-- What a file holds declares a name where a piece of its code exports the name. -/
theorem SourceFile.Holds.declares {c : Config} {file : SourceFile} {p : Placement}
    {scope : List String} {sort : ExportSort} {name : String} (h : file.Holds c p)
    (hat : p.target.IsAt scope) {code : Code} (hcode : code ∈ p.code c)
    (hopening : (sort.opening name).toList <+: code.opening.toList) :
    file.Declares c scope sort name :=
  ⟨p, hat, h, h.infix_typeLayer, code.opening, Code.opening_mem_lines hcode, hopening⟩

end SchemaTypes
