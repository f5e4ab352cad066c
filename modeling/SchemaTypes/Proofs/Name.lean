import SchemaTypes.Model.Name
import SchemaTypes.Proofs.Path
import SchemaTypes.Proofs.Table

/-!
# The parts of a defined name

The parts of a full name that is defined put together give the name again, and
nothing of it is left for the access (`Model.segments_of_defined`).  So the
names of a definition can be looked up by its parts, and every part is a piece
of the full name.
-/

namespace SchemaTypes

namespace Model

variable {m : Model} {name : String} {d : Definition}

/-- No segment of a defined name is empty or holds a separator. -/
def PlainNames (m : Model) : Prop :=
  ∀ name ∈ Table.names m.definitions, ∀ s ∈ Text.splitOn '.' name,
    s ≠ "" ∧ '/' ∉ s.toList ∧ '\\' ∉ s.toList

theorem PlainNames.segment (h : m.PlainNames) (hd : m.find? name = some d) {s : String}
    (hs : s ∈ Text.splitOn '.' name) : PlainSegment s := by
  obtain ⟨hne, hslash, hback⟩ := h name (mem_names_of_find? hd) s hs
  exact ⟨hne, Text.notMem_of_mem_splitOn hs, hslash, hback⟩

theorem splitNamespace_append (m : Model) (segments : List String) :
    ∀ taken, (m.splitNamespace taken segments).1 ++ (m.splitNamespace taken segments).2 =
      taken ++ segments := by
  induction segments with
  | nil => exact fun taken => rfl
  | cons segment rest ih =>
    intro taken
    cases rest with
    | nil => rfl
    | cons next rest =>
      rw [splitNamespace]
      split
      · rw [ih, List.append_assoc]
        rfl
      · rfl

theorem starts_splitNamespace {taken segments : List String} :
    taken <+: (m.splitNamespace taken segments).1 := by
  induction segments generalizing taken with
  | nil => exact List.prefix_rfl
  | cons segment rest ih =>
    cases rest with
    | nil => exact List.prefix_rfl
    | cons next rest =>
      rw [splitNamespace]
      split
      · exact (List.prefix_append taken [segment]).trans ih
      · exact List.prefix_rfl

theorem splitNamespace_snd_ne_nil (m : Model) {segments : List String} (h : segments ≠ []) :
    ∀ taken, (m.splitNamespace taken segments).2 ≠ [] := by
  induction segments with
  | nil => exact absurd rfl h
  | cons segment rest ih =>
    intro taken
    cases rest with
    | nil => exact List.cons_ne_nil segment []
    | cons next rest =>
      rw [splitNamespace]
      split
      · exact ih (List.cons_ne_nil next rest) _
      · exact List.cons_ne_nil _ _

theorem definedLength?_of_defines {taken rest : List String} (hne : rest ≠ [])
    (h : m.defines (Text.join "." (taken ++ rest)) = true) :
    m.definedLength? taken rest rest.length = some rest.length := by
  obtain ⟨n, hn⟩ : ∃ n, rest.length = n + 1 :=
    Nat.exists_eq_succ_of_ne_zero (by simpa using hne)
  rw [hn, definedLength?, ← hn, List.take_length, if_pos h]

theorem splitOn_ne_nil (sep : Char) (s : String) : Text.splitOn sep s ≠ [] := by
  simpa [Text.splitOn] using Text.splitChars_ne_nil sep s.toList

theorem scopeAndName_append {segments : List String} (h : segments ≠ []) :
    (scopeAndName segments).1 ++ [(scopeAndName segments).2] = segments := by
  rw [scopeAndName, List.getLast?_eq_getLast_of_ne_nil h]
  exact List.dropLast_append_getLast h

/-- The parts of a defined name are its segments. -/
theorem segments_of_defined (h : m.find? name = some d) :
    (m.nameParts name).path.segments ++ (m.nameParts name).scope ++ [(m.nameParts name).name] =
      Text.splitOn '.' name := by
  have happend := m.splitNamespace_append (Text.splitOn '.' name) []
  have hne := m.splitNamespace_snd_ne_nil (splitOn_ne_nil '.' name) []
  rw [nameParts]
  rcases hsplit : m.splitNamespace [] (Text.splitOn '.' name) with ⟨space, rest⟩
  rw [hsplit, List.nil_append] at happend
  rw [hsplit] at hne
  simp only at happend hne ⊢
  have hdefines : m.defines (Text.join "." (space ++ rest)) = true := by
    have hdot : "." = String.singleton '.' := rfl
    rw [happend, hdot, Text.join_splitOn, defines, h]
    rfl
  rw [definedLength?_of_defines hne hdefines, Option.getD_some, List.take_length,
    List.append_assoc, scopeAndName_append hne, happend]

theorem definitionName_of_defined (h : m.find? name = some d) :
    (m.nameParts name).definitionName = name := by
  have hdot : "." = String.singleton '.' := rfl
  rw [NameParts.definitionName, segments_of_defined h, hdot, Text.join_splitOn]

/-- The namespace of a defined name is a plain path, where the name is plain. -/
theorem PlainNames.path (hplain : m.PlainNames) (h : m.find? name = some d) :
    (m.nameParts name).path.Plain := by
  intro s hs
  refine hplain.segment h ?_
  rw [← segments_of_defined h]
  simp [hs]

theorem inflection_of_defined (h : m.find? name = some d) :
    m.inflection (m.nameParts name) =
      if isUninflected d.kind then .uninflected (m.nameParts name).name
      else (Naming.derive (m.nameParts name).name (d.noteText? Definition.singularNote)
        (d.noteText? Definition.pluralNote)).1 := by
  rw [inflection, inflectionWithIssues, definitionName_of_defined h, h]
  dsimp only
  split <;> rfl

theorem singular_of_uninflected (h : m.find? name = some d)
    (hkind : isUninflected d.kind = true) :
    (m.inflection (m.nameParts name)).singular = (m.nameParts name).name := by
  rw [inflection_of_defined h, if_pos hkind]
  rfl

end Model

end SchemaTypes
