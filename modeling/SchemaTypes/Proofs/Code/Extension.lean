import Mathlib.Data.List.Induction
import SchemaTypes.Proofs.Code.SourceFile

/-!
# Emissions extend files

An emission takes nothing back (`SourceFile.emit_extends`): the lines of every
section stay in front, nested namespaces keep their order, imports stay in
their order, and the records for the runtime stay in front.  This holds of any
file and any emission.

In a store only one file is extended, the one of the namespace of the emission,
and it stays at its place.  Where there is none, a new file is put at the end
(`Store.emit_visit`).  So the files stand in the order in which their
namespaces came up, and there is one for each (`Store.emitAll_spaces`).
-/

namespace SchemaTypes

variable {c : Config}

namespace SourceFile

variable {file file' file'' : SourceFile}

/-! ## Files -/

/-- A file keeps what it has, and all that is new comes behind. -/
structure Extends (file file' : SourceFile) : Prop extends file.Grows file' where
  inserted : file.imports.Sublist file'.imports
  namespaces : Table.names file.namespaces <+: Table.names file'.namespaces
  inflections : file.inflections <+: file'.inflections
  enumStubs : file.enumStubs <+: file'.enumStubs
  operationNames : file.operationNames <+: file'.operationNames

theorem Extends.refl (file : SourceFile) : file.Extends file :=
  ⟨.refl file, List.Sublist.refl _, List.prefix_refl _, List.prefix_refl _, List.prefix_refl _,
    List.prefix_refl _⟩

theorem Extends.trans (h : file.Extends file') (h' : file'.Extends file'') :
    file.Extends file'' :=
  ⟨h.toGrows.trans h'.toGrows, h.inserted.trans h'.inserted, h.namespaces.trans h'.namespaces,
    h.inflections.trans h'.inflections, h.enumStubs.trans h'.enumStubs,
    h.operationNames.trans h'.operationNames⟩

theorem sublist_insertImport (specifier : String) (target : Path) (imports : Table Path) :
    imports.Sublist (insertImport specifier target imports) := by
  induction imports with
  | nil => exact List.nil_sublist _
  | cons entry rest ih =>
    simp only [insertImport]
    split
    · exact List.sublist_cons_self _ _
    · exact ih.cons_cons entry

theorem addImport_extends (file : SourceFile) (target : Path) :
    file.Extends (file.addImport target) := by
  have hgrows : file.Grows (file.addImport target) :=
    ⟨path_addImport target, imports_subset_addImport target, has_addImport target, fun t => by simp⟩
  simp only [addImport] at hgrows ⊢
  split at hgrows
  · next hlacks =>
    rw [if_pos hlacks]
    exact { hgrows with
      inserted := sublist_insertImport _ target file.imports
      namespaces := List.prefix_refl _
      inflections := List.prefix_refl _
      enumStubs := List.prefix_refl _
      operationNames := List.prefix_refl _ }
  · next hhas =>
    rw [if_neg hhas]
    exact .refl file

theorem addImports_extends (file : SourceFile) (targets : List Path) :
    file.Extends (file.addImports targets) := by
  induction targets generalizing file with
  | nil => exact .refl file
  | cons target rest ih => exact (file.addImport_extends target).trans (ih (file.addImport target))

theorem setBuffer_extends {b : Buffer} {t : Section} (h : (file.buffer t).lines <+: b.lines) :
    file.Extends (file.setBuffer b t) where
  toGrows := setBuffer_grows h
  inserted := by simp
  namespaces := by
    cases t with
    | nested name =>
      simp only [setBuffer, Table.names_put]
      split
      · exact List.prefix_refl _
      · exact List.prefix_append _ _
    | _ => exact List.prefix_refl _
  inflections := by cases t <;> exact List.prefix_refl _
  enumStubs := by cases t <;> exact List.prefix_refl _
  operationNames := by cases t <;> exact List.prefix_refl _

theorem append_extends {t : Section} {code : List Code} (h : file.append t code = .ok file') :
    file.Extends file' := by
  rw [append] at h
  obtain ⟨b, hb, h⟩ := Except.bind_eq_ok h
  cases h
  exact setBuffer_extends (Buffer.append_keeps hb)

theorem place_extends {placements : List Placement} (h : file.place c placements = .ok file') :
    file.Extends file' := by
  induction placements generalizing file with
  | nil =>
    cases h
    exact .refl _
  | cons p rest ih =>
    rw [place] at h
    obtain ⟨middle, hfirst, h⟩ := Except.bind_eq_ok h
    exact (append_extends hfirst).trans (ih h)

theorem addRecords_extends (file : SourceFile) (e : Emission) :
    file.Extends (file.addRecords e) where
  path := rfl
  imports := List.Subset.refl _
  sections := fun t ht => by cases t <;> exact ht
  lines := fun t => by cases t <;> exact List.prefix_refl _
  inserted := List.Sublist.refl _
  namespaces := List.prefix_refl _
  inflections := List.prefix_append _ _
  enumStubs := List.prefix_append _ _
  operationNames := List.prefix_append _ _

theorem emit_extends {e : Emission} (h : file.emit c e = .ok file') : file.Extends file' := by
  obtain ⟨placed, hplaced, rfl⟩ := emit_eq_ok h
  exact ((file.addImports_extends e.imports).trans (place_extends hplaced)).trans
    (placed.addRecords_extends e)

end SourceFile

/-! ## Stores -/

namespace Store

variable {store store' : Store}

/-- What a visit of the file of a namespace does to a store. -/
inductive Visit (path : Path) : Store → Store → Prop
  /-- The file is extended where it stands. -/
  | known (before : Store) {after : Store} {file file' : SourceFile} :
      path.dotted ∉ before.spaces → file.path.dotted = path.dotted → file.Extends file' →
      Visit path (before ++ file :: after) (before ++ file' :: after)
  /-- A new file comes to the end. -/
  | new (store : Store) {file' : SourceFile} : path.dotted ∉ store.spaces →
      (SourceFile.start path).Extends file' → Visit path store (store ++ [file'])

namespace Visit

variable {path : Path}

theorem spaces (h : Visit path store store') :
    store'.spaces =
      if path.dotted ∈ store.spaces then store.spaces else store.spaces ++ [path.dotted] := by
  cases h with
  | known before _ hpath hextends => simp [Store.spaces, hextends.path, hpath]
  | new _ hstore hextends =>
    have hpath : (SourceFile.start path).path = path := SourceFile.path_addImport basePath
    rw [if_neg hstore]
    simp [Store.spaces, hextends.path, hpath]

end Visit

/-- An emission visits the file of its namespace. -/
theorem emit_visit {e : Emission} (h : store.emit c e = .ok store') :
    Visit e.path store store' := by
  rcases emit_eq_ok h with ⟨before, file, after, file', rfl, hbefore, hpath, hfile, rfl⟩ |
      ⟨hnew, file', hfile, rfl⟩
  · exact .known before hbefore hpath (SourceFile.emit_extends hfile)
  · exact .new store hnew (SourceFile.emit_extends hfile)

/-- The files stand in the order in which their namespaces came up. -/
theorem emitAll_spaces {es : List Emission} {earlier : List String}
    (hspaces : store.spaces = earlier.eraseDups) (h : store.emitAll c es = .ok store') :
    store'.spaces = (earlier ++ es.map fun e => e.path.dotted).eraseDups := by
  induction es generalizing store earlier with
  | nil =>
    cases h
    simpa using hspaces
  | cons e rest ih =>
    rw [emitAll] at h
    obtain ⟨middle, hfirst, h⟩ := Except.bind_eq_ok h
    have hmiddle : middle.spaces = (earlier ++ [e.path.dotted]).eraseDups := by
      rw [(emit_visit hfirst).spaces, hspaces, List.eraseDups_append]
      by_cases hmem : e.path.dotted ∈ earlier <;> simp [List.removeAll, hmem, List.eraseDups_cons]
    simpa using ih hmiddle h

theorem nodup_of_eraseDups {names : List String} (h : store.spaces = names.eraseDups) :
    store.spaces.Nodup := by
  rw [h]
  clear h
  induction names using List.reverseRecOn with
  | nil => exact List.nodup_nil
  | append_singleton rest name ih =>
    rw [List.eraseDups_append]
    by_cases hmem : name ∈ rest
    · simpa [List.removeAll, hmem] using ih
    · simp [List.removeAll, hmem, List.eraseDups_cons, List.nodup_append, ih]
      rintro x hx rfl
      exact hmem hx

theorem emitAll_append {es es' : List Emission} :
    store.emitAll c (es ++ es') = store.emitAll c es >>= fun middle => middle.emitAll c es' := by
  induction es generalizing store with
  | nil => rfl
  | cons e rest ih =>
    simp only [List.cons_append, emitAll, bind_assoc, ih]

end Store

end SchemaTypes
