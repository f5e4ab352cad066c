import SchemaTypes.Plan.Output
import SchemaTypes.Proofs.Code.Extension
import SchemaTypes.Proofs.Lineage

/-!
# Files that are taken out and put back

While an emission is written, its file is out of the table and a placeholder keeps the
slot.  Nothing else is touched meanwhile (`SourceTable.get?_checkOut`).  Emissions leave the
namespace of a file as it is, so the file comes back under the name it was taken out
under, and takes the place of the placeholder (`SourceTable.emit_visit`).

So the files of the table are those of a run that writes every emission where the file of
its namespace stands (`SourceTable.emitAll_entries`).  What holds of such a run holds of the
table.
-/

namespace SchemaTypes

/-! ## Tables -/

namespace Table

variable {α : Type}

/-- What is put under a name twice is there once, as it was put last. -/
theorem put_put (t : Table α) (name : String) (a b : α) :
    (t.put name a).put name b = t.put name b := by
  induction t with
  | nil => simp [put]
  | cons entry rest ih =>
    obtain ⟨n, x⟩ := entry
    by_cases h : n = name <;> simp [put, h, ih]

end Table

namespace SourceTable

variable {c : Config} {files files' : SourceTable} {file : SourceFile} {path : Path} {e : Emission}

/-! ## Slots -/

/-- Every file stands under the name of its namespace. -/
def Keyed (files : SourceTable) : Prop := ∀ entry ∈ files, entry.2.path.dotted = entry.1

theorem Keyed.names (h : files.Keyed) : files.names = Store.spaces files.entries := by
  rw [Table.names, Store.spaces, Table.entries, List.map_map]
  exact List.map_congr_left fun entry hentry => (h entry hentry).symm

theorem Keyed.dotted_checkOut (h : files.Keyed) (path : Path) :
    (files.checkOut path).1.path.dotted = path.dotted := by
  have hstart : (SourceFile.start path).path = path := SourceFile.path_addImport basePath
  rw [checkOut]
  cases hget : files.get? path.dotted with
  | none => exact congrArg Path.dotted hstart
  | some file => exact h _ (Table.mem_of_get? hget)

theorem Keyed.put (h : files.Keyed) (hfile : file.path.dotted = path.dotted) :
    Keyed (files.put path.dotted file) := by
  intro entry hentry
  rcases Table.mem_put hentry with hentry | rfl
  · exact h entry hentry
  · exact hfile

/-- A file that is taken out leaves the other ones in the table. -/
theorem get?_checkOut (files : SourceTable) (path : Path) (name : String) :
    (files.checkOut path).2.get? name =
      if path.dotted = name then some (placeholder path) else files.get? name :=
  Table.get?_put ..

/-- A file that comes back under the name it was taken out under has its slot again, and the
placeholder is gone. -/
theorem checkIn_checkOut (files : SourceTable) (hfile : file.path.dotted = path.dotted) :
    (files.checkOut path).2.checkIn file = files.put path.dotted file := by
  rw [checkIn, hfile]
  exact Table.put_put ..

/-! ## One emission -/

/-- The file that an emission was written to belongs to the slot it was taken out of. -/
theorem Keyed.dotted_emit (h : files.Keyed)
    (hfile : (files.checkOut e.path).1.emit c e = .ok file) : file.path.dotted = e.path.dotted := by
  rw [(SourceFile.emit_extends hfile).path, h.dotted_checkOut]

/-- Taking a file out, writing and putting it back comes to an update of its slot. -/
theorem emit_eq (h : files.Keyed) (c : Config) (e : Emission) :
    files.emit c e = (files.checkOut e.path).1.emit c e >>= fun file =>
      pure (files.put e.path.dotted file) := by
  have hemit : files.emit c e = (files.checkOut e.path).1.emit c e >>= fun file =>
      pure ((files.checkOut e.path).2.checkIn file) := rfl
  rw [hemit]
  cases hfile : (files.checkOut e.path).1.emit c e with
  | error fault => rfl
  | ok file => exact congrArg Except.ok (checkIn_checkOut files (h.dotted_emit hfile))

/-- An emission extends the file that it takes out, and puts it back in its slot. -/
theorem emit_eq_ok (h : files.Keyed) (hemit : files.emit c e = .ok files') :
    ∃ file, (files.checkOut e.path).1.Extends file ∧ file.path.dotted = e.path.dotted ∧
      files' = (files.checkOut e.path).2.checkIn file ∧ files' = files.put e.path.dotted file := by
  rw [emit_eq h] at hemit
  obtain ⟨file, hfile, hput⟩ := Except.bind_eq_ok hemit
  cases hput
  have hpath := h.dotted_emit hfile
  exact ⟨file, SourceFile.emit_extends hfile, hpath, (checkIn_checkOut files hpath).symm, rfl⟩

theorem emit_keyed (h : files.Keyed) (hemit : files.emit c e = .ok files') : files'.Keyed := by
  obtain ⟨file, -, hpath, -, rfl⟩ := emit_eq_ok h hemit
  exact h.put hpath

/-- A table that an emission is written to has the files of a run that writes it where the file
of its namespace stands. -/
theorem emit_entries (h : files.Keyed) (c : Config) (e : Emission) :
    Table.entries <$> files.emit c e = Store.emit c files.entries e := by
  rw [emit_eq h, map_bind, checkOut]
  induction files with
  | nil => rfl
  | cons entry rest ih =>
    obtain ⟨name, file⟩ := entry
    have hname : file.path.dotted = name := h _ List.mem_cons_self
    have hrest : Keyed rest := fun entry hentry => h entry (List.mem_cons_of_mem _ hentry)
    subst hname
    simp only [Table.entries, List.map_cons, Store.emit, Table.get?, Table.put]
    split
    · rfl
    · have hothers := congrArg (fun x => (file :: ·) <$> x) (ih hrest)
      simpa [Table.entries, map_bind] using hothers

/-! ## All emissions -/

theorem emitAll_keyed {es : List Emission} (h : files.Keyed)
    (hrun : files.emitAll c es = .ok files') : files'.Keyed := by
  induction es generalizing files with
  | nil =>
    cases hrun
    exact h
  | cons e rest ih =>
    obtain ⟨middle, hfirst, hrest⟩ := Except.bind_eq_ok hrun
    exact ih (emit_keyed h hfirst) hrest

/-- The files of the table are those of a run that writes every emission where the file of its
namespace stands. -/
theorem emitAll_entries (h : files.Keyed) (c : Config) (es : List Emission) :
    Table.entries <$> files.emitAll c es = Store.emitAll c files.entries es := by
  induction es generalizing files with
  | nil => rfl
  | cons e rest ih =>
    rw [Store.emitAll, ← emit_entries h, emitAll]
    cases hfirst : files.emit c e with
    | error fault => rfl
    | ok middle => exact ih (emit_keyed h hfirst)

theorem emitAll_append (files : SourceTable) (c : Config) (es es' : List Emission) :
    files.emitAll c (es ++ es') = files.emitAll c es >>= fun middle => middle.emitAll c es' := by
  induction es generalizing files with
  | nil => rfl
  | cons e rest ih => simp only [List.cons_append, emitAll, bind_assoc, ih]

theorem keyed_nil : Keyed [] := nofun

/-- Where every emission is written where the file of its namespace stands, there is a table
with these files. -/
theorem exists_of_emitAll {store : Store} {es : List Emission}
    (h : Store.emitAll c [] es = .ok store) :
    ∃ files : SourceTable, SourceTable.emitAll c [] es = .ok files ∧ files.Keyed ∧
      files.entries = store := by
  have hentries := emitAll_entries keyed_nil c es
  cases hrun : SourceTable.emitAll c [] es with
  | error fault =>
    rw [hrun] at hentries
    cases hentries.trans h
  | ok files =>
    rw [hrun] at hentries
    exact ⟨files, rfl, emitAll_keyed keyed_nil hrun, Except.ok.inj (hentries.trans h)⟩

/-! ## Visits -/

/-- What a visit of the file of a namespace does to the table. -/
structure Visit (path : Path) (files files' : SourceTable) : Prop where
  /-- The file that is taken out is put back with more in it, under the name it was taken out
  under. -/
  returned : ∃ file, (files.checkOut path).1.Extends file ∧ file.path.dotted = path.dotted ∧
    files' = (files.checkOut path).2.checkIn file ∧ files'.get? path.dotted = some file
  /-- Meanwhile a placeholder is there. -/
  slot : (files.checkOut path).2.get? path.dotted = some (placeholder path)
  /-- The other files are left as they are, before and after the file comes back. -/
  others : ∀ name, name ≠ path.dotted →
    (files.checkOut path).2.get? name = files.get? name ∧ files'.get? name = files.get? name
  /-- The slot keeps its position, or is a new one at the end. -/
  names : files'.names = (files.checkOut path).2.names ∧
    files'.names =
      if path.dotted ∈ files.names then files.names else files.names ++ [path.dotted]
  /-- One file is extended where it stands, or comes to the end. -/
  entries : Store.Visit path files.entries files'.entries

/-- An emission visits the file of its namespace. -/
theorem emit_visit (h : files.Keyed) (hemit : files.emit c e = .ok files') :
    Visit e.path files files' := by
  have hstore : Store.emit c files.entries e = .ok files'.entries := by
    rw [← emit_entries h, hemit]
    rfl
  obtain ⟨file, hfile, hpath, hback, hput⟩ := emit_eq_ok h hemit
  refine ⟨⟨file, hfile, hpath, hback, ?_⟩, ?_, fun name hname => ⟨?_, ?_⟩, ⟨?_, ?_⟩,
    Store.emit_visit hstore⟩
  · rw [hput, Table.get?_put, if_pos rfl]
  · rw [get?_checkOut, if_pos rfl]
  · rw [get?_checkOut, if_neg hname.symm]
  · rw [hput, Table.get?_put, if_neg hname.symm]
  · rw [hput, checkOut, Table.names_put, Table.names_put]
  · rw [hput, Table.names_put]

end SourceTable

/-! ## Outputs -/

/-- The files of a plan are those of a run that writes every emission where the file of its
namespace stands. -/
theorem Plan.sources_eq (c : Config) (plan : Plan) :
    plan.sources c = Store.emitAll c [] plan.emissions >>= Store.finished := by
  have hentries := SourceTable.emitAll_entries SourceTable.keyed_nil c plan.emissions
  have hempty : Table.entries ([] : SourceTable) = [] := rfl
  rw [sources, ← hempty, ← hentries, bind_map_left]

end SchemaTypes
