import SchemaTypes.Plan.Emission
import SchemaTypes.Proofs.Path
import SchemaTypes.Proofs.Table
import SchemaTypes.Proofs.Text

/-!
# Source files only grow

Whatever is added to a source file, its imports stay and what was written to a
section stays in front (`SourceFile.Grows`).  So a file that carries an emission
keeps it (`SourceFile.Carries.mono`).

A file is in order (`SourceFile.InOrder`) when every section has the depth it
was opened with and every import stands under the module specifier of its
namespace.  In such a file a specifier stands for one namespace, so adding an
emission leaves all its imports and declarations behind
(`SourceFile.emit_carries`).

What stands in a section stands in the type layer of the file
(`SourceFile.Holds.infix_typeLayer`).

A run that only lists its files writes an emission into the file of its namespace, where
it stands, and starts the file at the end where there is none (`Store.emit`,
`Store.emit_eq_ok`).
-/

namespace SchemaTypes

/-! ## Buffers -/

theorem Except.bind_eq_ok {ε α β : Type} {x : Except ε α} {next : α → Except ε β} {b : β}
    (h : (x >>= next) = .ok b) : ∃ a, x = .ok a ∧ next a = .ok b := by
  cases x with
  | error e => cases h
  | ok a => exact ⟨a, rfl, h⟩

namespace Buffer

variable {b b' : Buffer}

theorem add_eq_ok {line : String} (h : b.add line = .ok b') :
    b'.lines = b.lines ++ [indented b.depth line] ∧ b'.depth = b.depth := by
  simp only [add] at h
  split at h
  · cases h
  · cases h
    exact ⟨rfl, rfl⟩

theorem addAll_eq_ok {lines : List String} (h : b.addAll lines = .ok b') :
    b'.lines = b.lines ++ lines.map (indented b.depth) ∧ b'.depth = b.depth := by
  induction lines generalizing b with
  | nil =>
    cases h
    simp
  | cons line rest ih =>
    rw [addAll] at h
    obtain ⟨middle, hadd, h⟩ := Except.bind_eq_ok h
    obtain ⟨hlines, hdepth⟩ := add_eq_ok hadd
    obtain ⟨hlines', hdepth'⟩ := ih h
    rw [hlines, hdepth] at hlines'
    exact ⟨by simpa using hlines', hdepth'.trans hdepth⟩

/-- A rendered definition is added behind everything else. -/
theorem append_eq_ok {code : List Code} (h : b.append code = .ok b') :
    ∃ gap, b'.lines = b.lines ++ gap ++
        (Text.lines (Text.join "\n" (Code.lines code))).map (indented b.depth) ∧
      b'.depth = b.depth := by
  simp only [append] at h
  split at h
  · obtain ⟨hlines, hdepth⟩ := addAll_eq_ok h
    exact ⟨[], by simpa using hlines, hdepth⟩
  · obtain ⟨middle, hadd, h⟩ := Except.bind_eq_ok h
    obtain ⟨hlines, hdepth⟩ := add_eq_ok hadd
    obtain ⟨hlines', hdepth'⟩ := addAll_eq_ok h
    rw [hlines, hdepth] at hlines'
    exact ⟨_, hlines', hdepth'.trans hdepth⟩

/-- What was written stays in front. -/
theorem append_keeps {code : List Code} (h : b.append code = .ok b') : b.lines <+: b'.lines := by
  obtain ⟨gap, hlines, -⟩ := append_eq_ok h
  rw [hlines, List.append_assoc]
  exact List.prefix_append _ _

end Buffer

/-! ## Sections -/

/-- The depth of what is written to a section. -/
def Section.depth : Section → Nat
  | .nested _ => 1
  | _ => 0

/-- The lines of a placement in its section. -/
def Placement.lines (c : Config) (p : Placement) : List String :=
  (Text.lines (Text.join "\n" (Code.lines (p.code c)))).map (indented p.target.depth)

namespace SourceFile

variable {file file' file'' : SourceFile}

theorem buffer_setBuffer (b : Buffer) (t t' : Section) :
    (file.setBuffer b t).buffer t' = if t = t' then b else file.buffer t' := by
  cases t <;> cases t' <;> simp [setBuffer, buffer]
  next name name' =>
    rw [Table.get?_put]
    split <;> rfl

@[simp] theorem path_setBuffer (b : Buffer) (t : Section) :
    (file.setBuffer b t).path = file.path := by
  cases t <;> rfl

@[simp] theorem imports_setBuffer (b : Buffer) (t : Section) :
    (file.setBuffer b t).imports = file.imports := by
  cases t <;> rfl

/-- A section is part of the file.  A nested namespace is so once it was written
to. -/
def Has (file : SourceFile) : Section → Prop
  | .nested name => Table.has file.namespaces name = true
  | _ => True

theorem has_setBuffer (b : Buffer) {t t' : Section} (h : t = t' ∨ file.Has t') :
    (file.setBuffer b t).Has t' := by
  cases t' with
  | nested name' =>
    cases t with
    | nested name =>
      simp only [Has, setBuffer, Table.has, Table.get?_put]
      split
      · rfl
      · next hne =>
        refine h.resolve_left fun heq => hne ?_
        cases heq
        rfl
    | _ => exact h.resolve_left (by simp)
  | _ => cases t <;> trivial

/-- Imports and sections stay, and so does what was written to a section. -/
structure Grows (file file' : SourceFile) : Prop where
  path : file'.path = file.path
  imports : file.imports ⊆ file'.imports
  sections : ∀ t, file.Has t → file'.Has t
  lines : ∀ t, (file.buffer t).lines <+: (file'.buffer t).lines

theorem Grows.refl (file : SourceFile) : file.Grows file :=
  ⟨rfl, List.Subset.refl _, fun _ => id, fun _ => List.prefix_refl _⟩

theorem Grows.trans (h : file.Grows file') (h' : file'.Grows file'') : file.Grows file'' :=
  ⟨h'.path.trans h.path, List.Subset.trans h.imports h'.imports,
    fun t ht => h'.sections t (h.sections t ht), fun t => (h.lines t).trans (h'.lines t)⟩

/-- A section in which what was written stays in front. -/
theorem setBuffer_grows {b : Buffer} {t : Section} (h : (file.buffer t).lines <+: b.lines) :
    file.Grows (file.setBuffer b t) := by
  refine ⟨path_setBuffer b t, by simp, fun t' ht => has_setBuffer b (Or.inr ht), fun t' => ?_⟩
  rw [buffer_setBuffer]
  split
  · next heq =>
    subst heq
    exact h
  · exact List.prefix_refl _

/-- The lines of a placement stand in its section. -/
structure Holds (c : Config) (file : SourceFile) (p : Placement) : Prop where
  has : file.Has p.target
  lines : p.lines c <:+: (file.buffer p.target).lines

theorem Holds.mono {c : Config} {p : Placement} (h : file.Holds c p) (hgrows : file.Grows file') :
    file'.Holds c p :=
  ⟨hgrows.sections _ h.has, h.lines.trans (hgrows.lines p.target).isInfix⟩

/-- What is written to a section is written at its depth. -/
def Leveled (file : SourceFile) : Prop := ∀ t, (file.buffer t).depth = t.depth

theorem append_grows {t : Section} {code : List Code} (h : file.append t code = .ok file')
    (hlevel : file.Leveled) :
    file.Grows file' ∧ file'.Leveled ∧ file'.imports = file.imports ∧ file'.Has t ∧
      (Text.lines (Text.join "\n" (Code.lines code))).map (indented t.depth) <:+
        (file'.buffer t).lines := by
  rw [append] at h
  obtain ⟨b, hb, h⟩ := Except.bind_eq_ok h
  cases h
  obtain ⟨gap, hlines, hdepth⟩ := Buffer.append_eq_ok hb
  rw [hlevel t] at hlines hdepth
  refine ⟨setBuffer_grows (Buffer.append_keeps hb), fun t' => ?_, imports_setBuffer b t,
    has_setBuffer b (Or.inl rfl), ?_⟩
  · rw [buffer_setBuffer]
    split
    · next heq => rw [hdepth, heq]
    · exact hlevel t'
  · rw [buffer_setBuffer, if_pos rfl, hlines]
    exact List.suffix_append _ _

theorem place_grows {c : Config} :
    ∀ {placements : List Placement} {file file' : SourceFile}, file.Leveled →
      file.place c placements = .ok file' →
      file.Grows file' ∧ file'.Leveled ∧ file'.imports = file.imports ∧
        ∀ p ∈ placements, file'.Holds c p
  | [], file, _, hlevel, h => by
    cases h
    exact ⟨.refl file, hlevel, rfl, by simp⟩
  | p :: rest, file, file', hlevel, h => by
    rw [place] at h
    obtain ⟨middle, hfirst, h⟩ := Except.bind_eq_ok h
    obtain ⟨hgrows, hlevel', himports, hhas, hsuffix⟩ := append_grows hfirst hlevel
    obtain ⟨hgrows', hlevel'', himports', hholds⟩ := place_grows hlevel' h
    refine ⟨hgrows.trans hgrows', hlevel'', himports'.trans himports, fun q hq => ?_⟩
    rcases List.mem_cons.mp hq with rfl | hq
    · exact Holds.mono ⟨hhas, hsuffix.isInfix⟩ hgrows'
    · exact hholds q hq

/-! ## Imports -/

theorem mem_insertImport {specifier : String} {target : Path} {imports : Table Path}
    {entry : String × Path} :
    entry ∈ insertImport specifier target imports ↔
      entry = (specifier, target) ∨ entry ∈ imports := by
  induction imports with
  | nil => simp [insertImport]
  | cons first rest ih =>
    rw [insertImport]
    split
    · simp
    · simp only [List.mem_cons, ih]
      tauto

/-- A file whose imports stand under their module specifiers, and import known
namespaces only. -/
structure InOrder (known : Path → Prop) (file : SourceFile) : Prop where
  leveled : file.Leveled
  plain : file.path.Plain
  specifiers : ∀ entry ∈ file.imports, entry.1 = entry.2.specifierFrom file.path
  targets : ∀ entry ∈ file.imports, known entry.2

/-- The namespace is the file's own or it is imported. -/
def Reaches (file : SourceFile) (target : Path) : Prop :=
  target.isHere file.path = true ∨ (target.specifierFrom file.path, target) ∈ file.imports

theorem Reaches.mono {target : Path} (h : file.Reaches target) (hgrows : file.Grows file') :
    file'.Reaches target := by
  simp only [Reaches]
  rw [hgrows.path]
  exact h.imp_right fun hmem => hgrows.imports hmem

variable {known : Path → Prop}

/-- A specifier that is imported stands for the namespace. -/
theorem InOrder.mem_imports (h : file.InOrder known) (hplain : ∀ p, known p → p.Plain)
    {target : Path} (hknown : known target)
    (hhas : Table.has file.imports (target.specifierFrom file.path) = true) :
    (target.specifierFrom file.path, target) ∈ file.imports := by
  obtain ⟨p, hp⟩ := Option.isSome_iff_exists.mp hhas
  have hmem := Table.mem_of_get? hp
  obtain rfl : target = p := Path.eq_of_specifierFrom_eq (hplain target hknown).proper
    (hplain p (h.targets _ hmem)).proper (h.specifiers _ hmem)
  exact hmem

@[simp] theorem buffer_addImport (target : Path) (t : Section) :
    (file.addImport target).buffer t = file.buffer t := by
  simp only [addImport]
  split
  · cases t <;> rfl
  · rfl

theorem has_addImport (target : Path) (t : Section) (h : file.Has t) :
    (file.addImport target).Has t := by
  simp only [addImport]
  split
  · cases t <;> exact h
  · exact h

@[simp] theorem path_addImport (target : Path) : (file.addImport target).path = file.path := by
  simp only [addImport]
  split <;> rfl

theorem imports_subset_addImport (target : Path) :
    file.imports ⊆ (file.addImport target).imports := by
  simp only [addImport]
  split
  · exact fun entry he => mem_insertImport.mpr (Or.inr he)
  · exact List.Subset.refl _

theorem InOrder.reaches (h : file.InOrder known) (hplain : ∀ p, known p → p.Plain)
    {target : Path} (hknown : known target) : (file.addImport target).Reaches target := by
  simp only [Reaches]
  rw [path_addImport]
  by_cases hhere : target.isHere file.path = true
  · exact Or.inl hhere
  · right
    simp only [addImport]
    split
    · exact mem_insertImport.mpr (Or.inl rfl)
    · next hlacks =>
      exact h.mem_imports hplain hknown (by simpa [lacksImport, hhere] using hlacks)

/-- A file holds all that an emission adds to it. -/
structure Carries (c : Config) (file : SourceFile) (e : Emission) : Prop where
  path : file.path = e.path
  reaches : ∀ p ∈ e.imports, file.Reaches p
  holds : ∀ p ∈ e.placements, file.Holds c p

theorem Carries.mono {c : Config} {e : Emission} (h : file.Carries c e)
    (hgrows : file.Grows file') : file'.Carries c e :=
  ⟨hgrows.path.trans h.path, fun p hp => (h.reaches p hp).mono hgrows,
    fun p hp => (h.holds p hp).mono hgrows⟩

/-- A file with the records of an emission for the runtime. -/
def addRecords (file : SourceFile) (e : Emission) : SourceFile :=
  { file with
    inflections := file.inflections ++ e.inflections
    enumStubs := file.enumStubs ++ e.enumStubs
    operationNames := file.operationNames ++ e.operationNames
    service := e.service.or file.service }

/-- An emission adds imports, placements and records, in this order. -/
theorem emit_eq_ok {c : Config} {e : Emission} (h : file.emit c e = .ok file') :
    ∃ placed, (file.addImports e.imports).place c e.placements = .ok placed ∧
      file' = placed.addRecords e := by
  rw [emit] at h
  obtain ⟨placed, hplaced, h⟩ := Except.bind_eq_ok h
  cases h
  exact ⟨placed, hplaced, rfl⟩

/-- Records for the runtime are no part of what is imported or written. -/
structure SameText (file file' : SourceFile) : Prop where
  path : file'.path = file.path
  imports : file'.imports = file.imports
  sections : ∀ t, file.Has t → file'.Has t
  buffer : ∀ t, file'.buffer t = file.buffer t

theorem SameText.grows (h : file.SameText file') : file.Grows file' where
  path := h.path
  imports := by
    rw [h.imports]
    exact List.Subset.refl _
  sections := h.sections
  lines := by
    intro t
    simp [h.buffer t]

theorem addRecords_sameText (file : SourceFile) (e : Emission) :
    file.SameText (file.addRecords e) :=
  ⟨rfl, rfl, fun t ht => by cases t <;> exact ht, fun t => by cases t <;> rfl⟩

theorem finishBuffer_lines {b b' : Buffer} (h : finishBuffer b = .ok b') :
    b.lines <+: b'.lines := by
  simp only [finishBuffer] at h
  split at h
  · cases h
    exact List.prefix_refl _
  · obtain ⟨outside, hout, h⟩ := Except.bind_eq_ok h
    obtain ⟨finished, hadd, h⟩ := Except.bind_eq_ok h
    cases h
    have hlines : outside.lines = b.lines := by
      simp only [Buffer.outdent] at hout
      split at hout
      · cases hout
      · cases hout
        rfl
    rw [← hlines]
    change outside.lines <+: finished.lines
    rw [(Buffer.add_eq_ok hadd).1]
    exact List.prefix_append _ _

/-- Finishing keeps the nested namespaces and what was written to them. -/
theorem finishAll_lines {namespaces namespaces' : Table Buffer}
    (h : finishAll namespaces = (namespaces', none)) (name : String) :
    Table.has namespaces' name = Table.has namespaces name ∧
      ((Table.get? namespaces name).getD (openedNamespace name)).lines <+:
        ((Table.get? namespaces' name).getD (openedNamespace name)).lines := by
  induction namespaces generalizing namespaces' with
  | nil =>
    cases h
    exact ⟨rfl, List.prefix_refl _⟩
  | cons entry rest ih =>
    obtain ⟨first, b⟩ := entry
    rw [finishAll] at h
    cases hb : finishBuffer b with
    | error fault =>
      rw [hb] at h
      cases h
    | ok b' =>
      rw [hb] at h
      rcases hrest : finishAll rest with ⟨rest', fault⟩
      rw [hrest] at h
      cases h
      simp only [Table.has, Table.get?]
      split
      · exact ⟨rfl, finishBuffer_lines hb⟩
      · exact ih hrest

theorem finished_grows (h : file.finished = .ok file') :
    file.Grows file' ∧ file'.imports = file.imports := by
  simp only [finished] at h
  rcases hfinish : file.finish with ⟨closed, fault⟩
  rw [hfinish] at h
  cases fault with
  | some fault => cases h
  | none =>
    cases h
    simp only [finish] at hfinish
    rcases hall : finishAll file.namespaces with ⟨namespaces, fault⟩
    rw [hall] at hfinish
    cases hfinish
    refine ⟨⟨rfl, List.Subset.refl _, fun t ht => ?_, fun t => ?_⟩, rfl⟩
    · cases t
      case nested name => exact (finishAll_lines hall name).1.trans ht
      all_goals exact ht
    · cases t
      case nested name => exact (finishAll_lines hall name).2
      all_goals exact List.prefix_refl _

/-! ## The type layer -/

/-- The blocks of the type layer are part of it. -/
theorem block_infix_typeLayer {block : String} (h : block ∈ [banner] ++ file.importBlock ++
    sectionBlock file.preamble ++ sectionBlock file.types ++ sectionBlock file.enums ++
    file.namespaces.map (fun entry => entry.2.joined "\n") ++
    sectionBlock file.aspects ++ sectionBlock file.classes ++ sectionBlock file.operations) :
    block.toList <:+: file.typeLayer.toList := by
  rw [typeLayer, String.toList_append]
  exact (Text.isInfix_join_of_mem h).trans (List.prefix_append _ _).isInfix

/-- What is imported has a line in the text of the file. -/
theorem importLine_infix_typeLayer {entry : String × Path} (h : entry ∈ file.imports) :
    (importLine entry.1 entry.2).toList <:+: file.typeLayer.toList := by
  have hlines := List.mem_map_of_mem (f := fun entry => importLine entry.1 entry.2) h
  have hblock : (importLine entry.1 entry.2).toList <:+: (Text.join "\n"
      (file.imports.map fun entry => importLine entry.1 entry.2)).toList :=
    Text.isInfix_join_of_mem hlines
  refine hblock.trans (block_infix_typeLayer ?_)
  have hne : file.imports ≠ [] := List.ne_nil_of_mem h
  simp [importBlock, hne]

/-- The lines of a section are part of the text of the file. -/
theorem section_infix_typeLayer {t : Section} (hhas : file.Has t)
    (hlines : (file.buffer t).lines ≠ []) :
    ((file.buffer t).joined "\n").toList <:+: file.typeLayer.toList := by
  have hblock : ∀ {b : Buffer}, b.lines ≠ [] → b.joined "\n" ∈ sectionBlock b := by
    intro b hb
    simp [sectionBlock, hb]
  apply block_infix_typeLayer
  cases t with
  | nested name =>
    obtain ⟨b, hb⟩ := Option.isSome_iff_exists.mp hhas
    have hbuffer : file.buffer (.nested name) = b := by simp [buffer, hb]
    rw [hbuffer]
    have hmem := List.mem_map_of_mem (f := fun entry => entry.2.joined "\n") (Table.mem_of_get? hb)
    simp only [List.mem_append]
    tauto
  | _ =>
    have hmem := hblock hlines
    simp only [buffer] at hmem ⊢
    simp only [List.mem_append]
    tauto

/-- What a file holds is part of its text. -/
theorem Holds.infix_typeLayer {c : Config} {p : Placement} (h : file.Holds c p) :
    (Text.join "\n" (p.lines c)).toList <:+: file.typeLayer.toList := by
  by_cases hempty : (file.buffer p.target).lines = []
  · have hlines := h.lines
    rw [hempty, List.infix_nil] at hlines
    rw [hlines]
    exact List.nil_infix
  · exact (Text.isInfix_join h.lines).trans (section_infix_typeLayer h.has hempty)

end SourceFile

/-! ## Stores -/

namespace Store

/-- Adds an emission to the file of its namespace, where it stands. -/
def emit (c : Config) : Store → Emission → Except Fault Store
  | [], e => do
      let file ← (SourceFile.start e.path).emit c e
      pure [file]
  | file :: rest, e =>
      if file.path.dotted = e.path.dotted then do
        let file ← file.emit c e
        pure (file :: rest)
      else do
        let rest ← Store.emit c rest e
        pure (file :: rest)

/-- Adds emissions one after the other. -/
def emitAll (c : Config) (store : Store) : List Emission → Except Fault Store
  | [] => .ok store
  | e :: rest => do
      let store ← store.emit c e
      emitAll c store rest

/-- The namespaces of the files, dotted. -/
def spaces (store : Store) : List String := store.map fun file => file.path.dotted

/-- An emission goes into the first file of its namespace, or starts one at the end. -/
theorem emit_eq_ok {c : Config} {store store' : Store} {e : Emission}
    (h : store.emit c e = .ok store') :
    (∃ (before : Store) (file : SourceFile) (after : Store) (file' : SourceFile),
      store = before ++ file :: after ∧ e.path.dotted ∉ before.spaces ∧
      file.path.dotted = e.path.dotted ∧ file.emit c e = .ok file' ∧
      store' = before ++ file' :: after) ∨
    e.path.dotted ∉ store.spaces ∧ ∃ file', (SourceFile.start e.path).emit c e = .ok file' ∧
      store' = store ++ [file'] := by
  induction store generalizing store' with
  | nil =>
    rw [Store.emit] at h
    obtain ⟨file', hfile, h⟩ := Except.bind_eq_ok h
    cases h
    exact Or.inr ⟨List.not_mem_nil, file', hfile, rfl⟩
  | cons first rest ih =>
    rw [Store.emit] at h
    split at h
    · next hdotted =>
      obtain ⟨file', hfile, h⟩ := Except.bind_eq_ok h
      cases h
      exact Or.inl ⟨[], first, rest, file', rfl, List.not_mem_nil, hdotted, hfile, rfl⟩
    · next hdotted =>
      obtain ⟨rest', hothers, h⟩ := Except.bind_eq_ok h
      cases h
      have hbehind : ∀ {files : Store}, e.path.dotted ∉ files.spaces →
          e.path.dotted ∉ Store.spaces (first :: files) :=
        fun hnew hmem => (List.mem_cons.mp hmem).elim (fun heq => hdotted heq.symm) hnew
      rcases ih hothers with ⟨before, file, after, file', rfl, hnew, hfile, hemit, rfl⟩ |
          ⟨hnew, file', hemit, rfl⟩
      · exact Or.inl ⟨first :: before, file, after, file', rfl, hbehind hnew, hfile, hemit, rfl⟩
      · exact Or.inr ⟨hbehind hnew, file', hemit, rfl⟩

end Store

end SchemaTypes
