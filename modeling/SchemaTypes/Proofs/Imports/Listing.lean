import Mathlib.Data.List.Perm.Basic
import SchemaTypes.Code.TypeLayer
import SchemaTypes.Proofs.Code.SourceFile

/-!
# What a file imports

Namespaces are added to the imports of a file one after the other.  As long as their paths
are proper, each of them that is not the file's own is imported once, under its module
specifier, and nothing else is (`SourceFile.addImports_lists`).

An import binds its namespace to an alias, which joins the segments by underscores.  A
segment may hold underscores too.  So two namespaces have one alias exactly when their
segments are made of the same words (`Path.identifier_eq_iff`), and the aliases of a file are
distinct unless two of the added namespaces are (`SourceFile.addImports_aliases`).
-/

namespace SchemaTypes

namespace SourceFile

variable {file : SourceFile} {targets more : List Path} {target : Path}

/-! ## The imports of a file -/

/-- The imports of a file to which namespaces were added. -/
structure Lists (file : SourceFile) (targets : List Path) : Prop where
  specifiers : ∀ entry ∈ file.imports, entry.1 = entry.2.specifierFrom file.path
  distinct : (Table.names file.imports).Nodup
  mem_iff : ∀ p, p ∈ Table.entries file.imports ↔ p ∈ targets ∧ p.isHere file.path = false

theorem insertImport_perm (specifier : String) (target : Path) (imports : Table Path) :
    (insertImport specifier target imports).Perm ((specifier, target) :: imports) := by
  induction imports with
  | nil => exact .refl _
  | cons first rest ih =>
    rw [insertImport]
    split
    · exact .refl _
    · exact (ih.cons first).trans (.swap _ _ _)

/-- The entry of a namespace is the one under its specifier. -/
theorem Lists.mem_imports (h : file.Lists targets) {p : Path} :
    (p.specifierFrom file.path, p) ∈ file.imports ↔ p ∈ targets ∧ p.isHere file.path = false := by
  rw [← h.mem_iff]
  constructor
  · exact fun hmem => List.mem_map.mpr ⟨_, hmem, rfl⟩
  · intro hmem
    obtain ⟨entry, hentry, rfl⟩ := List.mem_map.mp hmem
    rwa [← h.specifiers entry hentry]

theorem Lists.get? (h : file.Lists targets) {p : Path} (hp : p ∈ targets)
    (hhere : p.isHere file.path = false) :
    Table.get? file.imports (p.specifierFrom file.path) = some p :=
  Table.get?_of_mem h.distinct (h.mem_imports.mpr ⟨hp, hhere⟩)

/-- A namespace whose specifier is imported is imported itself. -/
theorem Lists.mem_of_has (h : file.Lists targets) (hproper : ∀ p ∈ targets, p.Proper)
    (htarget : target.Proper)
    (hhas : Table.has file.imports (target.specifierFrom file.path) = true) :
    target ∈ targets := by
  obtain ⟨p, hp⟩ := Option.isSome_iff_exists.mp hhas
  have hmem := Table.mem_of_get? hp
  have hp : p ∈ targets := ((h.mem_iff p).mp (List.mem_map.mpr ⟨_, hmem, rfl⟩)).1
  obtain rfl : target = p :=
    Path.eq_of_specifierFrom_eq htarget (hproper p hp) (h.specifiers _ hmem)
  exact hp

/-- An import that is inserted. -/
theorem Lists.insert (h : file.Lists targets) (hhere : target.isHere file.path = false)
    (hhas : Table.has file.imports (target.specifierFrom file.path) = false) :
    Lists { file with
      imports := insertImport (target.specifierFrom file.path) target file.imports }
        (targets ++ [target]) := by
  have hperm := insertImport_perm (target.specifierFrom file.path) target file.imports
  refine ⟨fun entry hentry => ?_, ?_, fun p => ?_⟩
  · rcases mem_insertImport.mp hentry with rfl | hentry
    · rfl
    · exact h.specifiers entry hentry
  · have hnames := hperm.map Prod.fst
    rw [Table.names, hnames.nodup_iff, List.map_cons, List.nodup_cons]
    refine ⟨fun hmem => ?_, h.distinct⟩
    rw [(Table.mem_names_iff file.imports _).mp hmem] at hhas
    cases hhas
  · rw [Table.entries, (hperm.map Prod.snd).mem_iff, List.map_cons, List.mem_cons,
      List.mem_append, List.mem_singleton]
    have hmem := h.mem_iff p
    rw [Table.entries] at hmem
    rw [hmem]
    constructor
    · rintro (rfl | ⟨hp, hother⟩)
      · exact ⟨Or.inr rfl, hhere⟩
      · exact ⟨Or.inl hp, hother⟩
    · rintro ⟨hp | rfl, hother⟩
      · exact Or.inr ⟨hp, hother⟩
      · exact Or.inl rfl

/-- A namespace that is the file's own, or is imported already, changes nothing. -/
theorem Lists.skip (h : file.Lists targets)
    (htarget : target.isHere file.path = false → target ∈ targets) :
    file.Lists (targets ++ [target]) := by
  refine ⟨h.specifiers, h.distinct, fun p => ?_⟩
  rw [h.mem_iff p, List.mem_append, List.mem_singleton]
  constructor
  · rintro ⟨hp, hother⟩
    exact ⟨Or.inl hp, hother⟩
  · rintro ⟨hp | rfl, hother⟩
    · exact ⟨hp, hother⟩
    · exact ⟨htarget hother, hother⟩

theorem addImport_lists (h : file.Lists targets) (hproper : ∀ p ∈ targets, p.Proper)
    (htarget : target.Proper) : (file.addImport target).Lists (targets ++ [target]) := by
  rw [addImport]
  split
  · next hlacks =>
    obtain ⟨hhere, hhas⟩ : target.isHere file.path = false ∧
        Table.has file.imports (target.specifierFrom file.path) = false := by
      simpa [lacksImport] using hlacks
    exact h.insert hhere hhas
  · next hlacks =>
    refine h.skip fun hother => h.mem_of_has hproper htarget ?_
    simpa [lacksImport, hother] using hlacks

/-- Every added namespace that is not the file's own is imported once. -/
theorem addImports_lists (h : file.Lists targets) (hproper : ∀ p ∈ targets, p.Proper)
    (hmore : ∀ p ∈ more, p.Proper) : (file.addImports more).Lists (targets ++ more) := by
  induction more generalizing file targets with
  | nil => rwa [List.append_nil]
  | cons target rest ih =>
    have htarget := hmore target List.mem_cons_self
    have hfirst : ∀ p ∈ targets ++ [target], p.Proper := by
      intro p hp
      rcases List.mem_append.mp hp with hp | hp
      · exact hproper p hp
      · exact List.mem_singleton.mp hp ▸ htarget
    have hrest := ih (addImport_lists h hproper htarget) hfirst
      fun p hp => hmore p (List.mem_cons_of_mem _ hp)
    rwa [List.append_assoc] at hrest

theorem lists_of_empty (h : file.imports = []) : file.Lists [] := by
  refine ⟨?_, ?_, ?_⟩ <;> simp [h, Table.entries]

@[simp] theorem path_addImports (targets : List Path) :
    (file.addImports targets).path = file.path := by
  induction targets generalizing file with
  | nil => rfl
  | cons target rest ih => exact ih.trans (path_addImport target)

end SourceFile

/-! ## Aliases -/

namespace Path

variable {p q : Path}

/-- The words of a namespace: what stands between underscores in its segments. -/
def words (p : Path) : List String := p.segments.flatMap (Text.splitOn '_')

theorem words_eq_nil_iff : p.words = [] ↔ p.segments = [] := by
  rw [words, List.flatMap_eq_nil_iff]
  constructor
  · intro h
    cases hs : p.segments with
    | nil => rfl
    | cons s rest =>
      have hfirst := h s (hs ▸ List.mem_cons_self)
      simp [Text.splitOn, Text.splitChars_ne_nil] at hfirst
  · rintro h s hs
    rw [h] at hs
    cases hs

theorem join_words (p : Path) : Text.join "_" p.words = Text.join "_" p.segments := by
  by_cases h : p.segments = []
  · rw [words_eq_nil_iff.mpr h, h]
  · have hsplit := Text.splitOn_join_eq_flatMap '_' h
    rw [words, ← hsplit]
    exact Text.join_splitOn '_' _

theorem words_ne_single (hp : p.Plain) : p.words ≠ [""] := by
  intro h
  have hjoin : Text.join "_" p.segments = "" := by
    rw [← join_words, h]
    rfl
  cases hs : p.segments with
  | nil =>
    rw [words_eq_nil_iff.mpr hs] at h
    cases h
  | cons s rest =>
    have hmem : s ∈ p.segments := hs ▸ List.mem_cons_self
    have hinfix : s.toList <:+: (Text.join "_" p.segments).toList := Text.isInfix_join_of_mem hmem
    rw [hjoin] at hinfix
    exact (hp s hmem).nonempty (by simpa using hinfix)

/-- Two namespaces have one alias exactly when they are made of the same words. -/
theorem identifier_eq_iff (hp : p.Plain) (hq : q.Plain) :
    p.identifier = q.identifier ↔ p.words = q.words := by
  rw [identifier, identifier, ← join_words p, ← join_words q]
  have hword : ∀ {p : Path}, ∀ w ∈ p.words, '_' ∉ w.toList := by
    intro p w hw
    obtain ⟨s, -, hs⟩ := List.mem_flatMap.mp hw
    exact Text.notMem_of_mem_splitOn hs
  constructor
  · intro h
    exact Text.eq_of_join_eq '_' hword hword (words_ne_single hp) (words_ne_single hq)
      ((String.append_right_inj "_").mp h)
  · intro h
    rw [h]

end Path

namespace SourceFile

/-- The aliases that the import lines bind. -/
def importAliases (file : SourceFile) : List String :=
  (Table.entries file.imports).map Path.identifier

theorem Lists.names_eq {file : SourceFile} {targets : List Path} (h : file.Lists targets) :
    Table.names file.imports =
      (Table.entries file.imports).map fun p => p.specifierFrom file.path := by
  rw [Table.names, Table.entries, List.map_map]
  exact List.map_congr_left h.specifiers

theorem Lists.entries_nodup {file : SourceFile} {targets : List Path} (h : file.Lists targets) :
    (Table.entries file.imports).Nodup := by
  have hdistinct := h.distinct
  rw [h.names_eq] at hdistinct
  exact hdistinct.of_map _

/-- The import lines of a file to which namespaces were added. -/
theorem Lists.importBlock_eq {file : SourceFile} {targets : List Path} (h : file.Lists targets) :
    file.importBlock =
      if file.imports = [] then []
      else [Text.join "\n" ((Table.entries file.imports).map fun p =>
        "import * as " ++ p.identifier ++ " from '" ++ p.specifierFrom file.path ++ "';")] := by
  have hlines : file.imports.map (fun entry => importLine entry.1 entry.2) =
      (Table.entries file.imports).map fun p =>
        "import * as " ++ p.identifier ++ " from '" ++ p.specifierFrom file.path ++ "';" := by
    rw [Table.entries, List.map_map]
    refine List.map_congr_left fun entry hentry => ?_
    rw [importLine, h.specifiers entry hentry]
    rfl
  rw [importBlock, hlines]
  simp only [List.isEmpty_iff]

/-- The namespaces that were added to a file without imports are imported, each once and under
its specifier, except for the file's own.  The aliases are distinct unless two of them are made
of the same words. -/
theorem addImports_aliases (file : SourceFile) (hstart : file.imports = []) (targets : List Path)
    (hplain : ∀ p ∈ targets, p.Plain) :
    (file.addImports targets).Lists targets ∧
      (Table.entries (file.addImports targets).imports).Nodup ∧
      (file.addImports targets).importBlock =
        (if (file.addImports targets).imports = [] then []
        else [Text.join "\n" ((Table.entries (file.addImports targets).imports).map fun p =>
          "import * as " ++ p.identifier ++ " from '" ++ p.specifierFrom file.path ++ "';")]) ∧
      ((file.addImports targets).importAliases.Nodup ↔
        ∀ p ∈ targets, ∀ q ∈ targets, p.isHere file.path = false → q.isHere file.path = false →
          p.words = q.words → p = q) := by
  have hlists : (file.addImports targets).Lists targets :=
    addImports_lists (lists_of_empty hstart) (by simp) fun p hp => (hplain p hp).proper
  have hblock := hlists.importBlock_eq
  rw [path_addImports] at hblock
  refine ⟨hlists, hlists.entries_nodup, hblock, ?_⟩
  rw [importAliases, List.nodup_map_iff_inj_on hlists.entries_nodup]
  have hmem := hlists.mem_iff
  rw [path_addImports] at hmem
  constructor
  · intro hinj p hp q hq hhere hhere' hwords
    exact hinj p ((hmem p).mpr ⟨hp, hhere⟩) q ((hmem q).mpr ⟨hq, hhere'⟩)
      ((Path.identifier_eq_iff (hplain p hp) (hplain q hq)).mpr hwords)
  · intro hwords p hp q hq halias
    obtain ⟨hp, hhere⟩ := (hmem p).mp hp
    obtain ⟨hq, hhere'⟩ := (hmem q).mp hq
    exact hwords p hp q hq hhere hhere'
      ((Path.identifier_eq_iff (hplain p hp) (hplain q hq)).mp halias)

/-- A file to which nothing was added. -/
def shopFile : SourceFile := { path := ⟨["shop"]⟩ }

/-- Namespaces that are added to the file of the shop, one of them twice and one its own. -/
def shopTargets : List Path :=
  [⟨["shop", "orders"]⟩, ⟨["sales_tax"]⟩, ⟨["shop"]⟩, ⟨["shop", "orders"]⟩]

theorem addImports_aliases_shop :
    (shopFile.addImports shopTargets).imports =
        [("./../sales_tax", ⟨["sales_tax"]⟩), ("./orders", ⟨["shop", "orders"]⟩)] ∧
      (shopFile.addImports shopTargets).importAliases.Nodup := by
  obtain ⟨-, -, -, hdistinct⟩ := addImports_aliases shopFile rfl shopTargets (by decide)
  exact ⟨by decide +kernel, hdistinct.mpr (by decide +kernel)⟩

/-- The words do not tell where a segment ends. -/
theorem aliases_shared :
    (∀ p ∈ ([⟨["a_b"]⟩, ⟨["a", "b"]⟩] : List Path), p.Plain) ∧
      (shopFile.addImports [⟨["a_b"]⟩, ⟨["a", "b"]⟩]).imports =
        [("./../a/b", ⟨["a", "b"]⟩), ("./../a_b", ⟨["a_b"]⟩)] ∧
      (shopFile.addImports [⟨["a_b"]⟩, ⟨["a", "b"]⟩]).importAliases = ["_a_b", "_a_b"] := by
  refine ⟨by decide, ?_, ?_⟩ <;> decide +kernel

end SourceFile

end SchemaTypes
