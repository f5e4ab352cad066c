import Mathlib.Data.List.Induction
import Mathlib.Data.String.Basic
import SchemaTypes.Proofs.Imports.Listing

/-!
# Module specifiers lead back

A module specifier is read from the directory of the file that it stands in, one component
after the other: a name goes down, `.` stays, and `..` goes up (`Directory.resolve?`).  There
is nothing above the output directory, so a specifier that goes up too far leads nowhere.

The specifier of a namespace leads from the directory of a file to the directory of the
namespace, as long as the paths of both are proper (`Path.resolve?_specifierFrom`).  No two
namespaces are written alike as seen from a third one (`Path.eq_of_directory_eq`).

The imports of a file ascend by their specifiers (`SourceFile.addImports_ascending`).  So
they do not depend on the order in which namespaces were added, but only on which were
(`SourceFile.Lists.imports_eq`), and each of these stands there once
(`SourceFile.addImports_leadBack`).
-/

namespace SchemaTypes

namespace Directory

/-! ## Following a specifier -/

/-- The directory that a step leads to from where one is.  A step up leaves the name that
was entered last. -/
def step? (here : List Component) : Component → Option (List Component)
  | .root => some [.root]
  | .current => some here
  | .parent =>
      match here.getLast? with
      | some (.name _) => some here.dropLast
      | _ => none
  | .name text => some (here ++ [.name text])

/-- The directory that a path leads to from a base. -/
def resolve? (base path : String) : Option String :=
  ((components path).foldlM step? (components base)).map ofComponents

theorem foldlM_down (here : List Component) (names : List String) :
    (names.map Component.name).foldlM step? here = some (here ++ names.map .name) := by
  induction names generalizing here with
  | nil => simp
  | cons s rest ih => simp [step?, ih]

/-- As many steps up as names were entered last leave these names. -/
theorem foldlM_up (kept left : List String) :
    (List.replicate left.length Component.parent).foldlM step? ((kept ++ left).map .name) =
      some (kept.map .name) := by
  induction left using List.reverseRecOn with
  | nil => simp
  | append_singleton left s ih =>
    have hfirst : step? ((kept ++ (left ++ [s])).map Component.name) .parent =
        some ((kept ++ left).map .name) := by
      simp [step?, ← List.append_assoc]
    rw [List.length_append, List.length_singleton, List.replicate_succ, List.foldlM_cons, hfirst]
    exact ih

/-- A path that starts at the current directory goes on with its names. -/
theorem components_current {names : List String} (h : ∀ s ∈ names, Solid s) :
    components ("./" ++ Text.join "/" names) = .current :: names.filterMap Component.ofName? := by
  have hsplit : Text.splitOn '/' ("./" ++ Text.join "/" names) =
      "." :: Text.splitOn '/' (Text.join "/" names) :=
    Text.splitOn_append_sep '/' "." (Text.join "/" names)
  have habsolute : isAbsolute ("./" ++ Text.join "/" names) = false := by
    simp [isAbsolute]
  rw [components, leading, habsolute, hsplit]
  have hnames : (Text.splitOn '/' (Text.join "/" names)).filterMap Component.ofName? =
      names.filterMap Component.ofName? := by
    cases names with
    | nil => rfl
    | cons s rest =>
      have hsep : "/" = String.singleton '/' := rfl
      rw [hsep, Text.splitOn_join (List.cons_ne_nil s rest) fun p hp => (h p hp).2]
  simp [hnames, Component.ofName?]

/-- A specifier of steps up and proper names leads out of as many names, and then into
these. -/
theorem foldlM_specifier {kept left down : List String} (hdown : ∀ s ∈ down, ProperName s) :
    (components ("./" ++ Text.join "/" (List.replicate left.length ".." ++ down))).foldlM step?
      ((kept ++ left).map .name) = some ((kept ++ down).map .name) := by
  have hsolid : ∀ s ∈ List.replicate left.length ".." ++ down, Solid s := by
    intro s hs
    rcases List.mem_append.mp hs with hs | hs
    · rw [List.eq_of_mem_replicate hs]
      exact ⟨by decide, by decide⟩
    · exact ProperName.solid (hdown s hs)
  have hup : (List.replicate left.length "..").filterMap Component.ofName? =
      List.replicate left.length .parent := by
    rw [List.filterMap_replicate]
    rfl
  have hstay : step? ((kept ++ left).map .name) .current = some ((kept ++ left).map .name) := rfl
  rw [components_current hsolid, List.filterMap_append, hup, filterMap_ofName?_names hdown,
    List.foldlM_cons, hstay, Option.bind_eq_bind, Option.bind_some, List.foldlM_append, foldlM_up,
    Option.bind_eq_bind, Option.bind_some, foldlM_down, List.map_append]

end Directory

namespace Path

open Directory

variable {p q home : Path}

/-! ## Specifiers of paths -/

/-- The way from a proper path leaves what is not shared and goes down from there. -/
theorem namesFrom_eq (p : Path) (hhome : home.Proper) :
    ∃ kept left, home.segments = kept ++ left ∧ ∃ down, p.segments = kept ++ down ∧
      p.namesFrom home = List.replicate left.length ".." ++ down := by
  have habsolute : isAbsolute home.location = false := by
    rw [location_eq hhome]
    exact join_not_absolute fun s hs => ProperName.solid (hhome s hs)
  have hcomponents : components home.location = home.segments.map .name :=
    components_joinNames hhome
  have hnot : ∀ step, (∀ s, Component.name s ≠ step) → step ∉ home.segments.map .name := by
    intro step hstep hmem
    obtain ⟨s, -, heq⟩ := List.mem_map.mp hmem
    exact hstep s heq
  rw [namesFrom, habsolute, hcomponents, if_neg Bool.false_ne_true]
  obtain ⟨shared, htake, -, hway | ⟨-, hparent⟩⟩ :=
    wayFrom_names p.segments (hnot .current fun _ => Component.noConfusion)
  · rw [List.length_map, ← List.length_drop] at hway
    rw [← List.map_take, List.map_inj_right fun _ _ => Component.name.inj] at htake
    refine ⟨home.segments.take shared, home.segments.drop shared,
      (List.take_append_drop shared home.segments).symm, p.segments.drop shared, ?_, hway⟩
    rw [← htake, List.take_append_drop]
  · exact absurd hparent (hnot _ fun _ => Component.noConfusion)

theorem specifierFrom_eq (hp : p.Proper) (home : Path) :
    p.specifierFrom home = "./" ++ Text.join "/" (p.namesFrom home) := by
  rw [← locationFrom_eq hp, ← withForwardSlashes_locationFrom hp]
  rfl

/-- The specifier of a namespace leads to its directory. -/
theorem resolve?_specifierFrom (hp : p.Proper) (hhome : home.Proper) :
    resolve? home.location (p.specifierFrom home) = some p.location := by
  obtain ⟨kept, left, hleft, down, hdown, hnames⟩ := namesFrom_eq p hhome
  have hproper : ∀ s ∈ down, ProperName s := fun s hs => hp s (by simp [hdown, hs])
  have hcomponents : components home.location = (kept ++ left).map .name := by
    rw [← hleft]
    exact components_joinNames hhome
  rw [resolve?, specifierFrom_eq hp, hcomponents, hnames, foldlM_specifier hproper, ← hdown,
    Option.map_some, ofComponents, map_text_names, location]

/-- Paths that are written alike as seen from a third one are the same, whatever the style
is. -/
theorem eq_of_directory_eq (hp : p.Proper) (hq : q.Proper) {asSpecifier forwardSlashes : Bool}
    (h : p.directory ⟨some home, asSpecifier, forwardSlashes⟩ =
      q.directory ⟨some home, asSpecifier, forwardSlashes⟩) : p = q := by
  have hlocation : p.locationFrom home = q.locationFrom home := by
    cases asSpecifier <;> cases forwardSlashes <;>
      simpa [directory, withForwardSlashes_locationFrom, hp, hq] using h
  exact eq_of_locationFrom_eq hp hq hlocation

end Path

namespace SourceFile

variable {file file' : SourceFile} {targets more : List Path} {target : Path}

/-! ## The table of imports -/

/-- Imports that ascend by their specifiers. -/
def Ascending (imports : Table Path) : Prop := imports.Pairwise fun a b => a.1 < b.1

theorem insertImport_ascending {specifier : String} {imports : Table Path}
    (h : Ascending imports) (hnew : specifier ∉ Table.names imports) :
    Ascending (insertImport specifier target imports) := by
  induction imports with
  | nil => exact List.pairwise_singleton _ _
  | cons first rest ih =>
    obtain ⟨s, p⟩ := first
    obtain ⟨hfirst, hrest⟩ := List.pairwise_cons.mp h
    rw [Table.names_cons, List.mem_cons, not_or] at hnew
    rw [insertImport]
    split
    · next hlt =>
      refine List.pairwise_cons.mpr ⟨fun entry hentry => ?_, h⟩
      rcases List.mem_cons.mp hentry with rfl | hentry
      · exact hlt
      · exact hlt.trans (hfirst entry hentry)
    · next hge =>
      refine List.pairwise_cons.mpr ⟨fun entry hentry => ?_, ih hrest hnew.2⟩
      rcases mem_insertImport.mp hentry with rfl | hentry
      · exact lt_of_le_of_ne (not_lt.mp hge) (Ne.symm hnew.1)
      · exact hfirst entry hentry

theorem addImport_ascending (h : Ascending file.imports) :
    Ascending (file.addImport target).imports := by
  rw [addImport]
  split
  · next hlacks =>
    rw [lacksImport, Bool.and_eq_true, Bool.not_eq_true', Bool.not_eq_true'] at hlacks
    refine insertImport_ascending h fun hmem => ?_
    rw [(Table.mem_names_iff _ _).mp hmem] at hlacks
    cases hlacks.2
  · exact h

/-- Imports ascend whatever is added. -/
theorem addImports_ascending (h : Ascending file.imports) :
    Ascending (file.addImports targets).imports := by
  induction targets generalizing file with
  | nil => exact h
  | cons target rest ih => exact ih (addImport_ascending h)

/-- An import of a namespace stands under its specifier. -/
theorem Lists.mem_imports_iff (h : file.Lists targets) {entry : String × Path} :
    entry ∈ file.imports ↔ entry.1 = entry.2.specifierFrom file.path ∧
      entry.2 ∈ targets ∧ entry.2.isHere file.path = false := by
  obtain ⟨specifier, p⟩ := entry
  constructor
  · intro hentry
    obtain rfl : specifier = p.specifierFrom file.path := h.specifiers _ hentry
    exact ⟨rfl, h.mem_imports.mp hentry⟩
  · rintro ⟨hspecifier, hp⟩
    obtain rfl : specifier = p.specifierFrom file.path := hspecifier
    exact h.mem_imports.mpr hp

/-- What is imported depends on nothing but which namespaces were added. -/
theorem Lists.imports_eq (h : file.Lists targets) (h' : file'.Lists more)
    (hpath : file'.path = file.path) (hmem : ∀ p, p ∈ more ↔ p ∈ targets)
    (hascends : Ascending file.imports) (hascends' : Ascending file'.imports) :
    file'.imports = file.imports := by
  have hdistinct : ∀ {imports : Table Path}, Ascending imports → imports.Nodup :=
    fun hascends => hascends.imp fun hlt heq => (heq ▸ hlt).false
  refine List.Perm.eq_of_pairwise (fun a b _ _ hab hba => absurd (hab.trans hba) (lt_irrefl _))
    hascends' hascends ?_
  rw [List.perm_ext_iff_of_nodup (hdistinct hascends') (hdistinct hascends)]
  intro entry
  rw [h.mem_imports_iff, h'.mem_imports_iff, hpath, hmem]

/-- Seen from the file of a proper namespace, proper namespaces are told apart: only the
file's own is the current directory, and the specifier of each leads to its directory.  So
every namespace that was added to the imports stands there once under its specifier, if it
is not the file's own, whatever the order was. -/
theorem addImports_leadBack {home : Path} (hhome : home.Proper) :
    (∀ p : Path, p.Proper → (p.isHere home = true ↔ p = home) ∧
      Directory.resolve? home.location (p.specifierFrom home) = some p.location ∧
      ∀ q : Path, q.Proper → ∀ asSpecifier forwardSlashes : Bool,
        p.directory ⟨some home, asSpecifier, forwardSlashes⟩ =
          q.directory ⟨some home, asSpecifier, forwardSlashes⟩ → p = q) ∧
    ∀ file : SourceFile, file.path = home → file.imports = [] →
      ∀ targets : List Path, (∀ p ∈ targets, p.Proper) →
        Table.names (file.addImports targets).imports =
          (Table.entries (file.addImports targets).imports).map (fun p => p.specifierFrom home) ∧
        (∀ p, (Table.entries (file.addImports targets).imports).count p =
          if p ∈ targets ∧ p ≠ home then 1 else 0) ∧
        ∀ more : List Path, (∀ p, p ∈ more ↔ p ∈ targets) →
          (file.addImports more).imports = (file.addImports targets).imports := by
  constructor
  · intro p hp
    exact ⟨Path.isHere_iff hp hhome, Path.resolve?_specifierFrom hp hhome,
      fun q hq _ _ h => Path.eq_of_directory_eq hp hq h⟩
  rintro file rfl hstart targets htargets
  have hlists : ∀ {targets : List Path}, (∀ p ∈ targets, p.Proper) →
      (file.addImports targets).Lists targets :=
    fun htargets => addImports_lists (lists_of_empty hstart) (by simp) htargets
  have hascends : ∀ {targets : List Path}, Ascending (file.addImports targets).imports :=
    addImports_ascending (by rw [hstart]; exact List.Pairwise.nil)
  have hnames := (hlists htargets).names_eq
  rw [path_addImports] at hnames
  refine ⟨hnames, fun p => ?_, fun more hmore => ?_⟩
  · have hmem := (hlists htargets).mem_iff p
    rw [path_addImports] at hmem
    split
    · next hp =>
      refine List.count_eq_one_of_mem (hlists htargets).entries_nodup (hmem.mpr ⟨hp.1, ?_⟩)
      rw [← Bool.not_eq_true, Path.isHere_iff (htargets p hp.1) hhome]
      exact hp.2
    · next hp =>
      refine List.count_eq_zero.mpr fun hentry => hp ?_
      obtain ⟨htarget, hother⟩ := hmem.mp hentry
      rw [← Bool.not_eq_true, Path.isHere_iff (htargets p htarget) hhome] at hother
      exact ⟨htarget, hother⟩
  · have hmore' : ∀ p ∈ more, p.Proper := fun p hp => htargets p ((hmore p).mp hp)
    exact (hlists htargets).imports_eq (hlists hmore') (by rw [path_addImports, path_addImports])
      hmore hascends hascends

/-- The file of the orders of the shop. -/
def ordersFile : SourceFile := { path := ⟨["shop", "orders"]⟩ }

/-- Namespaces beside, above and below the orders, one of them with a dot in a name. -/
def ordersTargets : List Path :=
  [⟨["shop", "v1.2"]⟩, ⟨["shop"]⟩, ⟨["shop", "orders"]⟩, ⟨["shop", "orders", "items"]⟩, ⟨["shop"]⟩]

theorem addImports_leadBack_orders :
    Directory.resolve? "shop/orders" "./../v1.2" = some "shop/v1.2" ∧
      (ordersFile.addImports ordersTargets).imports =
        [("./..", ⟨["shop"]⟩), ("./../v1.2", ⟨["shop", "v1.2"]⟩),
          ("./items", ⟨["shop", "orders", "items"]⟩)] ∧
      (ordersFile.addImports ordersTargets.reverse).imports =
        (ordersFile.addImports ordersTargets).imports := by
  have hproper : ∀ p ∈ ordersTargets, p.Proper := by decide
  have hhome : (⟨["shop", "orders"]⟩ : Path).Proper := by decide
  obtain ⟨hpaths, hfiles⟩ := addImports_leadBack hhome
  obtain ⟨-, hback, -⟩ := hpaths ⟨["shop", "v1.2"]⟩ (by decide)
  obtain ⟨-, -, horder⟩ := hfiles ordersFile rfl rfl ordersTargets hproper
  exact ⟨hback, by decide +kernel, horder ordersTargets.reverse fun p => List.mem_reverse⟩

end SourceFile

end SchemaTypes
