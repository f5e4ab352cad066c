import Mathlib.Data.List.Nodup
import SchemaTypes.Proofs.Code.Contents
import SchemaTypes.Proofs.Files.Map
import SchemaTypes.Proofs.Frame
import SchemaTypes.Proofs.References.Closed
import SchemaTypes.Proofs.Visit

/-!
# Directories are told apart

The files of an output come from three sides: the base namespace, the libraries and
the namespaces of the model.  Where namespaces are plain, two of them have one
directory only if they are the same.  So the directories are distinct unless the model
has a namespace that is the base one or that of a library it refers to, and where they
are distinct nothing that is written is overwritten (`compile_directories`).

Nothing keeps a model from having such a namespace, and then its file takes the place
of the one that was there (`directories_clash`).
-/

namespace SchemaTypes

namespace Directory

/-! ## Names below a directory -/

/-- What stands before the names below a directory. -/
def lead (below : String) : String :=
  if below == "" || endsWithSeparator below then below else below ++ "/"

theorem push_eq_lead {below name : String} (h : isAbsolute name = false) :
    push below name = lead below ++ name := by
  simp only [push, lead, h, Bool.false_eq_true, if_false]
  split <;> rfl

/-- Nothing is put between what leads to names and a name. -/
theorem push_lead {below name : String} (h : isAbsolute name = false) :
    push (lead below) name = lead below ++ name := by
  have hlead : (lead below == "" || endsWithSeparator (lead below)) = true := by
    by_cases hbelow : (below == "" || endsWithSeparator below) = true
    · rwa [lead, if_pos hbelow]
    · rw [lead, if_neg hbelow]
      simp [endsWithSeparator]
  rw [push, h, if_neg Bool.false_ne_true, if_pos hlead]

theorem join_not_separated {front : String} {names : List String} (h : ∀ s ∈ names, Solid s)
    (hne : names ≠ []) : endsWithSeparator (front ++ Text.join "/" names) = false := by
  obtain ⟨before, last, rfl⟩ := (List.eq_nil_or_concat names).resolve_left hne
  obtain ⟨middle, hmiddle⟩ := Text.isSuffix_join_append "/" before [last]
  have hjoin : front ++ Text.join "/" (before ++ [last]) =
      (front ++ String.ofList middle) ++ last := by
    apply String.toList_inj.mp
    rw [String.toList_append, ← hmiddle]
    simp [Text.join]
  rw [List.concat_eq_append, hjoin]
  exact endsWithSeparator_append (h last (by simp))

/-- The path of a file in a directory that is given by names. -/
theorem push_push {below name : String} {names : List String} (h : ∀ s ∈ names, Solid s)
    (hname : Solid name) :
    push (push below (Text.join "/" names)) name =
      lead below ++ Text.join "/" (names ++ [name]) := by
  rw [push_eq_lead (join_not_absolute h)]
  by_cases hne : names = []
  · subst hne
    exact (congrArg (push · name) String.append_empty).trans (push_lead hname.not_absolute)
  · have hall : ∀ s ∈ names ++ [name], Solid s := by
      simpa [or_imp, forall_and] using ⟨h, hname⟩
    have hconcat : push (Text.join "/" names) name = Text.join "/" (names ++ [name]) := by
      rw [← joinNames_eq h, ← joinNames_eq hall, joinNames, joinNames, List.foldl_append]
      rfl
    have hsolid : ∀ front, front ++ Text.join "/" names ≠ "" := by
      obtain ⟨s, rest, rfl⟩ := List.exists_cons_of_ne_nil hne
      intro front
      cases rest <;> simp [Text.join, (h s List.mem_cons_self).1]
    have hseparated : endsWithSeparator ("" ++ Text.join "/" names) = false :=
      join_not_separated h hne
    rw [push_of_solid (hsolid _) (join_not_separated h hne) hname, ← hconcat,
      push_of_solid (by simpa using hsolid "") (by simpa using hseparated) hname]
    simp only [String.append_assoc]

end Directory

namespace Path

open Directory

theorem outputDirectory_eq {p : Path} (h : p.Plain) :
    p.outputDirectory = Text.join "/" p.segments := by
  have hnone : ∀ c ∈ (Text.join "/" p.segments).toList, c ≠ '\\' := by
    rintro c hc rfl
    rcases Text.mem_join hc with hc | ⟨s, hs, hc⟩
    · exact absurd hc (by decide)
    · exact (h s hs).noBackslash hc
  have hlocation : p.location = Text.join "/" p.segments :=
    joinNames_eq fun s hs => PlainSegment.solid (h s hs)
  simp only [outputDirectory, directory, hlocation, withForwardSlashes, Bool.false_eq_true,
    if_false, if_true]
  rw [List.map_congr_left fun c hc => if_neg (hnone c hc), List.map_id', String.ofList_toList]

/-- Directories tell plain paths apart. -/
theorem eq_of_outputDirectory_eq {p q : Path} (hp : p.Plain) (hq : q.Plain)
    (h : p.outputDirectory = q.outputDirectory) : p = q := by
  rw [outputDirectory_eq hp, outputDirectory_eq hq] at h
  have hsegments : p.segments = q.segments :=
    Text.join_injective '/' (fun s hs => PlainSegment.solid (hp s hs))
      (fun s hs => PlainSegment.solid (hq s hs)) h
  cases p
  cases q
  exact congrArg _ hsegments

end Path

/-! ## What is written -/

/-- The path of the type layer of a file that is written below a directory. -/
def GeneratedFile.typesPath (below : String) (f : GeneratedFile) : String :=
  Directory.push (Directory.push below f.directory) "index.ts"

/-- The path of its runtime stub. -/
def GeneratedFile.runtimePath (below : String) (f : GeneratedFile) : String :=
  Directory.push (Directory.push below f.directory) "index.js"

namespace GeneratedFile

variable {f g : GeneratedFile} {below name name' : String}

/-- The path of a name in the directory of a file. -/
theorem push_directory_eq (hplain : f.path.Plain) (hname : Directory.Solid name) :
    Directory.push (Directory.push below f.directory) name =
      Directory.lead below ++ Text.join "/" (f.path.segments ++ [name]) := by
  rw [directory, Path.outputDirectory_eq hplain]
  exact Directory.push_push (fun s hs => Directory.PlainSegment.solid (hplain s hs)) hname

/-- Paths tell namespaces and names apart. -/
theorem eq_of_push_directory_eq (hf : f.path.Plain) (hg : g.path.Plain)
    (hname : Directory.Solid name) (hname' : Directory.Solid name')
    (h : Directory.push (Directory.push below f.directory) name =
      Directory.push (Directory.push below g.directory) name') :
    f.path = g.path ∧ name = name' := by
  have hsolid : ∀ {p : Path} {n : String}, p.Plain → Directory.Solid n →
      ∀ s ∈ p.segments ++ [n], Directory.Solid s := by
    intro p n hp hn s hs
    rcases List.mem_append.mp hs with hs | hs
    · exact Directory.PlainSegment.solid (hp s hs)
    · exact List.mem_singleton.mp hs ▸ hn
  rw [push_directory_eq hf hname, push_directory_eq hg hname'] at h
  have hjoined : Text.join "/" (f.path.segments ++ [name]) =
      Text.join "/" (g.path.segments ++ [name']) := by
    simpa using h
  obtain ⟨hsegments, hlast⟩ := List.append_inj'
    (Text.join_injective '/' (hsolid hf hname) (hsolid hg hname') hjoined) rfl
  refine ⟨?_, List.singleton_inj.mp hlast⟩
  cases hp : f.path
  cases hq : g.path
  rw [hp, hq] at hsegments
  exact congrArg _ hsegments

/-- A file is written under at most two names. -/
theorem path_of_mem_writes {w : FileWrite} (h : w ∈ f.writes below) :
    ∃ name, Directory.Solid name ∧
      w.path = Directory.push (Directory.push below f.directory) name := by
  have hts : Directory.Solid "index.ts" := ⟨by decide, by decide⟩
  have hjs : Directory.Solid "index.js" := ⟨by decide, by decide⟩
  rcases List.mem_cons.mp h with rfl | h
  · exact ⟨"index.ts", hts, rfl⟩
  · cases hr : f.runtime with
    | none => simp [hr] at h
    | some text =>
      rw [hr] at h
      obtain rfl := List.mem_singleton.mp h
      exact ⟨"index.js", hjs, rfl⟩

theorem typesPath_ne_runtimePath (hplain : f.path.Plain) (below : String) :
    f.typesPath below ≠ f.runtimePath below := fun heq =>
  absurd (eq_of_push_directory_eq hplain hplain ⟨by decide, by decide⟩ ⟨by decide, by decide⟩ heq).2
    (by decide)

theorem writes_nodup (hplain : f.path.Plain) :
    ((f.writes below).map FileWrite.path).Nodup := by
  have hnames := typesPath_ne_runtimePath hplain below
  cases hr : f.runtime with
  | none => simp [writes, hr]
  | some text => simpa [writes, hr, FileWrite.path, typesPath, runtimePath] using hnames

end GeneratedFile

namespace Output

variable {o : Output}

/-- The namespaces of the files, in order. -/
def paths (o : Output) : List Path := o.files.map (·.path)

/-- Plain namespaces have distinct directories if they are distinct themselves. -/
theorem directories_nodup_iff (hplain : ∀ p ∈ o.paths, p.Plain) :
    o.directories.Nodup ↔ o.paths.Nodup := by
  have hmap : o.directories = o.paths.map Path.outputDirectory := by
    simp [directories, paths, GeneratedFile.directory]
  rw [hmap]
  refine ⟨List.Nodup.of_map _, fun h => h.map_on fun p hp q hq heq => ?_⟩
  exact Path.eq_of_outputDirectory_eq (hplain p hp) (hplain q hq) heq

/-- Where directories are distinct, so are the paths of all that is written. -/
theorem writes_nodup (hplain : ∀ p ∈ o.paths, p.Plain) (h : o.paths.Nodup) (below : String) :
    ((o.writes below).map FileWrite.path).Nodup := by
  have hfile : ∀ {f : GeneratedFile}, f ∈ o.files → f.path.Plain := fun hf =>
    hplain _ (List.mem_map_of_mem hf)
  rw [writes, List.map_flatMap, List.nodup_flatMap]
  refine ⟨fun f hf => f.writes_nodup (hfile hf), ?_⟩
  refine (List.pairwise_map.mp h).imp_of_mem fun {f g} hf hg hne => ?_
  -- A path that both files are written to would give them one namespace.
  refine List.disjoint_left.mpr fun path hpath hpath' => hne ?_
  obtain ⟨w, hw, rfl⟩ := List.mem_map.mp hpath
  obtain ⟨w', hw', heq⟩ := List.mem_map.mp hpath'
  obtain ⟨name, hname, hpath⟩ := GeneratedFile.path_of_mem_writes hw
  obtain ⟨name', hname', hpath'⟩ := GeneratedFile.path_of_mem_writes hw'
  rw [hpath, hpath'] at heq
  exact (GeneratedFile.eq_of_push_directory_eq (hfile hg) (hfile hf) hname' hname heq).1.symm

/-- Where directories are distinct, every file is there after all were written. -/
theorem writeTo_keeps (hplain : ∀ p ∈ o.paths, p.Plain) (h : o.directories.Nodup)
    (below : String) (before : FileMap) :
    ∃ after, (o.writeTo below : ExceptT Failure (StateM FileMap) Unit) before = (.ok (), after) ∧
      ∀ f ∈ o.files, after.text? (f.typesPath below) = some f.types ∧
        ∀ text, f.runtime = some text → after.text? (f.runtimePath below) = some text := by
  have hnodup := writes_nodup hplain ((directories_nodup_iff hplain).mp h) below
  refine ⟨before.writeAll (o.writes below), FileMap.carryOutAll_run _ _, fun f hf => ?_⟩
  have hkept : ∀ {w : FileWrite}, w ∈ f.writes below →
      (before.writeAll (o.writes below)).text? w.path = some w.text := fun hw =>
    FileMap.text?_of_mem hnodup (List.mem_flatMap.mpr ⟨f, hf, hw⟩)
  refine ⟨hkept (w := ⟨_, _, f.types⟩) List.mem_cons_self, fun text htext => ?_⟩
  refine hkept (w := ⟨_, _, text⟩) (List.mem_cons_of_mem _ ?_)
  rw [htext]
  exact List.mem_singleton.mpr rfl

end Output

/-! ## The output for a model -/

namespace Registry

theorem referenced_sublist (r : Registry) : r.referenced.Sublist r.libraries :=
  (List.filter_sublist (l := r.shelves)).map _

end Registry

namespace Plan

variable {m : Model} {plan : Plan}

/-- The libraries that are referred to are some of the standard ones. -/
theorem libraries_eq (h : Plan.ofModel m = .ok plan) :
    ∃ r : Registry, r.libraries = Registry.standard.libraries ∧ plan.libraries = r.referenced := by
  obtain ⟨enabled, s, -, hrun, hlibraries, -⟩ := ofModel_eq_ok h
  have hgrows := Step.emissions_grows (m := m) m.definitions
    (sessionFor m.collectDrafts enabled)
  rw [hrun] at hgrows
  exact ⟨s.registry, hgrows.libraries, hlibraries⟩

end Plan

/-- The namespaces of the files that the definitions of a model are written to. -/
def Model.spaces (m : Model) : List Path :=
  m.definitions.filterMap fun (name, d) => m.fileSpace? name d

namespace Plan

variable {m : Model} {plan : Plan} {c : Config}

theorem mem_spaces_iff (h : Plan.ofModel m = .ok plan) {p : Path} :
    p ∈ m.spaces ↔ ∃ e ∈ plan.emissions, e.path = p := by
  obtain ⟨_, _, -, hrun, -⟩ := ofModel_eq_ok h
  constructor
  · intro hp
    obtain ⟨⟨name, d⟩, hd, hspace⟩ := List.mem_filterMap.mp hp
    obtain ⟨e?, t, t', he, hmem⟩ := Step.emission_of_mem hrun hd
    obtain ⟨e, rfl, hpath⟩ := Option.map_eq_some_iff.mp ((Step.emission_path he).trans hspace)
    exact ⟨e, hmem e rfl, hpath⟩
  · rintro ⟨e, he, rfl⟩
    obtain ⟨name, d, t, t', hd, hemission⟩ := Step.emission_of_mem_emissions hrun he
    exact List.mem_filterMap.mpr ⟨(name, d), hd, (Step.emission_path hemission).symm⟩

/-- The files of a plan are for namespaces of the model, one for each dotted text. -/
theorem sources_spaces (hplan : Plan.ofModel m = .ok plan) {sources : Store}
    (h : plan.sources c = .ok sources) :
    sources.spaces.Nodup ∧ (∀ p ∈ sources.paths, p ∈ m.spaces) ∧
      ∀ p ∈ m.spaces, ∃ q ∈ sources.paths, q.dotted = p.dotted := by
  obtain ⟨files, hcollects, hcloses⟩ := sources_collect h
  have hpaths : sources.paths = files.paths := Store.map_eq_of_closes (fun _ _ => rfl) hcloses
  have hspaces : sources.spaces = files.spaces := Store.map_eq_of_closes (fun _ _ => rfl) hcloses
  rw [hpaths, hspaces]
  refine ⟨Store.nodup_of_eraseDups hcollects.spaces, fun p hp => ?_, fun p hp => ?_⟩
  · obtain ⟨file, hfile, rfl⟩ := List.mem_map.mp hp
    obtain ⟨e, he, hpath⟩ := (hcollects.files file hfile).path
    exact (mem_spaces_iff hplan).mpr ⟨e, (List.mem_filter.mp he).1, hpath⟩
  · obtain ⟨e, he, rfl⟩ := (mem_spaces_iff hplan).mp hp
    have hspace : e.path.dotted ∈ files.spaces := by
      rw [hcollects.spaces, List.mem_eraseDups]
      exact List.mem_map.mpr ⟨e, he, rfl⟩
    obtain ⟨file, hfile, hdotted⟩ := List.mem_map.mp hspace
    exact ⟨file.path, List.mem_map_of_mem hfile, hdotted⟩

/-- A plain namespace of the model has one file. -/
theorem sources_paths (hplain : ∀ p ∈ m.spaces, p.Plain) (hplan : Plan.ofModel m = .ok plan)
    {sources : Store} (h : plan.sources c = .ok sources) :
    sources.paths.Nodup ∧ ∀ p, p ∈ sources.paths ↔ p ∈ m.spaces := by
  obtain ⟨hnodup, hmem, hfile⟩ := sources_spaces hplan h
  have hspaces : sources.spaces = sources.paths.map Path.dotted := by
    simp [Store.spaces, Store.paths]
  refine ⟨.of_map Path.dotted (hspaces ▸ hnodup), fun p => ⟨hmem p, fun hp => ?_⟩⟩
  obtain ⟨q, hq, hdotted⟩ := hfile p hp
  exact Path.eq_of_dotted_eq (hplain q (hmem q hq)) (hplain p hp) hdotted ▸ hq

end Plan

/-- For a model whose namespaces are plain, the directories of the output are distinct
exactly if no namespace of the model is the base one or that of a library that is
referred to.  Then every file is there with its own texts after all were written. -/
theorem compile_directories {m : Model} {c : Config} {o : Output}
    (hplain : ∀ p ∈ m.spaces, p.Plain) (h : compile m c = .ok o) :
    ∃ plan, Plan.ofModel m = .ok plan ∧
      (o.directories.Nodup ↔
        ∀ p ∈ m.spaces, p ≠ basePath ∧ ∀ lib ∈ plan.libraries, lib.path ≠ p) ∧
      (o.directories.Nodup → ∀ (below : String) (before : FileMap), ∃ after,
        (o.writeTo below : ExceptT Failure (StateM FileMap) Unit) before = (.ok (), after) ∧
        ∀ f ∈ o.files, after.text? (f.typesPath below) = some f.types ∧
          ∀ text, f.runtime = some text → after.text? (f.runtimePath below) = some text) := by
  obtain ⟨plan, hplan, hrender⟩ := compile_eq_ok h
  obtain ⟨sources, hsources, hfiles⟩ := Plan.render_eq_ok hrender
  obtain ⟨hnodup, hmem⟩ := Plan.sources_paths hplain hplan hsources
  have hpaths : o.paths = basePath :: plan.libraries.map (·.path) ++ sources.paths := by
    simp [Output.paths, hfiles, baseFile, Library.file, SourceFile.file, Store.paths,
      Function.comp_def]
  obtain ⟨r, hr, hreferenced⟩ := Plan.libraries_eq hplan
  have hlibraries := (hr ▸ hreferenced ▸ r.referenced_sublist).map Library.path
  have hstandard : (basePath :: Registry.standard.libraries.map (·.path)).Nodup := by decide
  have hfixed : (basePath :: plan.libraries.map (·.path)).Nodup :=
    hstandard.sublist (hlibraries.cons_cons basePath)
  have hall : ∀ p ∈ o.paths, p.Plain := by
    intro p hp
    rw [hpaths, List.cons_append, List.mem_cons, List.mem_append] at hp
    rcases hp with rfl | hp | hp
    · exact basePath_plain
    · obtain ⟨lib, hlib, rfl⟩ := List.mem_map.mp hp
      exact Registry.standard_plain hr ⟨lib, hreferenced ▸ hlib, rfl⟩
    · exact hplain p ((hmem p).mp hp)
  refine ⟨plan, hplan, ?_, fun hdistinct below before =>
    Output.writeTo_keeps hall hdistinct below before⟩
  rw [Output.directories_nodup_iff hall, hpaths, List.nodup_append]
  constructor
  · rintro ⟨-, -, hapart⟩ p hp
    have hp := (hmem p).mpr hp
    refine ⟨fun heq => hapart _ List.mem_cons_self _ hp heq.symm, fun lib hlib heq => ?_⟩
    exact hapart _ (List.mem_cons_of_mem _ (List.mem_map_of_mem hlib)) _ hp heq
  · intro hapart
    refine ⟨hfixed, hnodup, fun q hq p hp heq => ?_⟩
    obtain ⟨hbase, hlibs⟩ := hapart p ((hmem p).mp hp)
    rcases List.mem_cons.mp hq with rfl | hq
    · exact hbase heq.symm
    · obtain ⟨lib, hlib, rfl⟩ := List.mem_map.mp hq
      exact hlibs lib hlib heq

theorem compile_directories_shelf :
    (∀ p ∈ shelf.spaces, p.Plain) ∧ ∃ o, compile shelf {} = .ok o ∧ o.directories.Nodup ∧
      ∀ (below : String) (before : FileMap), ∃ after,
        (o.writeTo below : ExceptT Failure (StateM FileMap) Unit) before = (.ok (), after) ∧
        ∀ f ∈ o.files, after.text? (f.typesPath below) = some f.types := by
  have hspaces : ∀ p ∈ shelf.spaces, p = ⟨["shop"]⟩ ∨ p = ⟨["people"]⟩ := by decide
  have hplain : ∀ p ∈ shelf.spaces, p.Plain := by
    intro p hp s hs
    rcases hspaces p hp with rfl | rfl <;> obtain rfl := List.mem_singleton.mp hs <;>
      constructor <;> decide
  obtain ⟨plan, hplan⟩ := Except.exists_eq_ok (x := Plan.ofModel shelf) (by decide +kernel)
  obtain ⟨o, ho⟩ := compile_ok {} hplan
  obtain ⟨plan', hplan', hdistinct, hkept⟩ := compile_directories hplain ho
  obtain ⟨r, hr, hreferenced⟩ := Plan.libraries_eq hplan'
  have hapart : ∀ p ∈ shelf.spaces, p ≠ basePath ∧ ∀ lib ∈ plan'.libraries, lib.path ≠ p := by
    intro p hp
    have hstandard : ∀ lib ∈ Registry.standard.libraries,
        lib.path ≠ ⟨["shop"]⟩ ∧ lib.path ≠ ⟨["people"]⟩ := by decide
    have hlibs : ∀ lib ∈ plan'.libraries, lib ∈ Registry.standard.libraries := fun lib hlib =>
      hr ▸ Registry.mem_libraries_of_referenced (hreferenced ▸ hlib)
    rcases hspaces p hp with rfl | rfl
    · exact ⟨by decide, fun lib hlib => (hstandard lib (hlibs lib hlib)).1⟩
    · exact ⟨by decide, fun lib hlib => (hstandard lib (hlibs lib hlib)).2⟩
  have hnodup := hdistinct.mpr hapart
  refine ⟨hplain, o, ho, hnodup, fun below before => ?_⟩
  obtain ⟨after, hrun, hall⟩ := hkept hnodup below before
  exact ⟨after, hrun, fun f hf => (hall f hf).1⟩

/-- Books in a namespace that is written like the base one. -/
def baseBooks : Model where
  definitions :=
    [("_.Books", {
        kind := some .entity
        elements := some [("ID", { type := some (.name "cds.UUID"), key := true })] })]

/-- The file of the books stands where the base file was. -/
theorem directories_clash :
    ∃ o books, compile baseBooks {} = .ok o ∧ o.files = [baseFile, books] ∧
      ¬ o.directories.Nodup ∧ ∀ (below : String) (before : FileMap), ∃ after,
        (o.writeTo below : ExceptT Failure (StateM FileMap) Unit) before = (.ok (), after) ∧
        after.text? (baseFile.typesPath below) = some books.types := by
  have hspaces : baseBooks.spaces = [basePath] := by decide
  have hplain : ∀ p ∈ baseBooks.spaces, p.Plain := by
    rw [hspaces]
    exact List.forall_mem_singleton.mpr basePath_plain
  have hlibraries : (Plan.ofModel baseBooks).toOption.map (·.libraries) = some [] := by
    decide +kernel
  cases hplan : Plan.ofModel baseBooks with
  | error e =>
    rw [hplan] at hlibraries
    cases hlibraries
  | ok plan =>
    rw [hplan] at hlibraries
    obtain ⟨o, ho, hrender⟩ := compile_written {} hplan
    obtain ⟨sources, hsources, hfiles⟩ := Plan.render_eq_ok hrender
    obtain ⟨hnodup, hmem⟩ := Plan.sources_paths hplain hplan hsources
    have hpaths : sources.paths = [basePath] :=
      List.perm_singleton.mp ((List.perm_ext_iff_of_nodup hnodup (List.nodup_singleton _)).mpr
        (hspaces ▸ hmem))
    obtain ⟨file, rfl, hpath⟩ := List.map_eq_singleton_iff.mp hpaths
    have hnone : plan.libraries = [] := Option.some.inj hlibraries
    rw [hnone] at hfiles
    have hdirectory : (file.file {}).directory = baseFile.directory :=
      congrArg Path.outputDirectory hpath
    refine ⟨o, file.file {}, ho, hfiles, ?_, fun below before => ?_⟩
    · simp [Output.directories, hfiles, hdirectory]
    · refine ⟨before.writeAll (o.writes below), FileMap.carryOutAll_run _ _, ?_⟩
      have hplain : (file.file {}).path.Plain := by
        have hfile : file.path.Plain := hpath ▸ basePath_plain
        exact hfile
      have hwrites : o.writes below = baseFile.writes below ++ (file.file {}).writes below := by
        simp [Output.writes, hfiles]
      have hsame : baseFile.typesPath below = (file.file {}).typesPath below := by
        simp only [GeneratedFile.typesPath, hdirectory]
      -- The books are written last, whatever was there before.
      rw [hwrites, FileMap.writeAll_append, hsame]
      exact FileMap.text?_of_mem (w := ⟨_, _, (file.file {}).types⟩)
        (GeneratedFile.writes_nodup hplain) List.mem_cons_self

end SchemaTypes
