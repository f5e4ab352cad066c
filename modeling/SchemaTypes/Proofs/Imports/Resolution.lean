import SchemaTypes.Plan.Emission
import SchemaTypes.Plan.Session
import SchemaTypes.Proofs.Code.Extension
import SchemaTypes.Proofs.Imports.Listing
import SchemaTypes.Proofs.References.Resolution

/-!
# Resolved types are imported

A resolved type names namespaces: those of the definitions and of the library types it is made
of, at any nesting of arrays and structures (`TypeInfo.namespaces`).  What the resolver finds in
a namespace that is not the file's own, it asks to import (`Model.resolve_requires`).  What it
asks for before it fails counts too.

So after a type was resolved, the file imports all the namespaces that are named, each under its
module specifier, and what it imported before is left as it was (`Model.resolve_imports`).
-/

namespace SchemaTypes

/-! ## What a type names -/

namespace TypeInfo

mutual

/-- The namespaces that a type names. -/
def namespaces : TypeInfo → List Path
  | .builtin .. => []
  | .association _ _ _ _ target => [target.place.path]
  | .userDefined _ u => [u.place.path]
  | .library _ path _ => [path]
  | .selfReference _ place _ => [place.path]
  | .inline _ members => memberNamespaces members
  | .enumeration .. => []
  | .array _ item => namespaces item

/-- The namespaces that the members of a structure name. -/
def memberNamespaces : List (String × TypeInfo) → List Path
  | [] => []
  | (_, info) :: rest => namespaces info ++ memberNamespaces rest

end

end TypeInfo

/-- What is known where types are resolved has plain names. -/
structure Site.Plain (site : Site) : Prop where
  home : site.home.Plain
  current : ∀ name, site.current = some name → ∀ s ∈ Text.splitOn '.' name, PlainSegment s
  libraries : ∀ shelf ∈ site.libraries.shelves, shelf.1.path.Plain

/-! ## What a resolution asks for -/

/-- A resolution asks to import plain namespaces, and among them all that are named by what it
finds, except for that of the file. -/
structure Resolution.Requires {α : Type} (home : Path) (named : α → List Path)
    (r : Resolution α) : Prop where
  plain : ∀ p ∈ r.needs.imports, p.Plain
  named : ∀ a, r.outcome = .ok a → ∀ p ∈ named a,
    p.Plain ∧ (p.isHere home = true ∨ p ∈ r.needs.imports)

namespace Resolution.Requires

variable {α β γ : Type} {home : Path} {named : α → List Path} {named' : β → List Path}
  {named'' : γ → List Path} {r : Resolution α} {r' : Resolution β}

theorem found {a : α} (h : named a = []) : (Resolution.found a).Requires home named where
  plain := fun _ hp => absurd hp List.not_mem_nil
  named := by
    intro a' ha p hp
    cases ha
    rw [h] at hp
    cases hp

theorem refuse (e : CompileError) : (Resolution.refuse e : Resolution α).Requires home named where
  plain := fun _ hp => absurd hp List.not_mem_nil
  named := fun _ ha => by cases ha

/-- What is found in two steps names what the steps name. -/
theorem combine {form : α → β → γ} (h : r.Requires home named) (h' : r'.Requires home named')
    (hform : ∀ a b, named'' (form a b) ⊆ named a ++ named' b) :
    (r.andThen fun a => r'.andThen fun b => Resolution.found (form a b)).Requires home named'' := by
  simp only [andThen]
  cases ha : r.outcome with
  | error e => exact ⟨h.plain, fun _ hc => by cases hc⟩
  | ok a =>
    cases hb : r'.outcome with
    | error e =>
      refine ⟨fun p hp => ?_, fun _ hc => by cases hc⟩
      exact (List.mem_append.mp hp).elim (h.plain p) (h'.plain p)
    | ok b =>
      have hneeds : (r.needs ++ (r'.needs ++ (Resolution.found (form a b)).needs)).imports =
          r.needs.imports ++ (r'.needs.imports ++ []) := rfl
      simp only
      constructor
      · intro p hp
        rw [hneeds, List.append_nil] at hp
        exact (List.mem_append.mp hp).elim (h.plain p) (h'.plain p)
      · rintro c hc p hp
        cases hc
        rw [hneeds, List.append_nil]
        rcases List.mem_append.mp (hform a b hp) with hp | hp
        · exact (h.named a ha p hp).imp_right (Or.imp_right (List.mem_append_left _))
        · exact (h'.named b hb p hp).imp_right (Or.imp_right (List.mem_append_right _))

theorem map {form : α → β} (h : r.Requires home named)
    (hform : ∀ a, named' (form a) ⊆ named a) :
    (r.andThen fun a => Resolution.found (form a)).Requires home named' := by
  simp only [andThen]
  cases ha : r.outcome with
  | error e => exact ⟨h.plain, fun _ hb => by cases hb⟩
  | ok a =>
    have hneeds : (r.needs ++ (Resolution.found (form a)).needs) = r.needs :=
      Needs.append_nothing r.needs
    simp only [hneeds]
    refine ⟨h.plain, fun b hb p hp => ?_⟩
    cases hb
    exact h.named a ha p (hform a hp)

end Resolution.Requires

namespace Model

open Resolution

variable {m : Model} {site : Site}

theorem place_requires {n : NameParts} (hplain : n.path.Plain) :
    (site.place n).Requires site.home fun place => [place.path] := by
  rw [Site.place]
  cases hhere : n.path.isHere site.home with
  | true =>
    refine ⟨fun _ hp => absurd hp List.not_mem_nil, fun place hplace p hp => ?_⟩
    cases hplace
    rw [List.mem_singleton.mp hp]
    exact ⟨hplain, Or.inl hhere⟩
  | false =>
    have hneeds : (((require n.path).andThen fun _ =>
        Resolution.found (⟨n.path, n.scope, true⟩ : Place)).needs).imports = [n.path] := rfl
    refine ⟨fun p hp => ?_, fun place hplace p hp => ?_⟩
    · exact List.mem_singleton.mp (hneeds ▸ hp) ▸ hplain
    · cases hplace
      rw [List.mem_singleton.mp hp]
      exact ⟨hplain, Or.inr (hneeds ▸ List.mem_singleton_self _)⟩

theorem resolveUserDefined_requires (hm : m.PlainNames) (name : String) (access : List String)
    (reference : Bool) (hint : String) :
    (m.resolveUserDefined site name access reference hint).Requires site.home
      fun u => [u.place.path] := by
  rw [resolveUserDefined]
  cases hd : m.find? name with
  | none => exact .refuse _
  | some d => exact (place_requires (hm.path hd)).map fun _ => List.Subset.refl _

theorem resolveAccess_requires (hm : m.PlainNames) (name : String) (access : List String)
    (reference : Bool) (hint : String) (notNull : Bool) :
    (m.resolveAccess site name access reference hint notNull).Requires site.home
      TypeInfo.namespaces :=
  (resolveUserDefined_requires hm name access reference hint).map fun _ => List.Subset.refl _

theorem resolveColon_requires (hm : m.PlainNames) (text hint : String) (notNull : Bool) :
    (m.resolveColon site text hint notNull).Requires site.home TypeInfo.namespaces := by
  rw [resolveColon]
  split
  · exact resolveAccess_requires hm _ _ _ _ _
  · exact .refuse _

theorem resolveAssociation_requires (hm : m.PlainNames) (container : Container)
    (element : Definition) (hint : String) (notNull : Bool) :
    (m.resolveAssociation site container element hint notNull).Requires site.home
      TypeInfo.namespaces := by
  rw [resolveAssociation]
  cases element.target with
  | none => exact .refuse _
  | some target =>
    exact (resolveUserDefined_requires hm target [] false hint).map fun _ => List.Subset.refl _

/-- A namespace is made of first segments of the name. -/
theorem path_nameParts_subset (m : Model) (name : String) :
    (m.nameParts name).path.segments ⊆ Text.splitOn '.' name := by
  have happend := m.splitNamespace_append (Text.splitOn '.' name) []
  rw [List.nil_append] at happend
  exact fun s hs => happend ▸ List.mem_append_left _ hs

theorem resolveSelf_requires (hsite : site.Plain) (hint : String) (notNull : Bool) :
    (m.resolveSelf site hint notNull).Requires site.home TypeInfo.namespaces := by
  rw [resolveSelf]
  cases hcurrent : site.current with
  | none => exact .refuse _
  | some name =>
    have hplain : (m.nameParts name).path.Plain := fun s hs =>
      hsite.current name hcurrent s (m.path_nameParts_subset name hs)
    exact (place_requires hplain).map fun _ => List.Subset.refl _

theorem resolveLibrary_requires (hsite : site.Plain) (name hint : String) (notNull : Bool) :
    (resolveLibrary site name hint notNull).Requires site.home TypeInfo.namespaces := by
  rw [resolveLibrary]
  cases hfind : site.libraries.find? name with
  | none => exact .refuse _
  | some type =>
    have hplain : type.path.Plain := by
      rw [Registry.find?] at hfind
      split at hfind
      · cases hfind
      · next lib used hshelf =>
        cases hfind
        exact hsite.libraries _ (List.mem_of_find?_eq_some hshelf)
    have hneeds : (((useLibrary name).andThen fun _ => (require type.path).andThen fun _ =>
        Resolution.found (TypeInfo.library notNull type.path type.name)).needs).imports =
          [type.path] := rfl
    refine ⟨fun p hp => ?_, fun info hinfo p hp => ?_⟩
    · exact List.mem_singleton.mp (hneeds ▸ hp) ▸ hplain
    · cases hinfo
      rw [List.mem_singleton.mp hp]
      exact ⟨hplain, Or.inr (hneeds ▸ List.mem_singleton_self _)⟩

/-- A type that is stated by its name. -/
theorem resolveName_requires (hm : m.PlainNames) (hsite : site.Plain) (name : String)
    (element : Definition) (hint : String) (notNull : Bool) :
    (m.resolveName site name element hint notNull).Requires site.home TypeInfo.namespaces := by
  rw [resolveName]
  split
  · exact resolveColon_requires hm name hint notNull
  · split
    · exact resolveAssociation_requires hm _ element hint notNull
    · split
      · exact .found rfl
      · split
        · exact resolveSelf_requires hsite hint notNull
        · split
          · exact resolveAccess_requires hm _ _ _ _ _
          · dsimp only
            split
            · exact resolveLibrary_requires hsite name hint notNull
            · exact resolveAccess_requires hm _ _ _ _ _

theorem forEntries_requires {α : Type} {home : Path}
    {resolve : String → α → Resolution TypeInfo} :
    ∀ {entries : List (String × α)},
      (∀ entry ∈ entries, (resolve entry.1 entry.2).Requires home TypeInfo.namespaces) →
      (forEntries resolve entries).Requires home TypeInfo.memberNamespaces
  | [], _ => .found rfl
  | (name, a) :: _, h =>
    (h (name, a) List.mem_cons_self).combine
      (forEntries_requires fun entry hentry => h entry (List.mem_cons_of_mem _ hentry))
      fun _ _ => List.Subset.refl _

/-- The type of an element, at any nesting. -/
theorem resolveWithin_requires (hm : m.PlainNames) (hsite : site.Plain) :
    ∀ (levels : Nat) (outermost : Bool) (element : Definition) (hint : String),
      (m.resolveWithin site levels outermost element hint).Requires site.home TypeInfo.namespaces
  | 0, _, _, _ => by
    rw [resolveWithin]
    exact .refuse _
  | levels + 1, outermost, element, hint => by
    rw [resolveWithin]
    split
    · exact (resolveWithin_requires hm hsite levels false _ hint).map fun _ => List.Subset.refl _
    · split
      · exact .found rfl
      · split
        · have hmembers : ∀ entry ∈ element.ownElements,
              (m.resolveWithin site levels false entry.2 (hint ++ "_" ++ entry.1)).Requires
                site.home TypeInfo.namespaces :=
            fun entry _ => resolveWithin_requires hm hsite levels false entry.2 _
          exact (forEntries_requires hmembers).map fun _ => List.Subset.refl _
        · exact .refuse _
        · exact resolveAccess_requires hm _ _ _ _ _
        · exact resolveName_requires hm hsite _ element hint _

/-- Whatever comes of it, the resolver asks for plain namespaces only, and for all that the type
it finds names. -/
theorem resolve_requires (hm : m.PlainNames) (hsite : site.Plain) (element : Definition)
    (hint : String) : (m.resolve site element hint).Requires site.home TypeInfo.namespaces :=
  resolveWithin_requires hm hsite (maxDepth + 1) true element hint

theorem resolveDefinition_requires (hm : m.PlainNames) (name : String) :
    (m.resolveDefinition site name).Requires site.home fun u => [u.place.path] :=
  resolveUserDefined_requires hm name [] false name

end Model

/-! ## The file that types are written in -/

/-- A file that nothing but the resolver has added imports to.  It may have been started with the
base namespace. -/
inductive Model.Fills (m : Model) : SourceFile → Prop
  | new {file : SourceFile} : file.path.Plain → file.imports = [] → Fills m file
  | start {path : Path} : path.Plain → Fills m (.start path)
  | resolve {file : SourceFile} (s : Session) (element : Definition) (hint : String) :
      Fills m file → (s.site file.path).Plain →
        Fills m (file.addImports (m.resolve (s.site file.path) element hint).needs.imports)
  | define {file : SourceFile} (s : Session) (name : String) :
      Fills m file → (s.site file.path).Plain →
        Fills m (file.addImports (m.resolveDefinition (s.site file.path) name).needs.imports)

namespace Model

variable {m : Model} {file : SourceFile}

theorem lists_addImports {targets more : List Path} (hlists : file.Lists targets)
    (htargets : ∀ p ∈ targets, p.Plain) (hmore : ∀ p ∈ more, p.Plain) :
    (file.addImports more).Lists (targets ++ more) ∧ ∀ p ∈ targets ++ more, p.Plain :=
  ⟨SourceFile.addImports_lists hlists (fun p hp => (htargets p hp).proper)
      fun p hp => (hmore p hp).proper,
    fun p hp => (List.mem_append.mp hp).elim (htargets p) (hmore p)⟩

theorem Fills.lists (hm : m.PlainNames) (h : m.Fills file) :
    ∃ targets, file.Lists targets ∧ ∀ p ∈ targets, p.Plain := by
  induction h with
  | new _ hstart => exact ⟨[], SourceFile.lists_of_empty hstart, by simp⟩
  | start _ =>
    have hbase : ∀ p ∈ [basePath], p.Plain := by decide
    exact ⟨_, lists_addImports (SourceFile.lists_of_empty rfl) (by simp) hbase⟩
  | resolve s element hint _ hsite ih =>
    obtain ⟨targets, hlists, htargets⟩ := ih
    exact ⟨_, lists_addImports hlists htargets (resolve_requires hm hsite element hint).plain⟩
  | define s name _ hsite ih =>
    obtain ⟨targets, hlists, htargets⟩ := ih
    exact ⟨_, lists_addImports hlists htargets (resolveDefinition_requires hm name).plain⟩

/-- After a type was resolved, the file imports all namespaces that the type names, except for its
own.  Whether or not there is a type, what was imported before is left as it was. -/
theorem resolve_imports (hm : m.PlainNames) (hfile : m.Fills file) (s : Session)
    (hsite : (s.site file.path).Plain) (element : Definition) (hint : String) :
    let r := m.resolve (s.site file.path) element hint
    (∀ specifier p, Table.get? file.imports specifier = some p →
      Table.get? (file.addImports r.needs.imports).imports specifier = some p) ∧
    ∀ info, r.outcome = .ok info → ∀ p ∈ info.namespaces, p ≠ file.path →
      Table.get? (file.addImports r.needs.imports).imports (p.specifierFrom file.path) =
        some p := by
  intro r
  have hrequires : r.Requires file.path TypeInfo.namespaces :=
    resolve_requires hm hsite element hint
  obtain ⟨targets, hlists, htargets⟩ := hfile.lists hm
  obtain ⟨hafter, -⟩ := lists_addImports hlists htargets hrequires.plain
  constructor
  · intro specifier p hp
    have hgrows := (SourceFile.addImports_extends file r.needs.imports).inserted
    exact Table.get?_of_mem hafter.distinct (hgrows.subset (Table.mem_of_get? hp))
  · intro info hinfo p hp hother
    obtain ⟨hplain, hneeded⟩ := hrequires.named info hinfo p hp
    have hhere : p.isHere file.path ≠ true := fun h =>
      hother ((Path.isHere_iff hplain.proper hsite.home.proper).mp h)
    have hget := hafter.get? (List.mem_append_right targets (hneeded.resolve_left hhere))
    rw [SourceFile.path_addImports] at hget
    exact hget (by simpa using hhere)

/-- Shelves of books by authors of another namespace. -/
def shelfModel : Model where
  definitions := [
    ("shop.Shelves", { kind := some .entity }),
    ("people.writers.Authors", { kind := some .entity })]

/-- A structure with authors, a shelf and a weight. -/
def shelfElement : Definition := {
  elements := some [
    ("authors", { items := some {
      type := some (.name "cds.Association"), target := some "people.writers.Authors" } }),
    ("shelf", { type := some (.name "shop.Shelves") }),
    ("weight", { type := some (.name "units.Weight") })] }

/-- A session with a library of units. -/
def shelfSession : Session :=
  { registry := .ofLibraries [⟨⟨["units"]⟩, "export type Weight = number;"⟩] }

/-- The type of the structure in the file of the shop. -/
def shelfType : Resolution TypeInfo :=
  shelfModel.resolve (shelfSession.site SourceFile.shopFile.path) shelfElement "Shelves_stock"

theorem resolve_imports_shelf :
    ∃ info, shelfType.outcome = .ok info ∧
      info.namespaces = [⟨["people", "writers"]⟩, ⟨["shop"]⟩, ⟨["units"]⟩] ∧
      ∀ p ∈ info.namespaces, p ≠ SourceFile.shopFile.path →
        Table.get? (SourceFile.shopFile.addImports shelfType.needs.imports).imports
          (p.specifierFrom SourceFile.shopFile.path) = some p := by
  have hm : shelfModel.PlainNames := by
    unfold PlainNames
    decide
  have hsite : (shelfSession.site SourceFile.shopFile.path).Plain :=
    ⟨by decide, nofun, by decide +kernel⟩
  have hfile : shelfModel.Fills SourceFile.shopFile := .new (by decide) rfl
  have hnamespaces : shelfType.outcome.toOption.map TypeInfo.namespaces =
      some [⟨["people", "writers"]⟩, ⟨["shop"]⟩, ⟨["units"]⟩] := by decide +kernel
  have hnamed := (resolve_imports hm hfile shelfSession hsite shelfElement "Shelves_stock").2
  rw [← shelfType] at hnamed
  cases hinfo : shelfType.outcome with
  | error e =>
    rw [hinfo] at hnamespaces
    cases hnamespaces
  | ok info =>
    rw [hinfo] at hnamespaces
    exact ⟨info, rfl, Option.some.inj hnamespaces, hnamed info hinfo⟩

end Model

end SchemaTypes
