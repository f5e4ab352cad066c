import Mathlib.Data.List.Nodup
import Mathlib.Data.List.Pairwise
import SchemaTypes.Proofs.Code.Contents
import SchemaTypes.Proofs.Names.Collisions
import SchemaTypes.Proofs.Names.Inflection
import SchemaTypes.Proofs.References.Emission
import SchemaTypes.Proofs.Visit

/-!
# Names of classes

An entity gives two classes, and an aspect, a type or an event gives a class or a type
alias of its own name.  They stand in the file of their namespace, at the top level or
in the nested namespace of their scope.  `Plan.typeNames` lists them for one such place,
and they are those of the definitions that stand there (`Plan.typeNames_eq`).

With no error found, most of them are told apart: a singular from the names of other
definitions, the plurals of entities from each other, and the two names of an entity.
Two singulars are not, and neither is a plural that is not the name of its entity.
`Model.NamesApart` says that these are distinct too, which is what is missing
(`Plan.typeNames_nodup_iff`, `compile_typeNames`).  Two entities with one singular show
that it can fail unnoticed (`cities_clash`).
-/

namespace SchemaTypes

/-! ## Definitions of a file -/

namespace Model

variable {m : Model}

/-- What a definition puts into the file of its namespace. -/
def inFile {β : Type} (m : Model) (space : String) (put : String → Definition → List β)
    (entry : String × Definition) : List β :=
  if (m.nameParts entry.1).path.dotted = space then put entry.1 entry.2 else []

/-- What a definition puts into a file, if it is written there at all. -/
def writtenTo {β : Type} (m : Model) (space : String) (put : String → Definition → List β)
    (entry : String × Definition) : List β :=
  if (m.fileSpace? entry.1 entry.2).map Path.dotted = some space then put entry.1 entry.2 else []

/-- What definitions give is distinct if it is for each of them, and no two of them give the
same. -/
theorem nodup_definitions_flatMap {β : Type} {put : String × Definition → List β} :
    (m.definitions.flatMap put).Nodup ↔
      (∀ {name d}, m.find? name = some d → (put (name, d)).Nodup) ∧
      ∀ {name d name' d'}, m.find? name = some d → m.find? name' = some d' → name ≠ name' →
        List.Disjoint (put (name, d)) (put (name', d')) := by
  rw [List.nodup_flatMap]
  constructor
  · rintro ⟨hone, hpairs⟩
    have hsymm : Std.Symm (Function.onFun List.Disjoint put) := ⟨fun _ _ hpair _ h h' => hpair h' h⟩
    refine ⟨fun hd => hone _ (find?_eq_some_iff.mp hd), fun hd hd' hne => ?_⟩
    exact hpairs.forall (find?_eq_some_iff.mp hd) (find?_eq_some_iff.mp hd')
      fun heq => hne (congrArg Prod.fst heq)
  · rintro ⟨hone, hpairs⟩
    refine ⟨fun entry hentry => hone (find?_eq_some_iff.mpr hentry), ?_⟩
    refine m.distinct.of_map.pairwise_of_forall_ne fun entry hentry entry' hentry' hne => ?_
    have hd := find?_eq_some_iff.mpr hentry
    have hd' := find?_eq_some_iff.mpr hentry'
    exact hpairs hd hd' fun heq => hne (Prod.ext heq (eq_of_find? (heq ▸ hd) hd'))

end Model

namespace Step

variable {m : Model} {β : Type} {f : Emission → List β} {put : String → Definition → List β}

/-- What emissions put into a file comes from one definition after the other. -/
theorem flatMap_emissionsOf {space : String}
    (hone : ∀ {name d e s s'}, m.find? name = some d → emission m name d s = (.ok (some e), s') →
      f e = put name d) {visited : Table Definition} {es : List Emission} {s s' : Session}
    (hvisited : ∀ entry ∈ visited, m.find? entry.1 = some entry.2)
    (h : emissions m visited s = (.ok es, s')) :
    (Store.emissionsOf space es).flatMap f = visited.flatMap (m.writtenTo space put) := by
  induction visited generalizing s es with
  | nil =>
    obtain ⟨rfl, -⟩ := pure_eq_ok h
    rfl
  | cons entry rest ih =>
    obtain ⟨name, d⟩ := entry
    obtain ⟨e?, t, others, he, hothers, rfl⟩ := emissions_cons_eq_ok h
    have hd := hvisited (name, d) List.mem_cons_self
    rw [Store.emissionsOf, List.filter_append, List.flatMap_append, List.flatMap_cons]
    refine congrArg₂ (· ++ ·) ?_ (ih (fun e he => hvisited e (List.mem_cons_of_mem _ he)) hothers)
    rw [Model.writtenTo, ← emission_path he]
    cases e? with
    | none => rfl
    | some e =>
      rw [Option.toList_some, List.filter_singleton]
      by_cases hhere : e.path.dotted = space
      · simp [hhere, hone hd he]
      · simp [hhere]

end Step

theorem Plan.flatMap_written {m : Model} {plan : Plan} {β : Type} {f : Emission → List β}
    {put : String → Definition → List β} {space : String} (hplan : Plan.ofModel m = .ok plan)
    (hone : ∀ {name d e s s'}, m.find? name = some d →
      Step.emission m name d s = (.ok (some e), s') → f e = put name d) :
    (Store.emissionsOf space plan.emissions).flatMap f =
      m.definitions.flatMap (m.writtenTo space put) := by
  obtain ⟨_, _, -, hrun, -⟩ := ofModel_eq_ok hplan
  exact Step.flatMap_emissionsOf hone (fun _ h => Model.find?_eq_some_iff.mpr h) hrun

theorem Plan.flatMap_emissionsOf {m : Model} {plan : Plan} {β : Type} {f : Emission → List β}
    {put : String → Definition → List β} {space : String} (hplan : Plan.ofModel m = .ok plan)
    (hspace : ∀ {name d}, m.find? name = some d → put name d ≠ [] →
      m.fileSpace? name d = some (m.nameParts name).path)
    (hone : ∀ {name d e s s'}, m.find? name = some d →
      Step.emission m name d s = (.ok (some e), s') → f e = put name d) :
    (Store.emissionsOf space plan.emissions).flatMap f =
      m.definitions.flatMap (m.inFile space put) := by
  rw [flatMap_written hplan hone]
  refine List.flatMap_congr fun entry hentry => ?_
  rw [Model.writtenTo, Model.inFile]
  by_cases hput : put entry.1 entry.2 = []
  · -- The definition puts nothing anywhere, whatever it is written to.
    rw [hput, ite_self, ite_self]
  · rw [hspace (Model.find?_eq_some_iff.mpr hentry) hput, Option.map_some]
    exact if_congr Option.some_inj rfl rfl

/-- What holds of the emissions of every file holds of those of every namespace. -/
theorem Store.Collects.forall_spaces {c : Config} {es : List Emission} {files : Store}
    (h : files.Collects c es) (holds : List Emission → Prop) (hnone : holds []) :
    (∀ file ∈ files, holds (emissionsOf file.path.dotted es)) ↔
      ∀ space, holds (emissionsOf space es) := by
  refine ⟨fun hfiles space => ?_, fun hall file _ => hall _⟩
  by_cases hspace : space ∈ files.spaces
  · obtain ⟨file, hfile, rfl⟩ := List.mem_map.mp hspace
    exact hfiles file hfile
  · rw [h.spaces, List.mem_eraseDups] at hspace
    have hempty : emissionsOf space es = [] := List.filter_eq_nil_iff.mpr fun e he heq =>
      hspace (List.mem_map.mpr ⟨e, he, of_decide_eq_true heq⟩)
    rwa [hempty]

/-! ## Names in a place -/

instance (sort : ExportSort) : Decidable sort.IsType :=
  inferInstanceAs (Decidable (sort = .classType ∨ sort = .typeAlias))

/-- The names of the classes and the type aliases that a declaration exports. -/
def Declaration.typeNames (d : Declaration) : List String :=
  (d.exports.filter fun entry => entry.1.IsType).map (·.2)

/-- The nested namespace that a section is. -/
def Section.nest? : Section → Option String
  | .nested name => some name
  | _ => none

/-- The names of the classes and the type aliases that an emission puts at the top level
or into a nested namespace.  The placement of the definition is the last one.  The
ones before it hold the constants of enums that are written in place. -/
def Emission.typeNames (e : Emission) (nest? : Option String) : List String :=
  (e.placements.getLast?.filter fun p => p.target.nest? = nest?).toList.flatMap
    fun p => p.declarations.flatMap Declaration.typeNames

/-- The names of the classes and the type aliases of definitions in a file, at the top
level or in a nested namespace. -/
def Plan.typeNames (plan : Plan) (space : String) (nest? : Option String) : List String :=
  (Store.emissionsOf space plan.emissions).flatMap fun e => e.typeNames nest?

namespace Model

/-- The names of the classes and the type aliases of a definition. -/
def typeNames (m : Model) (name : String) (d : Definition) : List String :=
  if Step.isLocalized name then []
  else
    match d.kind with
    | some .entity =>
        [(m.inflection (m.nameParts name)).singular, (m.inflection (m.nameParts name)).plural]
    | some .aspect | some .type | some .event => [(m.inflection (m.nameParts name)).singular]
    | _ => []

/-- The definition stands in a file, at the top level or in a nested namespace. -/
def StandsAt (m : Model) (name space : String) (nest? : Option String) : Prop :=
  (m.nameParts name).path.dotted = space ∧
    (Section.ofScope (m.nameParts name).scope).nest? = nest?

instance (m : Model) (name space : String) (nest? : Option String) :
    Decidable (m.StandsAt name space nest?) :=
  inferInstanceAs (Decidable (_ ∧ _))

end Model

theorem Section.nest?_sectionFor {top : Section} (htop : top.nest? = none) (scope : List String) :
    (Step.sectionFor top scope).nest? = (Section.ofScope scope).nest? := by
  cases scope with
  | nil => exact htop
  | cons s rest => rfl

theorem Section.nest?_structureSection (kind : Kind) (scope : List String) :
    (Step.structureSection kind scope).nest? = (Section.ofScope scope).nest? := by
  rw [Step.structureSection]
  split
  · next h =>
    rw [h.2]
    rfl
  · rfl

theorem Emission.typeNames_of_last {e : Emission} {before : List Placement} {p : Placement}
    {nest? : Option String} (h : e.placements = before ++ [p]) :
    e.typeNames nest? =
      if p.target.nest? = nest? then p.declarations.flatMap Declaration.typeNames else [] := by
  rw [typeNames, h, List.getLast?_concat, Option.filter]
  simp only [decide_eq_true_eq]
  split
  · exact List.flatMap_singleton _ _
  · rfl

theorem Emission.typeNames_of_single {e : Emission} {p : Placement} {nest? : Option String}
    (h : e.placements = [p]) :
    e.typeNames nest? =
      if p.target.nest? = nest? then p.declarations.flatMap Declaration.typeNames else [] :=
  typeNames_of_last (h.trans (List.nil_append [p]).symm)

namespace Step

variable {m : Model} {name : String} {d : Definition} {s s' : Session} {e : Emission}

theorem classes_typeNames (kind : Kind) (names : Naming.Inflection) (drafts : Bool) :
    (classes name d kind names drafts).flatMap Declaration.typeNames =
      names.singular :: if kind = .entity then [names.plural] else [] := by
  rw [classes]
  split <;> rfl

/-- A definition puts its own names where it stands. -/
theorem emission_typeNames (hd : m.find? name = some d)
    (h : emission m name d s = (.ok (some e), s')) (nest? : Option String) :
    e.typeNames nest? =
      if (Section.ofScope (m.nameParts name).scope).nest? = nest? then m.typeNames name d
      else [] := by
  rcases emission_eq_ok h with ⟨-, hnone, -⟩ | ⟨kind, made?, hlocal, hkind, hmade, hmap⟩
  · cases hnone
  obtain ⟨made, rfl, rfl⟩ := Option.map_eq_some_iff.mp hmap.symm
  have hsame : ∀ imports, ({ made with imports } : Emission).typeNames nest? =
      made.typeNames nest? := fun _ => rfl
  have hnothing : ∀ {p : Prop} [Decidable p], (if p then ([] : List String) else []) = [] :=
    ite_self _
  rw [hsame, Model.typeNames, hlocal, if_neg Bool.false_ne_true, hkind]
  cases hmade with
  | structured hkinds he =>
    obtain ⟨_, _, -, _, -, a, enums, -, rfl⟩ := structured_eq_ok he
    rw [Emission.typeNames_of_last rfl, Section.nest?_structureSection, List.flatMap_cons,
      classes_typeNames]
    rcases hkinds with rfl | rfl | ⟨rfl, -⟩ <;> rfl
  | plainType _ he =>
    rw [Model.singular_of_uninflected hd (hkind ▸ rfl)]
    rcases plainType_eq_ok he with ⟨-, members, -, rfl⟩ | ⟨type, -, rfl⟩
    · rw [Emission.typeNames_of_single rfl, Section.nest?_sectionFor rfl]
      rfl
    · rw [Emission.typeNames_of_single rfl, Section.nest?_sectionFor rfl]
      rfl
  | @operation kind _ hkinds he =>
    obtain ⟨_, -, rfl⟩ := operation_eq_ok he
    rw [Emission.typeNames_of_single rfl]
    obtain rfl | rfl : kind = .action ∨ kind = .function := by
      simpa [Kind.isOperation] using hkinds
    all_goals exact hnothing.trans hnothing.symm
  | event he =>
    rw [Model.singular_of_uninflected hd (hkind ▸ rfl)]
    obtain ⟨_, -, rfl⟩ := event_eq_ok he
    rw [Emission.typeNames_of_single rfl]
    rfl
  | service =>
    rw [Emission.typeNames_of_single rfl]
    exact hnothing.trans hnothing.symm

end Step

/-! ## Names of a plan -/

namespace Model

variable {m : Model} {name name' space : String} {nest? : Option String} {d d' : Definition}

/-- A definition with names of its own is written to the file of its namespace. -/
theorem fileSpace?_of_typeNames (h : m.typeNames name d ≠ []) :
    m.fileSpace? name d = some (m.nameParts name).path := by
  rw [typeNames] at h
  rw [fileSpace?]
  split at h
  · exact absurd rfl h
  · next hlocal =>
    rw [if_neg hlocal]
    split at h
    all_goals first | exact absurd rfl h | (next hkind => simp [hkind])

/-- The names a definition puts into a file, at the top level or in a nested namespace. -/
def typeNamesAt (m : Model) (space : String) (nest? : Option String)
    (entry : String × Definition) : List String :=
  if m.StandsAt entry.1 space nest? then m.typeNames entry.1 entry.2 else []

theorem typeNamesAt_eq (m : Model) (space : String) (nest? : Option String) :
    m.typeNamesAt space nest? = m.inFile space fun name d =>
      if (Section.ofScope (m.nameParts name).scope).nest? = nest? then m.typeNames name d
      else [] := by
  funext entry
  exact ite_and ..

end Model

theorem Plan.typeNames_eq {m : Model} {plan : Plan} (hplan : Plan.ofModel m = .ok plan)
    (space : String) (nest? : Option String) :
    plan.typeNames space nest? = m.definitions.flatMap (m.typeNamesAt space nest?) := by
  rw [Model.typeNamesAt_eq]
  refine flatMap_emissionsOf hplan (fun _ hne => ?_) fun hd h => Step.emission_typeNames hd h nest?
  exact Model.fileSpace?_of_typeNames fun hnames => hne (by rw [hnames, ite_self])

/-! ## Definitions of one place -/

namespace Model

/-- No namespace is written as the empty text. -/
def SpacesNamed (m : Model) : Prop :=
  ∀ name ∈ Table.names m.definitions, (m.nameParts name).path ≠ ⟨[""]⟩

/-- Two definitions stand in one namespace and one scope. -/
def SamePlace (m : Model) (name name' : String) : Prop :=
  (m.nameParts name).path = (m.nameParts name').path ∧
    (m.nameParts name).scope = (m.nameParts name').scope

/-- A definition that gives the classes of an entity. -/
def GivesEntity (m : Model) (name : String) : Prop :=
  ∃ d, m.find? name = some d ∧ Step.isLocalized name = false ∧ d.kind = some .entity

/-- The names that are not checked are apart, in every place: the singulars of entities
from each other, and a plural that is not the name of its entity from all others. -/
structure NamesApart (m : Model) : Prop where
  singulars : ∀ name name', m.GivesEntity name → m.GivesEntity name' → name ≠ name' →
    m.SamePlace name name' →
      (m.inflection (m.nameParts name)).singular ≠ (m.inflection (m.nameParts name')).singular
  plurals : ∀ name name', m.GivesEntity name → m.GivesType name' → name ≠ name' →
    m.SamePlace name name' →
      (m.inflection (m.nameParts name)).plural ≠ (m.nameParts name).name →
        (m.inflection (m.nameParts name)).plural ≠ (m.inflection (m.nameParts name')).singular

variable {m : Model} {name name' space : String} {nest? : Option String} {d d' : Definition}

theorem GivesEntity.givesType (h : m.GivesEntity name) : m.GivesType name := by
  obtain ⟨d, hd, hlocal, hkind⟩ := h
  exact ⟨d, hd, hlocal, Or.inl hkind⟩

theorem SamePlace.symm (h : m.SamePlace name name') : m.SamePlace name' name :=
  ⟨h.1.symm, h.2.symm⟩

theorem dot_notMem_segment (hd : m.find? name = some d) {s : String}
    (hs : s ∈ (m.nameParts name).path.segments ++ (m.nameParts name).scope ++
      [(m.nameParts name).name]) : '.' ∉ s.toList := by
  rw [segments_of_defined hd] at hs
  exact Text.notMem_of_mem_splitOn hs

theorem nest?_ofScope_inj {scope scope' : List String} (h : ∀ s ∈ scope, '.' ∉ s.toList)
    (h' : ∀ s ∈ scope', '.' ∉ s.toList)
    (heq : (Section.ofScope scope).nest? = (Section.ofScope scope').nest?) : scope = scope' := by
  have hdot : "." = String.singleton '.' := rfl
  cases scope with
  | nil =>
    cases scope' with
    | nil => rfl
    | cons s' rest' => cases heq
  | cons s rest =>
    cases scope' with
    | nil => cases heq
    | cons s' rest' =>
      have hjoin : Text.join "." (s :: rest) = Text.join "." (s' :: rest') := Option.some.inj heq
      rw [hdot] at hjoin
      rw [← Text.splitOn_join (List.cons_ne_nil s rest) h, hjoin,
        Text.splitOn_join (List.cons_ne_nil s' rest') h']

/-- Definitions in one file, at the top level or in one nested namespace, stand in one
place. -/
theorem SamePlace.of_standsAt (hspaces : m.SpacesNamed) (hd : m.find? name = some d)
    (hd' : m.find? name' = some d') (h : m.StandsAt name space nest?)
    (h' : m.StandsAt name' space nest?) : m.SamePlace name name' := by
  have hblank : ∀ {name d}, m.find? name = some d → (m.nameParts name).path.segments ≠ [""] := by
    intro name d hd hsegments
    refine hspaces name (mem_names_of_find? hd) ?_
    cases hp : (m.nameParts name).path
    rw [hp] at hsegments
    exact congrArg _ hsegments
  have hpath : (m.nameParts name).path.segments = (m.nameParts name').path.segments :=
    Text.eq_of_join_eq '.' (fun s hs => dot_notMem_segment hd (by simp [hs]))
      (fun s hs => dot_notMem_segment hd' (by simp [hs])) (hblank hd) (hblank hd')
      (h.1.trans h'.1.symm)
  constructor
  · cases hp : (m.nameParts name).path
    cases hp' : (m.nameParts name').path
    rw [hp, hp'] at hpath
    exact congrArg _ hpath
  · exact nest?_ofScope_inj (fun s hs => dot_notMem_segment hd (by simp [hs]))
      (fun s hs => dot_notMem_segment hd' (by simp [hs])) (h.2.trans h'.2.symm)

/-- A name in the place of a definition is the full name of what it names there. -/
theorem SamePlace.nameIn_eq (h : m.SamePlace name name') (hd' : m.find? name' = some d') :
    Step.nameIn (m.nameParts name) (m.nameParts name').name = name' := by
  rw [Step.nameIn, h.1, h.2]
  exact definitionName_of_defined hd'

theorem SamePlace.name_ne (h : m.SamePlace name name') (hd : m.find? name = some d)
    (hd' : m.find? name' = some d') (hne : name ≠ name') :
    (m.nameParts name).name ≠ (m.nameParts name').name := by
  intro heq
  have hself : m.SamePlace name name := ⟨rfl, rfl⟩
  exact hne ((hself.nameIn_eq hd).symm.trans (heq ▸ h.nameIn_eq hd'))

/-- What is not an entity has its own name only. -/
theorem GivesType.singular_eq (h : m.GivesType name) (hother : ¬ m.GivesEntity name) :
    (m.inflection (m.nameParts name)).singular = (m.nameParts name).name := by
  obtain ⟨d, hd, hlocal, hkinds⟩ := h
  refine singular_of_uninflected hd ?_
  rcases hkinds with hkind | hkind | hkind | hkind
  · exact absurd ⟨d, hd, hlocal, hkind⟩ hother
  all_goals
    rw [hkind]
    rfl

theorem GivesEntity.singular_ne_plural (h : m.GivesEntity name) :
    (m.inflection (m.nameParts name)).singular ≠ (m.inflection (m.nameParts name)).plural := by
  obtain ⟨d, hd, -, hkind⟩ := h
  have hinflected : ¬ isUninflected d.kind = true := by
    rw [hkind]
    decide
  rw [inflection_of_defined hd, if_neg hinflected]
  exact Naming.derive_singular_ne_plural _ _ _

theorem mem_typeNames (hd : m.find? name = some d) {written : String}
    (h : written ∈ m.typeNames name d) :
    m.GivesType name ∧ written = (m.inflection (m.nameParts name)).singular ∨
      m.GivesEntity name ∧ written = (m.inflection (m.nameParts name)).plural := by
  rw [typeNames] at h
  split at h
  · cases h
  · next hlocal =>
    rw [Bool.not_eq_true] at hlocal
    split at h
    case h_1 hkind =>
      rcases List.mem_cons.mp h with rfl | h
      · exact Or.inl ⟨⟨d, hd, hlocal, Or.inl hkind⟩, rfl⟩
      · exact Or.inr ⟨⟨d, hd, hlocal, hkind⟩, List.mem_singleton.mp h⟩
    case h_2 hkind | h_3 hkind | h_4 hkind =>
      exact Or.inl ⟨⟨d, hd, hlocal, by simp [hkind]⟩, List.mem_singleton.mp h⟩
    case h_5 => cases h

theorem GivesType.mem_typeNames (h : m.GivesType name) (hd : m.find? name = some d) :
    (m.inflection (m.nameParts name)).singular ∈ m.typeNames name d := by
  obtain ⟨d', hd', hlocal, hkinds⟩ := h
  obtain rfl := eq_of_find? hd hd'
  rw [typeNames, hlocal, if_neg Bool.false_ne_true]
  rcases hkinds with hkind | hkind | hkind | hkind <;> simp [hkind]

theorem GivesEntity.typeNames_eq (h : m.GivesEntity name) (hd : m.find? name = some d) :
    m.typeNames name d = [(m.inflection (m.nameParts name)).singular,
      (m.inflection (m.nameParts name)).plural] := by
  obtain ⟨d', hd', hlocal, hkind⟩ := h
  obtain rfl := eq_of_find? hd hd'
  rw [typeNames, hlocal, if_neg Bool.false_ne_true, hkind]

theorem typeNames_nodup (hd : m.find? name = some d) : (m.typeNames name d).Nodup := by
  rw [typeNames]
  split
  · exact List.nodup_nil
  · next hlocal =>
    rw [Bool.not_eq_true] at hlocal
    split
    case h_1 hkind =>
      have hne := GivesEntity.singular_ne_plural ⟨d, hd, hlocal, hkind⟩
      simpa using hne
    case h_2 | h_3 | h_4 => exact List.nodup_singleton _
    case h_5 => exact List.nodup_nil

end Model

/-! ## Names that are apart -/

namespace Plan

open Model

variable {m : Model} {plan : Plan} {name name' : String} {d d' : Definition}
variable (hplan : Plan.ofModel m = .ok plan)
  (hnone : Diagnostic.anyError plan.diagnostics = false)
include hplan hnone

/-- The singular of an entity names no other definition of its place. -/
theorem singular_ne_name (h : m.GivesEntity name) (hd' : m.find? name' = some d')
    (hne : name ≠ name') (hplace : m.SamePlace name name') :
    (m.inflection (m.nameParts name)).singular ≠ (m.nameParts name').name := by
  obtain ⟨s, hchecked⟩ := checks hplan hnone
  obtain ⟨d, hd, hlocal, hkind⟩ := h
  intro heq
  have hsingular := (hchecked name d hd hlocal hkind).singular
  rw [heq, hplace.nameIn_eq hd'] at hsingular
  exact hne (hsingular (defines_of_find? hd')).symm

/-- The plurals of the entities of a place are distinct. -/
theorem plural_ne_plural (h : m.GivesEntity name) (h' : m.GivesEntity name') (hne : name ≠ name')
    (hplace : m.SamePlace name name') :
    (m.inflection (m.nameParts name)).plural ≠ (m.inflection (m.nameParts name')).plural := by
  obtain ⟨s, hchecked⟩ := checks hplan hnone
  obtain ⟨d, hd, hlocal, hkind⟩ := h
  obtain ⟨d', hd', hlocal', hkind'⟩ := h'
  intro heq
  have hplural := (hchecked name d hd hlocal hkind).plural
  rw [hplace.1, hplace.2, heq, (hchecked name' d' hd' hlocal' hkind').plural] at hplural
  exact hne (Option.some.inj hplural).symm

variable (hapart : m.NamesApart)
include hapart

theorem singular_ne_singular (h : m.GivesType name) (h' : m.GivesType name') (hne : name ≠ name')
    (hplace : m.SamePlace name name') :
    (m.inflection (m.nameParts name)).singular ≠ (m.inflection (m.nameParts name')).singular := by
  obtain ⟨d, hd, -⟩ := id h
  obtain ⟨d', hd', -⟩ := id h'
  by_cases hentity : m.GivesEntity name
  · by_cases hentity' : m.GivesEntity name'
    · exact hapart.singulars name name' hentity hentity' hne hplace
    · rw [h'.singular_eq hentity']
      exact singular_ne_name hplan hnone hentity hd' hne hplace
  · rw [h.singular_eq hentity]
    by_cases hentity' : m.GivesEntity name'
    · exact (singular_ne_name hplan hnone hentity' hd hne.symm hplace.symm).symm
    · rw [h'.singular_eq hentity']
      exact hplace.name_ne hd hd' hne

theorem plural_ne_singular (h : m.GivesEntity name) (h' : m.GivesType name') (hne : name ≠ name')
    (hplace : m.SamePlace name name') :
    (m.inflection (m.nameParts name)).plural ≠ (m.inflection (m.nameParts name')).singular := by
  obtain ⟨d, hd, -⟩ := id h
  obtain ⟨d', hd', -⟩ := id h'
  by_cases hplural : (m.inflection (m.nameParts name)).plural = (m.nameParts name).name
  · -- The plural is the name of the entity, which is checked against.
    rw [hplural]
    by_cases hentity' : m.GivesEntity name'
    · exact (singular_ne_name hplan hnone hentity' hd hne.symm hplace.symm).symm
    · rw [h'.singular_eq hentity']
      exact hplace.name_ne hd hd' hne
  · exact hapart.plurals name name' h h' hne hplace hplural

/-- Definitions of one place have no name in common. -/
theorem typeNames_disjoint (hd : m.find? name = some d) (hd' : m.find? name' = some d')
    (hne : name ≠ name') (hplace : m.SamePlace name name') :
    List.Disjoint (m.typeNames name d) (m.typeNames name' d') := by
  intro written h h'
  rcases mem_typeNames hd h with ⟨hgives, rfl⟩ | ⟨hgives, rfl⟩
  · rcases mem_typeNames hd' h' with ⟨hgives', heq⟩ | ⟨hgives', heq⟩
    · exact singular_ne_singular hplan hnone hapart hgives hgives' hne hplace heq
    · exact plural_ne_singular hplan hnone hapart hgives' hgives hne.symm hplace.symm heq.symm
  · rcases mem_typeNames hd' h' with ⟨hgives', heq⟩ | ⟨hgives', heq⟩
    · exact plural_ne_singular hplan hnone hapart hgives hgives' hne hplace heq
    · exact plural_ne_plural hplan hnone hgives hgives' hne hplace heq

omit hapart in
/-- In a plan without errors the names of each place are distinct exactly if the names
that are not checked are apart. -/
theorem typeNames_nodup_iff (hspaces : m.SpacesNamed) :
    (∀ space nest?, (plan.typeNames space nest?).Nodup) ↔ m.NamesApart := by
  constructor
  · intro h
    have hdisjoint : ∀ {name name' d d'}, m.find? name = some d → m.find? name' = some d' →
        name ≠ name' → m.SamePlace name name' →
          List.Disjoint (m.typeNames name d) (m.typeNames name' d') := by
      intro name name' d d' hd hd' hne hplace
      have hnodup := h (m.nameParts name).path.dotted
        (Section.ofScope (m.nameParts name).scope).nest?
      rw [typeNames_eq hplan, nodup_definitions_flatMap] at hnodup
      have hpair := hnodup.2 hd hd' hne
      have hstands : m.StandsAt name' (m.nameParts name).path.dotted
          (Section.ofScope (m.nameParts name).scope).nest? :=
        ⟨by rw [hplace.1], by rw [hplace.2]⟩
      rwa [typeNamesAt, typeNamesAt, if_pos ⟨rfl, rfl⟩, if_pos hstands] at hpair
    constructor
    · intro name name' hentity hentity' hne hplace heq
      obtain ⟨d, hd, -⟩ := id hentity
      obtain ⟨d', hd', -⟩ := id hentity'
      exact hdisjoint hd hd' hne hplace (hentity.givesType.mem_typeNames hd)
        (heq ▸ hentity'.givesType.mem_typeNames hd')
    · intro name name' hentity hgives' hne hplace _ heq
      obtain ⟨d, hd, -⟩ := id hentity
      obtain ⟨d', hd', -⟩ := id hgives'
      refine hdisjoint hd hd' hne hplace ?_ (hgives'.mem_typeNames hd')
      rw [hentity.typeNames_eq hd, ← heq]
      simp
  · intro hapart space nest?
    rw [typeNames_eq hplan, nodup_definitions_flatMap]
    constructor
    · intro name d hd
      rw [typeNamesAt]
      split
      · exact typeNames_nodup hd
      · exact List.nodup_nil
    · intro name d name' d' hd hd' hne
      rw [typeNamesAt, typeNamesAt]
      by_cases hstands : m.StandsAt name space nest?
      · by_cases hstands' : m.StandsAt name' space nest?
        · rw [if_pos hstands, if_pos hstands']
          exact typeNames_disjoint hplan hnone hapart hd hd' hne
            (.of_standsAt hspaces hd hd' hstands hstands')
        · rw [if_neg hstands']
          exact List.disjoint_nil_right _
      · rw [if_neg hstands]
        exact List.disjoint_nil_left _

end Plan

/-! ## Files -/

/-- Where no error is found, the classes and the type aliases of definitions have
distinct names in every place of every file, exactly if the names that are not checked
are apart.  The code of each declaration exports its names in turn. -/
theorem compile_typeNames {m : Model} {c : Config} {o : Output} (h : compile m c = .ok o)
    (hnone : Diagnostic.anyError o.diagnostics = false) (hspaces : m.SpacesNamed) :
    ∃ (plan : Plan) (files sources : Store), Plan.ofModel m = .ok plan ∧
      files.Collects c plan.emissions ∧ List.Forall₂ SourceFile.Closes files sources ∧
      o.files = baseFile :: plan.libraries.map Library.file ++ sources.map (SourceFile.file c) ∧
      (∀ e ∈ plan.emissions, ∀ p ∈ e.placements, ∀ d ∈ p.declarations,
        ExportsInTurn (d.code c) d.exports) ∧
      ((∀ file ∈ files, ∀ nest?, (plan.typeNames file.path.dotted nest?).Nodup) ↔
        m.NamesApart) := by
  obtain ⟨plan, hplan, hrender⟩ := compile_eq_ok h
  obtain ⟨sources, hsources, hfiles⟩ := Plan.render_eq_ok hrender
  obtain ⟨files, hcollects, hcloses⟩ := Plan.sources_collect hsources
  rw [Plan.render_diagnostics hrender] at hnone
  have hall := hcollects.forall_spaces
    (fun es => ∀ nest?, (es.flatMap fun e => e.typeNames nest?).Nodup) fun _ => List.nodup_nil
  exact ⟨plan, files, sources, hplan, hcollects, hcloses, hfiles,
    fun _ _ _ _ d _ => d.code_exports c,
    hall.trans (Plan.typeNames_nodup_iff hplan hnone hspaces)⟩

/-- Books with translated texts, an entity whose plural is given, and one whose plural
would be its singular. -/
def bookFair : Model where
  definitions :=
    [("shop.Managed", {
        kind := some .aspect
        elements := some [("createdAt", { type := some (.name "cds.Timestamp") })] }),
     ("shop.Books", {
        kind := some .entity
        includes := some ["shop.Managed"]
        elements := some [("genre", { type := some (.name "shop.Genre") })] }),
     ("shop.Books.texts", {
        kind := some .entity
        elements := some [("locale", { type := some (.name "cds.String"), key := true })] }),
     ("shop.Authors", {
        kind := some .entity
        elements := some [("name", { type := some (.name "cds.String") })]
        annotations := [(Definition.pluralNote, .string "Writers")] }),
     ("shop.Sheep", { kind := some .entity }),
     ("shop.Genre", {
        kind := some .type
        type := some (.name "cds.String")
        values := some [("crime", ⟨none, none⟩)] }),
     ("shop.Ordered", {
        kind := some .event
        elements := some [("amount", { type := some (.name "cds.Integer") })] })]

theorem bookFair_namesApart : bookFair.NamesApart := by
  have hall : ∀ name ∈ Table.names bookFair.definitions,
      ∀ name' ∈ Table.names bookFair.definitions, name ≠ name' →
        (bookFair.inflection (bookFair.nameParts name)).singular ≠
            (bookFair.inflection (bookFair.nameParts name')).singular ∧
          (bookFair.inflection (bookFair.nameParts name)).plural ≠
            (bookFair.inflection (bookFair.nameParts name')).singular := by
    decide +kernel
  constructor
  · intro name name' h h' hne _
    exact (hall name h.givesType.mem_names name' h'.givesType.mem_names hne).1
  · intro name name' h h' hne _ _
    exact (hall name h.givesType.mem_names name' h'.mem_names hne).2

theorem compile_typeNames_bookFair :
    bookFair.SpacesNamed ∧ ∃ (o : Output) (plan : Plan) (files : Store),
      compile bookFair {} = .ok o ∧ Diagnostic.anyError o.diagnostics = false ∧
      Plan.ofModel bookFair = .ok plan ∧ files.Collects {} plan.emissions ∧
      plan.typeNames "shop" none =
        ["Managed", "Book", "Books", "Author", "Writers", "Sheep", "Sheep_", "Genre", "Ordered"] ∧
      ∀ file ∈ files, ∀ nest?, (plan.typeNames file.path.dotted nest?).Nodup := by
  have hspaces : bookFair.SpacesNamed := by
    have hall : ∀ name ∈ Table.names bookFair.definitions,
        (bookFair.nameParts name).path ≠ ⟨[""]⟩ := by decide +kernel
    exact hall
  have hresult : (Plan.ofModel bookFair).toOption.map (fun plan =>
      (plan.typeNames "shop" none, Diagnostic.anyError plan.diagnostics)) =
      some (["Managed", "Book", "Books", "Author", "Writers", "Sheep", "Sheep_", "Genre",
        "Ordered"], false) := by
    decide +kernel
  obtain ⟨plan, hplan⟩ := Except.exists_eq_ok (x := Plan.ofModel bookFair) (by decide +kernel)
  rw [hplan] at hresult
  obtain ⟨hnames, hnone⟩ := Prod.mk.inj (Option.some.inj hresult)
  obtain ⟨o, ho, hrender⟩ := compile_written {} hplan
  rw [← Plan.render_diagnostics hrender] at hnone
  obtain ⟨plan', files, sources, hplan', hcollects, -, -, -, hdistinct⟩ :=
    compile_typeNames ho hnone hspaces
  obtain rfl : plan = plan' := Except.ok.inj (hplan.symm.trans hplan')
  exact ⟨hspaces, o, plan, files, ho, hnone, hplan, hcollects, hnames,
    hdistinct.mpr bookFair_namesApart⟩

/-- Two entities with one singular. -/
def cities : Model where
  definitions :=
    [("shop.Cities", {
        kind := some .entity
        elements := some [("ID", { type := some (.name "cds.UUID"), key := true })] }),
     ("shop.Citys", {
        kind := some .entity
        elements := some [("ID", { type := some (.name "cds.UUID"), key := true })] })]

/-- The classes of one city have one name, and nothing is found about it. -/
theorem cities_clash :
    ∃ (o : Output) (plan : Plan) (file source : SourceFile), compile cities {} = .ok o ∧
      o.diagnostics = [] ∧ Plan.ofModel cities = .ok plan ∧
      Store.Collects {} plan.emissions [file] ∧ file.Closes source ∧
      o.files = [baseFile, source.file {}] ∧
      plan.typeNames file.path.dotted none = ["City", "Cities", "City", "Citys"] ∧
      ¬ (plan.typeNames file.path.dotted none).Nodup := by
  have hresult : (Plan.ofModel cities).toOption.map (fun plan =>
      (plan.fileSpaces, plan.typeNames "shop" none, plan.libraries, plan.diagnostics)) =
      some (["shop"], ["City", "Cities", "City", "Citys"], [], []) := by
    decide +kernel
  obtain ⟨plan, hplan⟩ := Except.exists_eq_ok (x := Plan.ofModel cities) (by decide +kernel)
  rw [hplan] at hresult
  simp only [Except.toOption, Option.map_some, Option.some.injEq, Prod.mk.injEq] at hresult
  obtain ⟨hfileSpaces, hnames, hlibraries, hdiagnostics⟩ := hresult
  obtain ⟨o, file, source, ho, hoDiagnostics, hcollects, hclosed, hdotted, hfiles⟩ :=
    compile_oneFile {} hplan hfileSpaces hlibraries
  rw [← hdotted] at hnames
  refine ⟨o, plan, file, source, ho, hoDiagnostics.trans hdiagnostics, hplan, hcollects, hclosed,
    hfiles, hnames, ?_⟩
  rw [hnames]
  decide

end SchemaTypes
