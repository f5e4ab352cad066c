import SchemaTypes.Proofs.Code.Constants
import SchemaTypes.Proofs.Stub.Parents

/-!
# Constants of the type layer and exports of the stub

The type layer declares a constant for every enum and for every operation that stands on
its own, at the top level or in the nested namespaces of a scope.  Which ones a file declares
is read off the code that is written to it (`Plan.writtenEnums`, `Plan.writtenOperations`).
The runtime stub has to export them at the same place.

It does so for enums (`Step.emission_enumConstants`).  But an operation is declared in its
scope and exported at the top level, whatever the scope.  So the two agree on the operations
of a file exactly if none of them stands in another definition
(`compile_constants`).  An order of books shows what happens else (`order_misplaced`).
-/

namespace SchemaTypes

/-! ## Constants -/

namespace Placement

/-- The constants of enums, each with its scope and its name. -/
def enumConstants (p : Placement) : List (List String × Table String) :=
  (p.declarations.filterMap Declaration.enumConstant?).map fun entry =>
    (p.target.scope ++ [entry.1], entry.2)

/-- The constants of operations, each with its scope and its name. -/
def operationConstants (p : Placement) : List (List String) :=
  (p.declarations.filterMap Declaration.operationConstant?).map fun name =>
    p.target.scope ++ [name]

/-- The constants of enums in the code, each with its scope and its name, and the fields of its
object. -/
def writtenEnums (c : Config) (p : Placement) : List (List String × List String) :=
  ((p.code c).filterMap Code.enumConstant?).map fun entry =>
    (p.target.scope ++ [entry.1], entry.2)

/-- The constants of operations in the code, each with its scope and its name. -/
def writtenOperations (c : Config) (p : Placement) : List (List String) :=
  ((p.code c).filterMap Code.operationConstant?).map fun name => p.target.scope ++ [name]

end Placement

namespace Emission

/-- The constants of enums that an emission declares. -/
def enumConstants (e : Emission) : List (List String × Table String) :=
  e.placements.flatMap Placement.enumConstants

/-- The constants of operations that an emission declares. -/
def operationConstants (e : Emission) : List (List String) :=
  e.placements.flatMap Placement.operationConstants

end Emission

namespace Plan

/-- The constants of enums that the type layer of a namespace declares. -/
def enumConstants (plan : Plan) (space : String) : List (List String × Table String) :=
  (Store.emissionsOf space plan.emissions).flatMap Emission.enumConstants

/-- The constants of operations that the type layer of a namespace declares. -/
def operationConstants (plan : Plan) (space : String) : List (List String) :=
  (Store.emissionsOf space plan.emissions).flatMap Emission.operationConstants

/-- What the definitions of a namespace place into its file. -/
def placements (plan : Plan) (space : String) : List Placement :=
  (Store.emissionsOf space plan.emissions).flatMap (·.placements)

/-- The constants of enums in the code that is written to the file of a namespace. -/
def writtenEnums (plan : Plan) (c : Config) (space : String) :
    List (List String × List String) :=
  (plan.placements space).flatMap (Placement.writtenEnums c)

/-- The constants of operations in the code that is written to the file of a namespace. -/
def writtenOperations (plan : Plan) (c : Config) (space : String) : List (List String) :=
  (plan.placements space).flatMap (Placement.writtenOperations c)

end Plan

/-- The path under which the runtime exports an enum, with the literals by key. -/
def EnumStub.constant (stub : EnumStub) : List String × Table String :=
  (stub.target, stub.entries)

/-! ## What is written -/

section Written

variable (c : Config)

theorem Placement.writtenEnums_eq (p : Placement) :
    p.writtenEnums c = p.enumConstants.map fun entry => (entry.1, entry.2.map enumField) := by
  have hread : ∀ d ∈ p.declarations, (d.code c).filterMap Code.enumConstant? =
      (d.enumConstant?.toList).map fun entry => (entry.1, entry.2.map enumField) :=
    fun d _ => d.code_enumConstants c
  rw [writtenEnums, code, List.filterMap_flatMap, List.flatMap_congr hread, ← List.map_flatMap,
    ← List.filterMap_eq_flatMap_toList, enumConstants, List.map_map, List.map_map]
  rfl

theorem Placement.writtenOperations_eq (p : Placement) :
    p.writtenOperations c = p.operationConstants := by
  have hread : ∀ d ∈ p.declarations, (d.code c).filterMap Code.operationConstant? =
      d.operationConstant?.toList := fun d _ => d.code_operationConstants c
  rw [writtenOperations, code, List.filterMap_flatMap, List.flatMap_congr hread,
    ← List.filterMap_eq_flatMap_toList, operationConstants]

/-- The enums that are declared are written, each with a field for every key. -/
theorem Plan.writtenEnums_eq (plan : Plan) (space : String) :
    plan.writtenEnums c space =
      (plan.enumConstants space).map fun entry => (entry.1, entry.2.map enumField) := by
  rw [writtenEnums, placements, enumConstants, List.flatMap_assoc, List.map_flatMap]
  refine List.flatMap_congr fun e _ => ?_
  rw [Emission.enumConstants, List.map_flatMap]
  exact List.flatMap_congr fun p _ => p.writtenEnums_eq c

theorem Plan.writtenEnums_paths (plan : Plan) (space : String) :
    (plan.writtenEnums c space).map Prod.fst = (plan.enumConstants space).map Prod.fst := by
  rw [writtenEnums_eq, List.map_map]
  rfl

/-- The operations that are declared are written. -/
theorem Plan.writtenOperations_eq (plan : Plan) (space : String) :
    plan.writtenOperations c space = plan.operationConstants space := by
  rw [writtenOperations, placements, operationConstants, List.flatMap_assoc]
  refine List.flatMap_congr fun e _ => ?_
  rw [Emission.operationConstants]
  exact List.flatMap_congr fun p _ => p.writtenOperations_eq c

end Written

/-! ## One definition -/

theorem Section.scope_sectionFor {top : Section} (htop : top.scope = []) {scope : List String}
    (h : ∀ s ∈ scope, '.' ∉ s.toList) : (Step.sectionFor top scope).scope = scope := by
  rw [Step.sectionFor]
  split
  · next hempty => rw [htop, List.isEmpty_iff.mp hempty]
  · exact scope_ofScope h

theorem Model.dot_notMem_scope {m : Model} {name : String} {d : Definition}
    (hd : m.find? name = some d) : ∀ s ∈ (m.nameParts name).scope ++ [(m.nameParts name).name],
      '.' ∉ s.toList := by
  intro s hs
  refine Text.notMem_of_mem_splitOn (s := name) ?_
  rw [← segments_of_defined hd, List.append_assoc]
  exact List.mem_append_right _ hs

namespace Step

variable {m : Model} {name : String} {d : Definition} {kind : Kind} {s s' : Session} {e : Emission}

/-- The constant of an enum that is written in place is declared and exported at the top
level. -/
theorem placement_enumConstants {enum : InlineEnum} (h : '.' ∉ enum.constant.toList) :
    (InlineEnum.placement enum).enumConstants = [(InlineEnum.stub enum).constant] := by
  rw [EnumStub.constant, target_stub h]
  rfl

theorem structured_enumConstants (h : structured m name d kind s = (.ok e, s')) :
    e.enumConstants = e.enumStubs.map EnumStub.constant := by
  obtain ⟨_, _, -, _, -, a, enums, haspect, rfl⟩ := structured_eq_ok h
  obtain ⟨_, _, -, body, _, hbody, _, -, rfl, -⟩ := aspect_eq_ok haspect
  have hclasses : ∀ target drafts, (⟨target, .aspect a :: classes name d kind
      (m.inflection (m.nameParts name)) drafts⟩ : Placement).enumConstants = [] := by
    intro target drafts
    rw [classes]
    split <;> rfl
  have hinline : ∀ enum ∈ body.enums,
      (InlineEnum.placement enum).enumConstants = [(InlineEnum.stub enum).constant] := by
    intro enum henum
    refine placement_enumConstants ?_
    rw [bodyOf_constants hbody enum henum]
    exact Naming.dot_notMem_sanitize _
  rw [Emission.enumConstants, List.flatMap_append, List.flatMap_singleton, hclasses,
    List.append_nil, List.flatMap_map, List.map_map]
  generalize body.enums = inline at hinline
  induction inline with
  | nil => rfl
  | cons enum rest ih =>
    rw [List.flatMap_cons, hinline enum List.mem_cons_self,
      ih fun x hx => hinline x (List.mem_cons_of_mem _ hx)]
    rfl

theorem structured_operationConstants (h : structured m name d kind s = (.ok e, s')) :
    e.operationConstants = [] := by
  obtain ⟨_, _, -, _, -, a, enums, -, rfl⟩ := structured_eq_ok h
  have hclasses : ∀ target drafts, (⟨target, .aspect a :: classes name d kind
      (m.inflection (m.nameParts name)) drafts⟩ : Placement).operationConstants = [] := by
    intro target drafts
    rw [classes]
    split <;> rfl
  rw [Emission.operationConstants, List.flatMap_append, List.flatMap_singleton, hclasses,
    List.append_nil, List.flatMap_eq_nil_iff]
  intro p hp
  obtain ⟨enum, -, rfl⟩ := List.mem_map.mp hp
  rfl

/-- The runtime exports every enum that is declared where it is declared. -/
theorem emission_enumConstants (hd : m.find? name = some d)
    (h : emission m name d s = (.ok (some e), s')) :
    e.enumConstants = e.enumStubs.map EnumStub.constant := by
  rcases emission_eq_ok h with ⟨-, hnone, -⟩ | ⟨kind, made?, -, -, hmade, hmap⟩
  · cases hnone
  obtain ⟨made, rfl, rfl⟩ := Option.map_eq_some_iff.mp hmap.symm
  have hsame : ∀ imports, ({ made with imports } : Emission).enumConstants = made.enumConstants :=
    fun _ => rfl
  rw [hsame]
  cases hmade with
  | structured _ he => exact structured_enumConstants he
  | plainType _ he =>
    rcases plainType_eq_ok he with ⟨-, members, -, rfl⟩ | ⟨type, -, rfl⟩
    · have hdots := Model.dot_notMem_scope hd
      have hscope : (sectionFor .enums (m.nameParts name).scope).scope =
          (m.nameParts name).scope :=
        Section.scope_sectionFor rfl fun s hs => hdots s (List.mem_append_left _ hs)
      have htarget : Text.splitOn '.' (Text.join "." ((m.nameParts name).scope ++
          [(m.nameParts name).name])) = (m.nameParts name).scope ++ [(m.nameParts name).name] :=
        @Text.splitOn_join '.' _ (by simp) hdots
      simp [Emission.enumConstants, Placement.enumConstants, Declaration.enumConstant?, hscope,
        EnumStub.constant, EnumStub.target, htarget]
    · rfl
  | operation _ he =>
    obtain ⟨_, -, rfl⟩ := operation_eq_ok he
    rfl
  | event he =>
    obtain ⟨_, -, rfl⟩ := event_eq_ok he
    rfl
  | service => rfl

/-- An operation is declared in its scope and exported at the top level. -/
theorem emission_operationConstants (hd : m.find? name = some d)
    (h : emission m name d s = (.ok (some e), s')) :
    if d.kind.any Kind.isOperation then
      e.operationNames = [(Naming.sanitize (m.nameParts name).name, (m.nameParts name).name)] ∧
      e.operationConstants =
        [(m.nameParts name).scope ++ [Naming.sanitize (m.nameParts name).name]]
    else e.operationNames = [] ∧ e.operationConstants = [] := by
  rcases emission_eq_ok h with ⟨-, hnone, -⟩ | ⟨kind, made?, -, hkind, hmade, hmap⟩
  · cases hnone
  obtain ⟨made, rfl, rfl⟩ := Option.map_eq_some_iff.mp hmap.symm
  have hsame : ∀ imports,
      ({ made with imports } : Emission).operationConstants = made.operationConstants :=
    fun _ => rfl
  rw [hsame, hkind, Option.any_some]
  cases hmade with
  | structured hkinds he =>
    have hnone := structured_operationConstants he
    obtain ⟨_, _, -, _, -, a, enums, -, rfl⟩ := structured_eq_ok he
    rcases hkinds with rfl | rfl | ⟨rfl, -⟩ <;> exact ⟨rfl, hnone⟩
  | plainType _ he =>
    rcases plainType_eq_ok he with ⟨-, members, -, rfl⟩ | ⟨type, -, rfl⟩ <;> exact ⟨rfl, rfl⟩
  | operation hkinds he =>
    obtain ⟨_, -, rfl⟩ := operation_eq_ok he
    have hscope : (sectionFor .operations (m.nameParts name).scope).scope =
        (m.nameParts name).scope :=
      Section.scope_sectionFor rfl fun s hs =>
        Model.dot_notMem_scope hd s (List.mem_append_left _ hs)
    rw [if_pos hkinds]
    refine ⟨rfl, ?_⟩
    simp [Emission.operationConstants, Placement.operationConstants,
      Declaration.operationConstant?, hscope]
  | event he =>
    obtain ⟨_, -, rfl⟩ := event_eq_ok he
    exact ⟨rfl, rfl⟩
  | service => exact ⟨rfl, rfl⟩

end Step

/-! ## One namespace -/

/-- No operation of a namespace stands in another definition. -/
def Model.OperationsAtTop (m : Model) (space : String) : Prop :=
  ∀ name d, m.find? name = some d → Step.isLocalized name = false →
    d.kind.any Kind.isOperation = true → (m.nameParts name).path.dotted = space →
      (m.nameParts name).scope = []

theorem Model.fileSpace?_operation {m : Model} {name : String} {d : Definition}
    (hlocal : Step.isLocalized name = false) (hkind : d.kind.any Kind.isOperation = true) :
    m.fileSpace? name d = some (m.nameParts name).path := by
  rw [fileSpace?, hlocal, if_neg Bool.false_ne_true]
  rcases hsome : d.kind with _ | kind
  · rw [hsome] at hkind
    cases hkind
  · rw [hsome, Option.any_some, Kind.isOperation, Bool.or_eq_true, beq_iff_eq, beq_iff_eq] at hkind
    rcases hkind with rfl | rfl <;> rfl

namespace Plan

variable {m : Model} {plan : Plan} {space : String}

/-- An emission of a namespace is that of a definition that is written there. -/
theorem emission_of_mem_space (hplan : Plan.ofModel m = .ok plan) {e : Emission}
    (he : e ∈ Store.emissionsOf space plan.emissions) :
    ∃ name d t t', m.find? name = some d ∧ Step.emission m name d t = (.ok (some e), t') ∧
      (m.fileSpace? name d).map Path.dotted = some space := by
  obtain ⟨_, _, -, hrun, -⟩ := ofModel_eq_ok hplan
  obtain ⟨he, hspace⟩ := List.mem_filter.mp he
  obtain ⟨name, d, t, t', hmem, hemission⟩ := Step.emission_of_mem_emissions hrun he
  refine ⟨name, d, t, t', Model.find?_eq_some_iff.mpr hmem, hemission, ?_⟩
  rw [← Step.emission_path hemission]
  exact congrArg some (of_decide_eq_true hspace)

/-- A definition that is written to a namespace has an emission there. -/
theorem exists_emission_of_space (hplan : Plan.ofModel m = .ok plan) {name : String}
    {d : Definition} (hd : m.find? name = some d)
    (hspace : (m.fileSpace? name d).map Path.dotted = some space) :
    ∃ e ∈ Store.emissionsOf space plan.emissions, ∃ t t',
      Step.emission m name d t = (.ok (some e), t') := by
  obtain ⟨_, _, -, hrun, -⟩ := ofModel_eq_ok hplan
  obtain ⟨e?, t, t', hemission, hmem⟩ :=
    Step.emission_of_mem hrun (Model.find?_eq_some_iff.mp hd)
  rw [← Step.emission_path hemission] at hspace
  cases e? with
  | none => cases hspace
  | some e =>
    exact ⟨e, List.mem_filter.mpr ⟨hmem e rfl, decide_eq_true (Option.some.inj hspace)⟩, t, t',
      hemission⟩

/-- The enums of a namespace are exported where they are declared. -/
theorem enumConstants_eq (hplan : Plan.ofModel m = .ok plan) (space : String) :
    plan.enumConstants space =
      ((Store.emissionsOf space plan.emissions).flatMap (·.enumStubs)).map EnumStub.constant := by
  rw [enumConstants, List.map_flatMap]
  refine List.flatMap_congr fun e he => ?_
  obtain ⟨name, d, t, t', hd, hemission, -⟩ := emission_of_mem_space hplan he
  exact Step.emission_enumConstants hd hemission

/-- The operations of a namespace are exported where they are declared, exactly if all of
them stand at the top level. -/
theorem mem_operationConstants_iff (hplan : Plan.ofModel m = .ok plan) (space : String) :
    (∀ path, path ∈ ((Store.emissionsOf space plan.emissions).flatMap (·.operationNames)).map
        (fun entry => [entry.1]) ↔ path ∈ plan.operationConstants space) ↔
      m.OperationsAtTop space := by
  constructor
  · intro hall name d hd hlocal hkind hspace
    have hfile : (m.fileSpace? name d).map Path.dotted = some space := by
      rw [Model.fileSpace?_operation hlocal hkind, Option.map_some, hspace]
    obtain ⟨e, he, t, t', hemission⟩ := exists_emission_of_space hplan hd hfile
    have hconstants := Step.emission_operationConstants hd hemission
    rw [if_pos hkind] at hconstants
    -- It is declared in its scope, and every path that is exported has one name.
    obtain ⟨entry, -, hexported⟩ := List.mem_map.mp ((hall _).mpr
      (List.mem_flatMap.mpr ⟨e, he, hconstants.2 ▸ List.mem_cons_self⟩))
    have hlength := congrArg List.length hexported
    rw [List.length_append, List.length_singleton, List.length_singleton] at hlength
    exact List.length_eq_zero_iff.mp (by omega)
  · intro htop path
    rw [operationConstants, List.map_flatMap]
    refine iff_of_eq (congrArg (path ∈ ·) (List.flatMap_congr fun e he => ?_))
    obtain ⟨name, d, t, t', hd, hemission, hspace⟩ := emission_of_mem_space hplan he
    have hlocal := (Step.emission_exports hd hemission).1
    have hconstants := Step.emission_operationConstants hd hemission
    split at hconstants
    · next hkind =>
      rw [Model.fileSpace?_operation hlocal hkind] at hspace
      have hscope := htop name d hd hlocal hkind (Option.some.inj hspace)
      simp only [hconstants.1, hconstants.2, hscope, List.map_cons, List.map_nil, List.nil_append]
    · simp only [hconstants.1, hconstants.2, List.map_nil]

/-- The records of a finished file are those of the emissions of its namespace. -/
theorem sources_records {c : Config} {files sources : Store}
    (hfiles : files.Collects c plan.emissions)
    (hcloses : List.Forall₂ SourceFile.Closes files sources) :
    ∀ file ∈ sources,
      file.enumStubs = (Store.emissionsOf file.path.dotted plan.emissions).flatMap (·.enumStubs) ∧
        file.operationNames =
          (Store.emissionsOf file.path.dotted plan.emissions).flatMap (·.operationNames) := by
  intro file hfile
  obtain ⟨written, hwritten, hclosed⟩ := Store.exists_closes hcloses hfile
  have hcollects := hfiles.files written hwritten
  rw [hclosed.rest]
  exact ⟨hcollects.enumStubs, hcollects.operationNames⟩

/-- What is placed into a file stands in the finished file. -/
theorem sources_hold {c : Config} {files sources : Store}
    (hfiles : files.Collects c plan.emissions)
    (hcloses : List.Forall₂ SourceFile.Closes files sources) :
    ∀ file ∈ sources, ∀ p ∈ plan.placements file.path.dotted, file.Holds c p := by
  intro file hfile p hp
  obtain ⟨written, hwritten, hclosed⟩ := Store.exists_closes hcloses hfile
  rw [hclosed.grows.path] at hp
  obtain ⟨e, he, hp⟩ := List.mem_flatMap.mp hp
  exact ((hfiles.files written hwritten).holds e he p hp).mono hclosed.grows

end Plan

/-! ## The output for a model -/

/-- An object with some fields in one line. -/
def objectText (fields : List String) : String := "\x7b " ++ Text.join ", " fields ++ " \x7d"

namespace SourceFile

variable {file : SourceFile} {path : List String}

theorem enumStatement_eq (stub : EnumStub) :
    enumStatement stub = .assign stub.constant.1 (objectText (stub.constant.2.map enumField)) := rfl

theorem mem_enumStatements_iff {value : String} :
    .assign path value ∈ file.enumStatements ↔
      ∃ fields, (path, fields) ∈ file.enumStubs.map (fun stub =>
        (stub.constant.1, stub.constant.2.map enumField)) ∧ value = objectText fields := by
  have hmem : .assign path value ∈ file.enumStatements ↔
      .assign path value ∈ file.enumStubs.map enumStatement := by
    rw [enumStatements]
    split
    · next hempty => rw [List.isEmpty_iff.mp hempty, List.map_nil]
    · simp
  rw [hmem, List.mem_map]
  constructor
  · rintro ⟨stub, hstub, heq⟩
    rw [enumStatement_eq] at heq
    obtain ⟨rfl, rfl⟩ := StubStatement.assign.inj heq
    exact ⟨_, List.mem_map_of_mem hstub, rfl⟩
  · rintro ⟨fields, hfields, rfl⟩
    obtain ⟨stub, hstub, heq⟩ := List.mem_map.mp hfields
    obtain ⟨rfl, rfl⟩ := Prod.mk.inj heq
    exact ⟨stub, hstub, enumStatement_eq stub⟩

theorem mem_operationStatements_iff :
    (∃ value, .assign path value ∈ file.operationStatements) ↔
      path ∈ file.operationNames.map fun entry => [entry.1] := by
  rw [← mem_targets_iff, operationStatements_targets]

/-- Before the enums and the operations, a stub exports the entities and nothing else. -/
theorem statements_front (file : SourceFile) : ∃ front,
    file.statements = front ++ file.enumStatements ++ file.operationStatements ∧
      front.filterMap StubStatement.target? = entityTargets file.inflections := by
  refine ⟨_, rfl, ?_⟩
  simp only [List.filterMap_append, List.filterMap_flatMap, recordStatements_targets,
    serviceStatements_targets, List.append_nil, entityTargets]
  rfl

end SourceFile

/-- Where code that stands in a file declares a constant of an enum, the file does. -/
theorem Placement.declares_enums {c : Config} {file : SourceFile} {p : Placement}
    (h : file.Holds c p) {entry : List String × List String} (hentry : entry ∈ p.writtenEnums c) :
    ∃ scope name, entry.1 = scope ++ [name] ∧ file.Declares c scope .constant name := by
  obtain ⟨⟨name, fields⟩, hread, rfl⟩ := List.mem_map.mp hentry
  obtain ⟨code, hcode, hconstant⟩ := List.mem_filterMap.mp hread
  exact ⟨_, name, rfl,
    h.declares p.target.isAt_scope hcode (Code.opening_of_enumConstant? hconstant)⟩

theorem Placement.declares_operations {c : Config} {file : SourceFile} {p : Placement}
    (h : file.Holds c p) {path : List String} (hpath : path ∈ p.writtenOperations c) :
    ∃ scope name, path = scope ++ [name] ∧ file.Declares c scope .declaredConstant name := by
  obtain ⟨name, hread, rfl⟩ := List.mem_map.mp hpath
  obtain ⟨code, hcode, hconstant⟩ := List.mem_filterMap.mp hread
  exact ⟨_, name, rfl,
    h.declares p.target.isAt_scope hcode (Code.opening_of_operationConstant? hconstant)⟩

/-- A direct stub exports the entities, then the enums and the operations.  The enums are
exactly those that the code of the type layer declares, at the place where it declares them
and with the fields that it writes.  The operations are exactly those that the code of the
type layer declares, at the place where it declares them, if and only if none of them stands
in another definition.  The constants in the code are declared in the text of the file. -/
theorem compile_constants {m : Model} {c : Config} {o : Output} (h : compile m c = .ok o)
    (hdirect : c.entitiesProxy = false) :
    ∃ (plan : Plan) (files sources : Store), Plan.ofModel m = .ok plan ∧
      files.Collects c plan.emissions ∧ List.Forall₂ SourceFile.Closes files sources ∧
      o.files = baseFile :: plan.libraries.map Library.file ++ sources.map (SourceFile.file c) ∧
      ∀ file ∈ sources, (file.file c).runtime = some (stubText file.statements) ∧
        (∃ front, file.statements = front ++ file.enumStatements ++ file.operationStatements ∧
          front.filterMap StubStatement.target? = SourceFile.entityTargets file.inflections) ∧
        (∀ path value, .assign path value ∈ file.enumStatements ↔
          ∃ fields, (path, fields) ∈ plan.writtenEnums c file.path.dotted ∧
            value = objectText fields) ∧
        ((∀ path, (∃ value, .assign path value ∈ file.operationStatements) ↔
            path ∈ plan.writtenOperations c file.path.dotted) ↔
          m.OperationsAtTop file.path.dotted) ∧
        (∀ entry ∈ plan.writtenEnums c file.path.dotted, ∃ scope name,
          entry.1 = scope ++ [name] ∧ file.Declares c scope .constant name) ∧
        ∀ path ∈ plan.writtenOperations c file.path.dotted, ∃ scope name,
          path = scope ++ [name] ∧ file.Declares c scope .declaredConstant name := by
  obtain ⟨plan, hplan, hrender⟩ := compile_eq_ok h
  obtain ⟨sources, hsources, hfiles⟩ := Plan.render_eq_ok hrender
  obtain ⟨files, hcollects, hcloses⟩ := Plan.sources_collect hsources
  refine ⟨plan, files, sources, hplan, hcollects, hcloses, hfiles, fun file hfile => ?_⟩
  obtain ⟨hstubs, hnames⟩ := Plan.sources_records hcollects hcloses file hfile
  have hholds := Plan.sources_hold hcollects hcloses file hfile
  refine ⟨?_, file.statements_front, fun path value => ?_, ?_, fun entry hentry => ?_,
    fun path hpath => ?_⟩
  · rw [SourceFile.file, hdirect, SourceFile.runtimeStub_direct]
  · rw [SourceFile.mem_enumStatements_iff, hstubs, Plan.writtenEnums_eq,
      Plan.enumConstants_eq hplan, List.map_map]
    rfl
  · rw [← Plan.mem_operationConstants_iff hplan, Plan.writtenOperations_eq]
    refine forall_congr' fun path => ?_
    rw [SourceFile.mem_operationStatements_iff, hnames]
  · obtain ⟨p, hp, hentry⟩ := List.mem_flatMap.mp hentry
    exact Placement.declares_enums (hholds p hp) hentry
  · obtain ⟨p, hp, hpath⟩ := List.mem_flatMap.mp hpath
    exact Placement.declares_operations (hholds p hp) hpath

/-- Books whose state is an enum, with an enum that is written in place, and an action
beside them. -/
def bookStates : Model where
  definitions :=
    [("shop.Books", {
        kind := some .entity
        elements := some [
          ("ID", { type := some (.name "cds.UUID"), key := true }),
          ("cover", {
            type := some (.name "cds.String")
            values := some [("hard", ⟨none, none⟩)] })] }),
     ("shop.Books.State", {
        kind := some .type
        type := some (.name "cds.String")
        values := some [("open", ⟨none, none⟩), ("sold", ⟨none, none⟩)] }),
     ("shop.restock", { kind := some .action })]

theorem compile_constants_bookStates :
    ∃ (o : Output) (plan : Plan) (sources : Store), compile bookStates {} = .ok o ∧
      Plan.ofModel bookStates = .ok plan ∧
      plan.writtenEnums {} "shop" = [(["Book_cover"], ["hard: 'hard'"]),
        (["Books", "State"], ["open: 'open'", "sold: 'sold'"])] ∧
      plan.writtenOperations {} "shop" = [["restock"]] ∧
      o.files = baseFile :: sources.map (SourceFile.file {}) ∧
      ∀ file ∈ sources, (file.file {}).runtime = some (stubText file.statements) ∧
        (∀ path value, .assign path value ∈ file.enumStatements ↔
          ∃ fields, (path, fields) ∈ plan.writtenEnums {} file.path.dotted ∧
            value = objectText fields) ∧
        ∀ path, (∃ value, .assign path value ∈ file.operationStatements) ↔
          path ∈ plan.writtenOperations {} file.path.dotted := by
  have hresult : (Plan.ofModel bookStates).toOption.map (fun plan =>
      (plan.writtenEnums {} "shop", plan.writtenOperations {} "shop", plan.libraries)) =
      some ([(["Book_cover"], ["hard: 'hard'"]),
        (["Books", "State"], ["open: 'open'", "sold: 'sold'"])], [["restock"]], []) := by
    decide +kernel
  have hscopes : ∀ entry ∈ bookStates.definitions, entry.2.kind.any Kind.isOperation = true →
      (bookStates.nameParts entry.1).scope = [] := by
    decide +kernel
  have htop : ∀ space, bookStates.OperationsAtTop space := fun space name d hd _ hkind _ =>
    hscopes (name, d) (Model.find?_eq_some_iff.mp hd) hkind
  obtain ⟨plan, hplan⟩ := Except.exists_eq_ok (x := Plan.ofModel bookStates) (by decide +kernel)
  rw [hplan] at hresult
  simp only [Except.toOption, Option.map_some, Option.some.injEq, Prod.mk.injEq] at hresult
  obtain ⟨henums, hoperations, hlibraries⟩ := hresult
  obtain ⟨o, ho⟩ := compile_ok {} hplan
  obtain ⟨plan', files, sources, hplan', -, -, hfiles, hall⟩ := compile_constants ho rfl
  obtain rfl : plan = plan' := Except.ok.inj (hplan.symm.trans hplan')
  rw [hlibraries] at hfiles
  refine ⟨o, plan, sources, ho, hplan, henums, hoperations, hfiles, fun file hfile => ?_⟩
  obtain ⟨htext, -, henum, hoperation, -⟩ := hall file hfile
  exact ⟨htext, henum, hoperation.mpr (htop _)⟩

/-- Books with an action that stands in them. -/
def bookOrder : Model where
  definitions :=
    [("shop.Books", {
        kind := some .entity
        elements := some [("ID", { type := some (.name "cds.UUID"), key := true })] }),
     ("shop.Books.order", { kind := some .action })]

/-- The order is declared in the namespace of the books and exported at the top level. -/
theorem order_misplaced :
    ∃ (o : Output) (plan : Plan) (file : SourceFile), compile bookOrder {} = .ok o ∧
      Plan.ofModel bookOrder = .ok plan ∧ o.files = [baseFile, file.file {}] ∧
      (file.file {}).runtime = some (stubText file.statements) ∧
      plan.writtenOperations {} file.path.dotted = [["Books", "order"]] ∧
      file.Declares {} ["Books"] .declaredConstant "order" ∧
      file.exportTargets = [["Book"], ["Books"], ["order"]] ∧
      ∀ value, .assign ["Books", "order"] value ∉ file.statements := by
  have hresult : (Plan.ofModel bookOrder).toOption.map (fun plan =>
      (plan.fileSpaces, plan.writtenOperations {} "shop", plan.fileSpaces.map plan.exportTargets,
        plan.libraries)) =
      some (["shop"], [["Books", "order"]], [[["Book"], ["Books"], ["order"]]], []) := by
    decide +kernel
  obtain ⟨plan, hplan⟩ := Except.exists_eq_ok (x := Plan.ofModel bookOrder) (by decide +kernel)
  rw [hplan] at hresult
  simp only [Except.toOption, Option.map_some, Option.some.injEq, Prod.mk.injEq] at hresult
  obtain ⟨hspaces, hoperations, htargets, hlibraries⟩ := hresult
  obtain ⟨o, ho, hrender⟩ := compile_written {} hplan
  obtain ⟨sources, hsources, hfiles⟩ := Plan.render_eq_ok hrender
  obtain ⟨files, hcollects, hcloses⟩ := Plan.sources_collect hsources
  have hdotted : sources.map (fun file => file.path.dotted) = ["shop"] := by
    rw [Store.map_eq_of_closes (fun _ _ => rfl) hcloses, ← hspaces]
    exact hcollects.spaces
  obtain ⟨file, rfl, hfile⟩ := List.map_eq_singleton_iff.mp hdotted
  have hexported : file.exportTargets = [["Book"], ["Books"], ["order"]] :=
    List.singleton_inj.mp ((Plan.exportTargets_sources hsources).trans htargets)
  rw [← hfile] at hoperations
  rw [hlibraries] at hfiles
  refine ⟨o, plan, file, ho, hplan, hfiles, ?_, hoperations, ?_, hexported, fun value hvalue => ?_⟩
  · rw [SourceFile.file, SourceFile.runtimeStub_direct]
  · have hwritten : ["Books", "order"] ∈ plan.writtenOperations {} file.path.dotted := by
      rw [hoperations]
      exact List.mem_cons_self
    obtain ⟨p, hp, hpath⟩ := List.mem_flatMap.mp hwritten
    obtain ⟨scope, name, hsplit, hdeclares⟩ := Placement.declares_operations
      (Plan.sources_hold hcollects hcloses file (List.mem_singleton.mpr rfl) p hp) hpath
    have hsplit : ["Books"] ++ ["order"] = scope ++ [name] := hsplit
    obtain ⟨rfl, hname⟩ := List.append_inj' hsplit rfl
    cases hname
    exact hdeclares
  · have hmem := mem_targets_iff.mpr ⟨value, hvalue⟩
    rw [SourceFile.statements_targets, hexported] at hmem
    exact absurd hmem (by decide)

end SchemaTypes
