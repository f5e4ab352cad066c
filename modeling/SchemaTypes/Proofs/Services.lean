import Mathlib.Data.List.Flatten
import SchemaTypes.Proofs.Code.Printing
import SchemaTypes.Proofs.Files.Directories
import SchemaTypes.Proofs.Names.Classes
import SchemaTypes.Proofs.Stub.Constants

/-!
# The class of a service

A service gives a class that lists the operations of its namespace: it comes from one
filter over the whole model (`Model.operationsOf`).  The operations give a constant each,
when they are visited, before the service or after it, and a line of the runtime stub.

What goes into a section of a file comes from one definition after the other
(`Plan.declarations`).  For the operations at the top level this is the filter once more
(`Plan.map_operationConstant?`), since a definition in the namespace of a service is passed
over only if the service is called `localized` or lies below it.  The class and the constants
are read off the code that is written to a section (`Plan.sectionCode`), and the static members
of the class are one for one the constants in its file (`compile_services`).
-/

namespace SchemaTypes

/-! ## Segments -/

namespace Model

variable {m : Model} {name : String} {d : Definition}

/-- No segment of a defined name is empty. -/
def SegmentsNamed (m : Model) : Prop :=
  ∀ name ∈ Table.names m.definitions, "" ∉ Text.splitOn '.' name

theorem SegmentsNamed.segment (h : m.SegmentsNamed) (hd : m.find? name = some d) {s : String}
    (hs : s ∈ Text.splitOn '.' name) : s ≠ "" ∧ '.' ∉ s.toList :=
  ⟨fun heq => h name (mem_names_of_find? hd) (heq ▸ hs), Text.notMem_of_mem_splitOn hs⟩

/-- The segments of a service are those of its namespace. -/
theorem SegmentsNamed.segments_ofDotted (h : m.SegmentsNamed) (hd : m.find? name = some d) :
    (Path.ofDotted name).segments = Text.splitOn '.' name := by
  rw [Path.ofDotted, if_neg]
  rintro rfl
  exact h "" (mem_names_of_find? hd) List.mem_cons_self

theorem SegmentsNamed.dotted_ofDotted (h : m.SegmentsNamed) (hd : m.find? name = some d) :
    (Path.ofDotted name).dotted = name := by
  have hdot : "." = String.singleton '.' := rfl
  rw [Path.dotted, h.segments_ofDotted hd, hdot, Text.join_splitOn]

theorem SegmentsNamed.ofDotted (h : m.SegmentsNamed) (hd : m.find? name = some d) :
    ∀ s ∈ (Path.ofDotted name).segments, s ≠ "" ∧ '.' ∉ s.toList := by
  rw [h.segments_ofDotted hd]
  exact fun s hs => h.segment hd hs

/-- A namespace that is written like the name of a service is that of the service. -/
theorem SegmentsNamed.eq_ofDotted (h : m.SegmentsNamed) (hd : m.find? name = some d) {p : Path}
    (hp : ∀ s ∈ p.segments, s ≠ "" ∧ '.' ∉ s.toList) :
    p.dotted = name ↔ p = Path.ofDotted name := by
  constructor
  · intro hdotted
    refine Path.eq_of_segments_eq (Text.join_injective '.' hp (h.ofDotted hd) ?_)
    exact hdotted.trans (h.dotted_ofDotted hd).symm
  · rintro rfl
    exact h.dotted_ofDotted hd

theorem SegmentsNamed.path (h : m.SegmentsNamed) (hd : m.find? name = some d) :
    ∀ s ∈ (m.nameParts name).path.segments, s ≠ "" ∧ '.' ∉ s.toList := by
  intro s hs
  refine h.segment hd ?_
  rw [← segments_of_defined hd]
  simp [hs]

end Model

/-- A name lies below `localized` by its first segment. -/
theorem Step.isLocalized_iff {name : String} :
    isLocalized name = true ↔ ∃ rest, rest ≠ [] ∧ Text.splitOn '.' name = "localized" :: rest := by
  have hdot : "." = String.singleton '.' := rfl
  rw [isLocalized, List.isPrefixOf_iff_prefix]
  constructor
  · rintro ⟨more, hmore⟩
    have hname : name = "localized" ++ String.singleton '.' ++ String.ofList more := by
      rw [← String.toList_inj, ← hmore]
      simp
    refine ⟨Text.splitOn '.' (String.ofList more), Model.splitOn_ne_nil _ _, ?_⟩
    rw [hname, Text.splitOn_append_sep]
    rfl
  · rintro ⟨rest, hrest, hsplit⟩
    have hname : name = "localized" ++ "." ++ Text.join "." rest := by
      conv_lhs => rw [← Text.join_splitOn '.' name, hsplit, ← hdot]
      exact Text.join_cons hrest
    rw [hname, String.toList_append]
    exact List.prefix_append _ _

namespace Model

variable {m : Model} {name service : String} {d d' : Definition}

/-- What stands in the namespace of a service is visited if the service is not below
`localized`. -/
theorem isLocalized_of_path (h : m.SegmentsNamed) (hservice : m.find? service = some d')
    (hne : service ≠ "localized") (hlocal : Step.isLocalized service = false)
    (hd : m.find? name = some d) (hpath : (m.nameParts name).path = Path.ofDotted service) :
    Step.isLocalized name = false := by
  by_contra hcontra
  rw [Bool.not_eq_false, Step.isLocalized_iff] at hcontra
  obtain ⟨rest, -, hsplit⟩ := hcontra
  have hsegments := segments_of_defined hd
  rw [hpath, h.segments_ofDotted hservice, hsplit] at hsegments
  cases hfirst : Text.splitOn '.' service with
  | nil => exact splitOn_ne_nil '.' service hfirst
  | cons first more =>
    rw [hfirst] at hsegments
    obtain rfl : first = "localized" := (List.cons.inj hsegments).1
    by_cases hmore : more = []
    · refine hne ?_
      rw [← Text.join_splitOn '.' service, hfirst, hmore, Text.join]
    · rw [← Bool.not_eq_true, Step.isLocalized_iff] at hlocal
      exact hlocal ⟨more, hmore, hfirst⟩

/-- An operation is written to the file of a service if it stands in its namespace. -/
theorem fileSpace?_operation_iff (h : m.SegmentsNamed) (hservice : m.find? service = some d')
    (hne : service ≠ "localized") (hlocal : Step.isLocalized service = false)
    (hd : m.find? name = some d) (hkind : d.kind.any Kind.isOperation = true) :
    (m.fileSpace? name d).map Path.dotted = some service ↔
      (m.nameParts name).path = Path.ofDotted service := by
  constructor
  · intro hspace
    refine (h.eq_ofDotted hservice (h.path hd)).mp ?_
    cases hname : Step.isLocalized name with
    | true =>
      rw [fileSpace?, hname] at hspace
      cases hspace
    | false =>
      rw [fileSpace?_operation hname hkind] at hspace
      exact Option.some.inj hspace
  · intro hpath
    rw [fileSpace?_operation (isLocalized_of_path h hservice hne hlocal hd hpath) hkind, hpath,
      Option.map_some, h.dotted_ofDotted hservice]

theorem SegmentsNamed.space (h : m.SegmentsNamed) {p : Path} (hp : p ∈ m.spaces) :
    ∀ s ∈ p.segments, s ≠ "" ∧ '.' ∉ s.toList := by
  obtain ⟨⟨name, d⟩, hentry, hspace⟩ := List.mem_filterMap.mp hp
  have hd := find?_eq_some_iff.mpr hentry
  simp only [fileSpace?] at hspace
  split at hspace
  · cases hspace
  · split at hspace <;> cases hspace
    all_goals first | exact h.path hd | exact h.ofDotted hd

/-! ## The operations of a namespace -/

/-- The name of a definition, if it is an operation of a namespace that is not nested in
another definition. -/
def operationOf? (m : Model) (path : Path) (entry : String × Definition) : Option String :=
  if entry.2.kind.any Kind.isOperation then
    if (m.nameParts entry.1).path = path ∧ (m.nameParts entry.1).scope = [] then
      some (m.nameParts entry.1).name
    else none
  else none

theorem operationsOf_eq_flatMap (m : Model) (path : Path) :
    m.operationsOf path = m.definitions.flatMap fun entry => (m.operationOf? path entry).toList :=
  List.filterMap_eq_flatMap_toList ..

theorem operationOf?_eq_some_iff {path : Path} {entry : String × Definition} :
    m.operationOf? path entry = some name ↔ entry.2.kind.any Kind.isOperation = true ∧
      (m.nameParts entry.1).path = path ∧ (m.nameParts entry.1).scope = [] ∧
      (m.nameParts entry.1).name = name := by
  rw [operationOf?]
  split
  · next hkind =>
    split
    · next hplace => simp [hkind, hplace]
    · next hplace =>
      refine iff_of_false nofun ?_
      rintro ⟨-, hpath, hscope, -⟩
      exact hplace ⟨hpath, hscope⟩
  · next hkind => exact iff_of_false nofun fun h => hkind h.1

/-- The operations of a namespace are listed in the order of the document. -/
theorem operationsOf_sublist (m : Model) (path : Path) :
    (m.operationsOf path).Sublist (m.definitions.map fun entry => (m.nameParts entry.1).name) := by
  rw [operationsOf_eq_flatMap, List.map_eq_flatMap]
  refine List.Sublist.flatMap_right _ fun entry _ => ?_
  cases hname : m.operationOf? path entry with
  | none => exact List.nil_sublist _
  | some name =>
    rw [Option.toList_some, (operationOf?_eq_some_iff.mp hname).2.2.2]

/-- No operation of a namespace is listed twice. -/
theorem operationsOf_nodup (m : Model) (path : Path) : (m.operationsOf path).Nodup := by
  rw [operationsOf_eq_flatMap, nodup_definitions_flatMap]
  constructor
  · intro name d _
    cases m.operationOf? path (name, d) <;> simp
  · intro name d name' d' hd hd' hne written hwritten hwritten'
    obtain ⟨-, hpath, hscope, hname⟩ :=
      operationOf?_eq_some_iff.mp (Option.mem_toList.mp hwritten)
    obtain ⟨-, hpath', hscope', hname'⟩ :=
      operationOf?_eq_some_iff.mp (Option.mem_toList.mp hwritten')
    have hplace : m.SamePlace name name' :=
      ⟨hpath.trans hpath'.symm, hscope.trans hscope'.symm⟩
    exact hplace.name_ne hd hd' hne (hname.trans hname'.symm)

end Model

/-! ## Declarations of a section -/

/-- The declarations that an emission puts into a section, in order. -/
def Emission.declarations (e : Emission) (t : Section) : List Declaration :=
  (e.placements.filter fun p => p.target = t).flatMap (·.declarations)

/-- The declarations in a section of a file, in order. -/
def Plan.declarations (plan : Plan) (space : String) (t : Section) : List Declaration :=
  (Store.emissionsOf space plan.emissions).flatMap fun e => e.declarations t

/-- The code that is written to a section of a file, in order. -/
def Plan.sectionCode (plan : Plan) (c : Config) (space : String) (t : Section) : List Code :=
  ((plan.placements space).filter fun p => p.target = t).flatMap (Placement.code c)

theorem Plan.sectionCode_eq (plan : Plan) (c : Config) (space : String) (t : Section) :
    plan.sectionCode c space t = (plan.declarations space t).flatMap (Declaration.code c) := by
  rw [sectionCode, placements, declarations, List.filter_flatMap, List.flatMap_assoc,
    List.flatMap_assoc]
  refine List.flatMap_congr fun e _ => ?_
  rw [Emission.declarations, List.flatMap_assoc]
  rfl

theorem Emission.mem_declarations {e : Emission} {t : Section} {x : Declaration} :
    x ∈ e.declarations t ↔ ∃ p ∈ e.placements, p.target = t ∧ x ∈ p.declarations := by
  simp [declarations, and_assoc]

/-- An emission of one declaration puts it into the section where it is placed. -/
theorem Emission.declarations_single {e : Emission} {target : Section} {x : Declaration}
    (h : e.placements = [⟨target, [x]⟩]) (t : Section) :
    e.declarations t = if target = t then [x] else [] := by
  rw [declarations, h, List.filter_singleton]
  by_cases ht : target = t <;> simp [ht]

theorem Section.ofScope_ne_operations (scope : List String) :
    Section.ofScope scope ≠ .operations := by
  rw [ofScope]
  split <;> simp

theorem Section.sectionFor_eq_operations {top : Section} {scope : List String} :
    Step.sectionFor top scope = .operations ↔ top = .operations ∧ scope = [] := by
  rw [Step.sectionFor]
  cases scope with
  | nil => simp
  | cons s rest => simp [ofScope_ne_operations]

namespace Step

variable {m : Model} {name : String} {d : Definition} {kind : Kind} {s s' : Session} {e : Emission}

/-- The classes of an entity are no services, and none of them stands among the
operations. -/
theorem structured_declarations (h : structured m name d kind s = (.ok e, s')) :
    (∀ t, (e.declarations t).filterMap Declaration.service? = []) ∧
      e.declarations .operations = [] := by
  obtain ⟨_, _, -, _, -, a, enums, -, rfl⟩ := structured_eq_ok h
  constructor
  · intro t
    refine List.filterMap_eq_nil_iff.mpr fun x hx => ?_
    obtain ⟨p, hp, -, hx⟩ := Emission.mem_declarations.mp hx
    rcases List.mem_append.mp hp with hp | hp
    · obtain ⟨enum, -, rfl⟩ := List.mem_map.mp hp
      rw [List.mem_singleton.mp hx]
      rfl
    · rw [List.mem_singleton.mp hp] at hx
      simp only [classes, List.mem_cons, List.mem_ite_nil_right, List.not_mem_nil, or_false] at hx
      rcases hx with rfl | rfl | ⟨-, rfl⟩ <;> rfl
  · refine List.eq_nil_iff_forall_not_mem.mpr fun x hx => ?_
    obtain ⟨p, hp, htarget, -⟩ := Emission.mem_declarations.mp hx
    rcases List.mem_append.mp hp with hp | hp
    · obtain ⟨enum, -, rfl⟩ := List.mem_map.mp hp
      cases htarget
    · rw [List.mem_singleton.mp hp, structureSection] at htarget
      split at htarget
      · cases htarget
      · exact Section.ofScope_ne_operations _ htarget

/-- The class of a service stands among the classes, and the constant of an operation at
the top level among the operations.  Nothing else stands there, and no other definition
gives either one. -/
theorem emission_declarations (h : emission m name d s = (.ok (some e), s')) :
    (∀ t, (e.declarations t).filterMap Declaration.service? =
      if d.kind = some .service ∧ t = .classes then [m.operationsOf (Path.ofDotted name)]
      else []) ∧
    (e.declarations .operations).map Declaration.operationConstant? =
      if d.kind.any Kind.isOperation = true ∧ (m.nameParts name).scope = [] then
        [some (Naming.sanitize (m.nameParts name).name)]
      else [] := by
  rcases emission_eq_ok h with ⟨-, hnone, -⟩ | ⟨kind, made?, -, hkind, hmade, hmap⟩
  · cases hnone
  obtain ⟨made, rfl, rfl⟩ := Option.map_eq_some_iff.mp hmap.symm
  have hsame : ∀ imports t,
      ({ made with imports } : Emission).declarations t = made.declarations t := fun _ _ => rfl
  simp only [hsame, hkind, Option.any_some]
  cases hmade with
  | structured hkinds he =>
    obtain ⟨hservice, hoperation⟩ := structured_declarations he
    rw [hoperation]
    rcases hkinds with rfl | rfl | ⟨rfl, -⟩ <;> simp [hservice, Kind.isOperation]
  | plainType _ he =>
    obtain ⟨target, x, hplacements, htarget, hx⟩ : ∃ top x,
        made.placements = [⟨sectionFor top (m.nameParts name).scope, [x]⟩] ∧
          top ≠ .operations ∧ x.service? = none := by
      rcases plainType_eq_ok he with ⟨-, members, -, rfl⟩ | ⟨type, -, rfl⟩
      · exact ⟨_, _, rfl, by simp, rfl⟩
      · exact ⟨_, _, rfl, by simp, rfl⟩
    constructor
    · intro t
      rw [Emission.declarations_single hplacements]
      split <;> simp [hx]
    · rw [Emission.declarations_single hplacements]
      simp [Section.sectionFor_eq_operations, htarget, Kind.isOperation]
  | @operation kind _ hkinds he =>
    have hother : kind ≠ .service := by
      rintro rfl
      cases hkinds
    obtain ⟨_, -, rfl⟩ := operation_eq_ok he
    constructor
    · intro t
      rw [Emission.declarations_single rfl]
      split <;> simp [Declaration.service?, hother]
    · rw [Emission.declarations_single rfl]
      by_cases hscope : (m.nameParts name).scope = []
      · simp [Section.sectionFor_eq_operations, hscope, hkinds, Declaration.operationConstant?]
      · simp [Section.sectionFor_eq_operations, hscope]
  | event he =>
    obtain ⟨_, -, rfl⟩ := event_eq_ok he
    constructor
    · intro t
      rw [Emission.declarations_single rfl]
      split <;> simp [Declaration.service?]
    · rw [Emission.declarations_single rfl, if_neg (Section.ofScope_ne_operations _)]
      simp [Kind.isOperation]
  | service =>
    constructor
    · intro t
      rw [Emission.declarations_single rfl]
      by_cases ht : t = .classes
      · simp [ht, Declaration.service?]
      · simp [ht, Ne.symm ht]
    · rw [Emission.declarations_single rfl]
      simp [Kind.isOperation]

end Step

/-! ## Declarations of a service -/

namespace Plan

variable {m : Model} {plan : Plan} {service : String} {d : Definition}

/-- The class of a service is the only one of its kind in its file. -/
theorem filterMap_service? (hplan : Plan.ofModel m = .ok plan) (hsegments : m.SegmentsNamed)
    (hservice : m.find? service = some d) (hkind : d.kind = some .service)
    (hlocal : Step.isLocalized service = false) (t : Section) :
    (plan.declarations service t).filterMap Declaration.service? =
      if t = .classes then [m.operationsOf (Path.ofDotted service)] else [] := by
  rw [declarations, List.filterMap_flatMap,
    flatMap_written hplan fun _ h => (Step.emission_declarations h).1 t]
  have hothers : ∀ entry ∈ m.definitions, entry.1 ≠ service → m.writtenTo service (fun name d =>
      if d.kind = some .service ∧ t = .classes then [m.operationsOf (Path.ofDotted name)]
      else []) entry = [] := by
    rintro ⟨other, d'⟩ hentry hne
    rw [Model.writtenTo]
    split
    · next hwritten =>
      refine if_neg fun hclass => hne ?_
      have hother := Model.find?_eq_some_iff.mpr hentry
      rw [Model.fileSpace?, hclass.1] at hwritten
      split at hwritten
      · cases hwritten
      · exact (hsegments.dotted_ofDotted hother).symm.trans (Option.some.inj hwritten)
    · rfl
  rw [Table.flatMap_eq m.distinct (Model.find?_eq_some_iff.mp hservice) hothers, Model.writtenTo,
    if_pos]
  · simp [hkind]
  · rw [Model.fileSpace?, hlocal, if_neg Bool.false_ne_true, hkind]
    exact congrArg some (hsegments.dotted_ofDotted hservice)

/-- The operations at the top level of a service are those of the filter. -/
theorem map_operationConstant? (hplan : Plan.ofModel m = .ok plan) (hsegments : m.SegmentsNamed)
    (hservice : m.find? service = some d) (hne : service ≠ "localized")
    (hlocal : Step.isLocalized service = false) :
    (plan.declarations service .operations).map Declaration.operationConstant? =
      (m.operationsOf (Path.ofDotted service)).map fun name => some (Naming.sanitize name) := by
  rw [declarations, List.map_flatMap,
    flatMap_written hplan fun _ h => (Step.emission_declarations h).2,
    Model.operationsOf_eq_flatMap, List.map_flatMap]
  refine List.flatMap_congr fun entry hentry => ?_
  have hd := Model.find?_eq_some_iff.mpr hentry
  cases hname : m.operationOf? (Path.ofDotted service) entry with
  | some name =>
    obtain ⟨hkind, hpath, hscope, rfl⟩ := Model.operationOf?_eq_some_iff.mp hname
    have hspace := (Model.fileSpace?_operation_iff hsegments hservice hne hlocal hd hkind).mpr hpath
    rw [Model.writtenTo, if_pos hspace, if_pos ⟨hkind, hscope⟩]
    rfl
  | none =>
    rw [Model.writtenTo, Option.toList_none, List.map_nil]
    refine ite_eq_right_iff.mpr fun hspace => if_neg fun hoperation => ?_
    have hpath := (Model.fileSpace?_operation_iff hsegments hservice hne hlocal hd hoperation.1).mp
      hspace
    rw [Model.operationOf?_eq_some_iff.mpr ⟨hoperation.1, hpath, hoperation.2, rfl⟩] at hname
    cases hname

/-- The class of a service is written to one section of its file, with a member for every
operation of the filter. -/
theorem sectionCode_defaultClass (hplan : Plan.ofModel m = .ok plan)
    (hsegments : m.SegmentsNamed) (hservice : m.find? service = some d)
    (hkind : d.kind = some .service) (hlocal : Step.isLocalized service = false) (c : Config)
    (t : Section) :
    (plan.sectionCode c service t).filterMap Code.defaultClass? =
      if t = .classes then [(m.operationsOf (Path.ofDotted service)).map serviceMember] else [] := by
  have hread : ∀ x ∈ plan.declarations service t, (x.code c).filterMap Code.defaultClass? =
      x.service?.toList.map fun operations => operations.map serviceMember :=
    fun x _ => x.code_defaultClass c
  rw [sectionCode_eq, List.filterMap_flatMap, List.flatMap_congr hread, ← List.map_flatMap,
    ← List.filterMap_eq_flatMap_toList, filterMap_service? hplan hsegments hservice hkind hlocal]
  split <;> rfl

/-- The constants that are written among the operations of a service are those of the
filter. -/
theorem sectionCode_operations (hplan : Plan.ofModel m = .ok plan) (hsegments : m.SegmentsNamed)
    (hservice : m.find? service = some d) (hne : service ≠ "localized")
    (hlocal : Step.isLocalized service = false) (c : Config) :
    (plan.sectionCode c service .operations).filterMap Code.operationConstant? =
      (m.operationsOf (Path.ofDotted service)).map Naming.sanitize := by
  have hread : ∀ x ∈ plan.declarations service .operations,
      (x.code c).filterMap Code.operationConstant? = x.operationConstant?.toList :=
    fun x _ => x.code_operationConstants c
  have hfound := congrArg (List.filterMap id)
    (map_operationConstant? hplan hsegments hservice hne hlocal)
  rw [List.filterMap_map, List.filterMap_map] at hfound
  rw [sectionCode_eq, List.filterMap_flatMap, List.flatMap_congr hread,
    ← List.filterMap_eq_flatMap_toList]
  exact hfound.trans (congrFun List.filterMap_eq_map _)

/-- Nothing else is exported there. -/
theorem sectionCode_quiet (hplan : Plan.ofModel m = .ok plan) (hsegments : m.SegmentsNamed)
    (hservice : m.find? service = some d) (hne : service ≠ "localized")
    (hlocal : Step.isLocalized service = false) (c : Config) :
    ∀ code ∈ plan.sectionCode c service .operations,
      code.operationConstant? = none → Quiet code.opening := by
  intro code hcode hnone sort hkeyword
  rw [sectionCode_eq] at hcode
  obtain ⟨x, hx, hcode⟩ := List.mem_flatMap.mp hcode
  have hconstant : x.operationConstant? ∈
      (m.operationsOf (Path.ofDotted service)).map fun name => some (Naming.sanitize name) := by
    rw [← map_operationConstant? hplan hsegments hservice hne hlocal]
    exact List.mem_map_of_mem hx
  obtain ⟨name, -, hname⟩ := List.mem_map.mp hconstant
  cases x with
  | operation name' doc signature =>
    rcases List.mem_append.mp hcode with hdoc | hblock
    · exact docCode_quiet doc code hdoc sort hkeyword
    · obtain rfl := List.mem_singleton.mp hblock
      have hread : Code.operationConstant? (.block ("export declare const " ++ name' ++ ": \x7b")
          (signature.code c) "\x7d;") = some name' := Code.exported?_eq_some_iff.mpr rfl
      rw [hread] at hnone
      cases hnone
  | _ => cases hname

/-- The operations of a service have an entry each for the runtime. -/
theorem sublist_operationNames (hplan : Plan.ofModel m = .ok plan) (hsegments : m.SegmentsNamed)
    (hservice : m.find? service = some d) (hne : service ≠ "localized")
    (hlocal : Step.isLocalized service = false) :
    ((m.operationsOf (Path.ofDotted service)).map fun name => (Naming.sanitize name, name)).Sublist
      ((Store.emissionsOf service plan.emissions).flatMap (·.operationNames)) := by
  have hnames : ∀ {name d e s s'}, m.find? name = some d →
      Step.emission m name d s = (.ok (some e), s') → e.operationNames =
        if d.kind.any Kind.isOperation = true then
          [(Naming.sanitize (m.nameParts name).name, (m.nameParts name).name)]
        else [] := by
    intro name d e s s' hd he
    have hboth := Step.emission_operationConstants hd he
    split at hboth
    · next hkind => rw [hboth.1, if_pos hkind]
    · next hkind => rw [hboth.1, if_neg hkind]
  rw [flatMap_written hplan hnames, Model.operationsOf_eq_flatMap, List.map_flatMap]
  refine List.Sublist.flatMap_right _ fun entry hentry => ?_
  have hd := Model.find?_eq_some_iff.mpr hentry
  cases hname : m.operationOf? (Path.ofDotted service) entry with
  | none => exact List.nil_sublist _
  | some name =>
    obtain ⟨hkind, hpath, -, rfl⟩ := Model.operationOf?_eq_some_iff.mp hname
    have hspace := (Model.fileSpace?_operation_iff hsegments hservice hne hlocal hd hkind).mpr hpath
    rw [Model.writtenTo, if_pos hspace, if_pos hkind]
    exact List.Sublist.refl _

end Plan

/-! ## Files -/

namespace SourceFile

variable {file file' : SourceFile}

/-- Finishing does not touch what stands at the top level. -/
theorem Closes.buffer (h : file.Closes file') {t : Section} (ht : t.nest? = none) :
    file'.buffer t = file.buffer t := by
  rw [h.rest]
  cases t <;> first | rfl | cases ht

/-- The line of the stub that exports an operation. -/
def operationLine (entry : String × String) : Code := .line (operationAssignment entry.1 entry.2)

/-- The operations are exported with the names they are recorded under. -/
theorem sublist_stubCode (file : SourceFile) (useProxy : Bool) (base : Path) :
    (file.operationNames.map operationLine).Sublist (file.stubCode useProxy base) := by
  rw [stubCode]
  refine List.Sublist.trans ?_ (List.sublist_append_right _ _)
  rw [operationLines]
  split
  · next hempty => simp [List.isEmpty_iff.mp hempty]
  · exact List.sublist_cons_self _ _

end SourceFile

namespace Plan

variable {m : Model} {plan : Plan} {c : Config} {sources : Store} {service : String}
  {d : Definition}

/-- A service has one file.  A section at its top level is what the definitions of the
namespace have placed there, written one after the other. -/
theorem exists_file_of_service (hplan : Plan.ofModel m = .ok plan)
    (hsources : plan.sources c = .ok sources) (hsegments : m.SegmentsNamed)
    (hservice : m.find? service = some d) (hkind : d.kind = some .service)
    (hlocal : Step.isLocalized service = false) :
    ∃ file ∈ sources, file.path = Path.ofDotted service ∧
      (∀ other ∈ sources, other.path.dotted = service → other = file) ∧
      ∀ t, t.nest? = none →
        Section.write c t (plan.placements service) t.blank = .ok (file.buffer t) := by
  obtain ⟨hnodup, hspaces, hall⟩ := sources_spaces hplan hsources
  have hspace : Path.ofDotted service ∈ m.spaces := by
    refine List.mem_filterMap.mpr ⟨(service, d), Model.find?_eq_some_iff.mp hservice, ?_⟩
    simp [Model.fileSpace?, hlocal, hkind]
  obtain ⟨path, hpath, hdotted⟩ := hall _ hspace
  obtain ⟨file, hfile, rfl⟩ := List.mem_map.mp hpath
  rw [hsegments.dotted_ofDotted hservice] at hdotted
  have hsame := (hsegments.eq_ofDotted hservice (hsegments.space (hspaces _ hpath))).mp hdotted
  refine ⟨file, hfile, hsame, fun other hother hspace => ?_, fun t ht => ?_⟩
  · exact List.inj_on_of_nodup_map hnodup hother hfile (hspace.trans hdotted.symm)
  · obtain ⟨files, hcollects, hcloses⟩ := sources_collect hsources
    obtain ⟨written, hwritten, hclosed⟩ := Store.exists_closes hcloses hfile
    have hpath : written.path = file.path := by rw [hclosed.rest]
    have hcollected := hcollects.files written hwritten
    rw [hpath, hdotted] at hcollected
    rw [hclosed.buffer ht]
    exact hcollected.sections t

end Plan

/-- The class of a service matches the operations in its file.  A section of the file is what
its placements are written as, one after the other, and they stand in the text of the file.
In their code is one such class, and its static members refer one for one, in the order of the
document, to the constants that are declared among the operations, where nothing else is
exported.  The runtime stub exports each of these constants under the same binding, with the
name of the operation. -/
theorem compile_services {m : Model} {c : Config} {o : Output} (h : compile m c = .ok o)
    (hsegments : m.SegmentsNamed) :
    ∃ (plan : Plan) (sources : Store), Plan.ofModel m = .ok plan ∧
      o.files = baseFile :: plan.libraries.map Library.file ++ sources.map (SourceFile.file c) ∧
      ∀ service d, m.find? service = some d → d.kind = some .service → service ≠ "localized" →
        Step.isLocalized service = false →
        ∃ file ∈ sources, file.path = Path.ofDotted service ∧
          (∀ other ∈ sources, other.path.dotted = service → other = file) ∧
          (∀ t, t.nest? = none →
            Section.write c t (plan.placements service) t.blank = .ok (file.buffer t)) ∧
          (∀ p ∈ plan.placements service, file.Holds c p ∧
            (Text.join "\n" (p.lines c)).toList <:+: file.typeLayer.toList) ∧
          ∃ operations, operations = m.operationsOf (Path.ofDotted service) ∧
            operations.Sublist (m.definitions.map fun entry => (m.nameParts entry.1).name) ∧
            operations.Nodup ∧
            (∀ t, (plan.sectionCode c service t).filterMap Code.defaultClass? =
              if t = .classes then [operations.map fun name => .line ("declare static readonly " ++
                Naming.propertyKey name ++ ": typeof " ++ Naming.sanitize name ++ ";")] else []) ∧
            (plan.sectionCode c service .operations).filterMap Code.operationConstant? =
              operations.map Naming.sanitize ∧
            (∀ code ∈ plan.sectionCode c service .operations,
              code.operationConstant? = none → Quiet code.opening) ∧
            (∀ name ∈ operations, file.Declares c [] .declaredConstant (Naming.sanitize name)) ∧
            (file.file c).runtime = some (Text.join "\n"
              (Code.lines (file.stubCode c.entitiesProxy basePath)) ++ "\n") ∧
            (operations.map fun name =>
              SourceFile.operationLine (Naming.sanitize name, name)).Sublist
                (file.stubCode c.entitiesProxy basePath) := by
  obtain ⟨plan, hplan, hrender⟩ := compile_eq_ok h
  obtain ⟨sources, hsources, hfiles⟩ := Plan.render_eq_ok hrender
  obtain ⟨files, hcollects, hcloses⟩ := Plan.sources_collect hsources
  refine ⟨plan, sources, hplan, hfiles, fun service d hservice hkind hne hlocal => ?_⟩
  obtain ⟨file, hfile, hpath, honly, hwritten⟩ :=
    Plan.exists_file_of_service hplan hsources hsegments hservice hkind hlocal
  have hdotted : file.path.dotted = service := by rw [hpath, hsegments.dotted_ofDotted hservice]
  have hholds := Plan.sources_hold hcollects hcloses file hfile
  rw [hdotted] at hholds
  have hconstants := Plan.sectionCode_operations hplan hsegments hservice hne hlocal c
  refine ⟨file, hfile, hpath, honly, hwritten,
    fun p hp => ⟨hholds p hp, (hholds p hp).infix_typeLayer⟩,
    m.operationsOf (Path.ofDotted service), rfl, m.operationsOf_sublist _, m.operationsOf_nodup _,
    Plan.sectionCode_defaultClass hplan hsegments hservice hkind hlocal c, hconstants,
    Plan.sectionCode_quiet hplan hsegments hservice hne hlocal c, fun name hname => ?_,
    congrArg some (file.runtimeStub_eq c.entitiesProxy basePath), ?_⟩
  · have hread : Naming.sanitize name ∈
        (plan.sectionCode c service .operations).filterMap Code.operationConstant? := by
      rw [hconstants]
      exact List.mem_map_of_mem hname
    obtain ⟨code, hcode, hconstant⟩ := List.mem_filterMap.mp hread
    obtain ⟨p, hp, hcode⟩ := List.mem_flatMap.mp hcode
    obtain ⟨hp, htarget⟩ := List.mem_filter.mp hp
    have hat : p.target.IsAt [] := by
      rw [of_decide_eq_true htarget]
      rfl
    exact (hholds p hp).declares hat hcode (Code.opening_of_operationConstant? hconstant)
  · have hnames := (Plan.sources_records hcollects hcloses file hfile).2
    rw [hdotted] at hnames
    have hentries := Plan.sublist_operationNames hplan hsegments hservice hne hlocal
    rw [← hnames] at hentries
    have hlines := hentries.map SourceFile.operationLine
    rw [List.map_map] at hlines
    exact hlines.trans (file.sublist_stubCode c.entitiesProxy basePath)

/-- A service between its operations, one of which has a reserved name, and an action that
stands in an entity of the service. -/
def counter : Model where
  definitions :=
    [("shop.delete", { kind := some .action }),
     ("shop", { kind := some .service }),
     ("shop.Books", {
        kind := some .entity
        elements := some [("ID", { type := some (.name "cds.UUID"), key := true })] }),
     ("shop.Books.order", { kind := some .action }),
     ("shop.check-out", { kind := some .function })]

theorem compile_services_counter :
    counter.SegmentsNamed ∧ ∃ (o : Output) (plan : Plan) (sources : Store),
      compile counter {} = .ok o ∧ Plan.ofModel counter = .ok plan ∧
      o.files = baseFile :: plan.libraries.map Library.file ++ sources.map (SourceFile.file {}) ∧
      ∃ file ∈ sources, file.path = Path.ofDotted "shop" ∧
        ((plan.sectionCode {} "shop" .classes).filterMap Code.defaultClass?).map Code.lines =
          [["declare static readonly delete: typeof _delete;",
            "declare static readonly 'check-out': typeof check_out;"]] ∧
        (plan.sectionCode {} "shop" .operations).filterMap Code.operationConstant? =
          ["_delete", "check_out"] ∧
        file.Declares {} [] .declaredConstant "_delete" ∧
        file.Declares {} [] .declaredConstant "check_out" ∧
        [SourceFile.operationLine ("_delete", "delete"),
          SourceFile.operationLine ("check_out", "check-out")].Sublist
            (file.stubCode false basePath) := by
  have hsegments : counter.SegmentsNamed := by
    have hall : ∀ name ∈ Table.names counter.definitions, "" ∉ Text.splitOn '.' name := by
      decide +kernel
    exact hall
  have hoperations : counter.operationsOf (Path.ofDotted "shop") = ["delete", "check-out"] := by
    decide +kernel
  have hdelete : Naming.sanitize "delete" = "_delete" := by decide +kernel
  have hcheck : Naming.sanitize "check-out" = "check_out" := by decide +kernel
  have hkeys : Naming.propertyKey "delete" = "delete" ∧
      Naming.propertyKey "check-out" = "'check-out'" := by
    decide +kernel
  obtain ⟨plan, hplan⟩ := Except.exists_eq_ok (x := Plan.ofModel counter) (by decide +kernel)
  obtain ⟨o, ho⟩ := compile_ok {} hplan
  obtain ⟨plan', sources, hplan', hfiles, hall⟩ := compile_services ho hsegments
  obtain rfl : plan = plan' := Except.ok.inj (hplan.symm.trans hplan')
  obtain ⟨file, hfile, hpath, -, -, -, operations, rfl, -, -, hclass, hconstants, -, hdeclared, -,
    hlines⟩ := hall "shop" { kind := some .service } rfl rfl (by decide) (by decide)
  rw [hoperations] at hclass hconstants hdeclared hlines
  simp only [List.map_cons, List.map_nil, hdelete, hcheck] at hconstants hlines
  refine ⟨hsegments, o, plan, sources, ho, hplan, hfiles, file, hfile, hpath, ?_, hconstants,
    hdelete ▸ hdeclared "delete" (by simp), hcheck ▸ hdeclared "check-out" (by simp), hlines⟩
  rw [hclass .classes]
  simp only [List.map_cons, List.map_nil, hdelete, hcheck, hkeys.1, hkeys.2]
  decide

end SchemaTypes
