import SchemaTypes.Proofs.Access.References
import SchemaTypes.Proofs.Names.Classes
import SchemaTypes.Proofs.Stub.Constants

/-!
# Names of enums

A file declares a constant for every enum that is written in place of the type of an
element, and one for every named enum.  The first stand at the top level, named after the
singular of the definition and the element (`Model.inlineConstants`).  The second stand in
the scope of the enum, under its own name (`Model.enumNames`).  So the file and its runtime
stub have the same constants, and `Model.enumPaths` lists them from the model.

Nothing is checked about these names.  They are distinct exactly if the constants that are
written in place are distinct in each file and no enum at its top level has the name of one
(`Model.EnumsApart`, `compile_enumPaths`).  The scope of an entity is no part of the names,
so an entity and one that stands in another definition can give the same constant
(`bookStatus_clash`).
-/

namespace SchemaTypes

/-! ## Enums of a definition -/

/-- Whether a class is generated for a definition. -/
def Definition.givesClass (d : Definition) : Bool :=
  d.isKind .entity || d.isKind .aspect || d.isKind .type && d.isStructure

namespace Model

/-- The elements whose types are enums that are written in place, without those that the
definition inherits. -/
def inlineEnums (m : Model) (d : Definition) (elements : Table Definition) : List String :=
  (elements.filter fun (name, element) =>
    !m.isInherited d name && element.items.isNone && isPlainEnum element).map (·.1)

/-- The constants of the enums that are written in place in a definition. -/
def inlineConstants (m : Model) (name : String) (d : Definition) : List String :=
  if d.givesClass && !Step.isLocalized name then
    (m.inlineEnums d d.ownElements).map fun element =>
      Naming.sanitize ((m.inflection (m.nameParts name)).singular ++ "_" ++ element)
  else []

/-- The place of the constant of a named enum: its scope and its name. -/
def enumNames (m : Model) (name : String) (d : Definition) : List (List String) :=
  if d.isEnumType && !Step.isLocalized name then
    [(m.nameParts name).scope ++ [(m.nameParts name).name]]
  else []

/-- The places of all constants of enums of a definition. -/
def enumPaths (m : Model) (name : String) (d : Definition) : List (List String) :=
  (m.inlineConstants name d).map (fun constant => [constant]) ++ m.enumNames name d

variable {m : Model} {name : String} {d : Definition}

theorem enumPaths_of_class (hlocal : Step.isLocalized name = false) (hclass : d.givesClass = true)
    (henum : d.isEnumType = false) :
    m.enumPaths name d = (m.inlineEnums d d.ownElements).map fun element =>
      [Naming.sanitize ((m.inflection (m.nameParts name)).singular ++ "_" ++ element)] := by
  simp [enumPaths, inlineConstants, enumNames, hlocal, hclass, henum]

theorem enumPaths_of_enum (hlocal : Step.isLocalized name = false) (hclass : d.givesClass = false)
    (henum : d.isEnumType = true) :
    m.enumPaths name d = [(m.nameParts name).scope ++ [(m.nameParts name).name]] := by
  simp [enumPaths, inlineConstants, enumNames, hlocal, hclass, henum]

theorem enumPaths_of_neither (hclass : d.givesClass = false) (henum : d.isEnumType = false) :
    m.enumPaths name d = [] := by
  simp [enumPaths, inlineConstants, enumNames, hclass, henum]

theorem enumPaths_of_localized (hlocal : Step.isLocalized name = true) :
    m.enumPaths name d = [] := by
  simp [enumPaths, inlineConstants, enumNames, hlocal]

/-- A definition with constants is written to the file of its namespace. -/
theorem fileSpace?_of_enumPaths (h : m.enumPaths name d ≠ []) :
    m.fileSpace? name d = some (m.nameParts name).path := by
  have hlocal : Step.isLocalized name = false := by
    by_contra hlocal
    exact h (enumPaths_of_localized (by simpa using hlocal))
  rw [fileSpace?, hlocal, if_neg Bool.false_ne_true]
  by_cases hclass : d.givesClass = true
  · simp only [Definition.givesClass, Definition.isKind, Bool.or_eq_true, Bool.and_eq_true,
      beq_iff_eq] at hclass
    rcases hclass with (hkind | hkind) | ⟨hkind, -⟩ <;> rw [hkind]
  · by_cases henum : d.isEnumType = true
    · simp only [Definition.isEnumType, Definition.isKind, Bool.and_eq_true, beq_iff_eq] at henum
      rw [henum.1.1]
    · exact absurd (enumPaths_of_neither (by simpa using hclass) (by simpa using henum)) h

end Model

namespace Step

variable {m : Model}

/-- An enum is written in place of a type exactly if the type is no array, predefined or
missing, and the element has values. -/
theorem inlineEnum_eq {site : Site} {element : Definition} {property hint : String}
    {type : TypeInfo} (h : (m.resolve site element hint).outcome = .ok type) :
    inlineEnum property hint type element =
      if element.items.isNone && Model.isPlainEnum element then
        [⟨property, hint, EnumMember.ofEntries (element.values.getD [])⟩]
      else [] := by
  rw [Model.resolve, Model.resolveWithin] at h
  cases hitems : element.items with
  | some items =>
    simp only [hitems] at h
    obtain ⟨item, -, rfl, -⟩ := Resolution.andThen_found_eq_ok h
    rfl
  | none =>
    simp only [hitems] at h
    split at h
    · next henum =>
      cases h
      rw [henum]
      have hvalues : element.isEnum = true := by
        rw [Model.isPlainEnum, Bool.and_eq_true] at henum
        exact henum.1
      cases hsome : element.values with
      | none =>
        rw [Definition.isEnum, hsome] at hvalues
        cases hvalues
      | some entries => simp [inlineEnum, Model.enumInfo, hsome]
    · next henum =>
      rw [Bool.not_eq_true] at henum
      rw [henum, Bool.and_false, if_neg Bool.false_ne_true]
      split at h
      · obtain ⟨members, -, rfl, -⟩ := Resolution.andThen_found_eq_ok h
        rfl
      · cases h
      · obtain ⟨d, -, rfl⟩ := Model.resolveAccess_eq_ok h
        rfl
      · rcases Model.resolveName_eq_ok h with ⟨_, _, _, -, -, -, rfl⟩ | ⟨hsimple, -⟩
        · rfl
        · cases type <;> first | rfl | cases hsimple

/-- What is written in place in a class body: the elements, with their constants. -/
theorem bodyOf_enums {o : ClassOwner} :
    ∀ {elements : Table Definition} {body : ClassBody} {s s' : Session},
      bodyOf m o elements s = (.ok body, s') →
        body.enums.map (fun e => (e.property, e.constant)) =
          (m.inlineEnums o.definition elements).map fun element => (element, o.hint element)
  | [], _, s, _, h => by
    obtain ⟨rfl, rfl⟩ := pure_eq_ok h
    rfl
  | (property, element) :: rest, _, s, _, h => by
    rw [Model.inlineEnums]
    rcases bodyOf_cons_eq_ok h with ⟨hinherited, h⟩ | ⟨hown, first, t, others, hfirst, hothers, rfl⟩
    · rw [List.filter_cons_of_neg (by simp [hinherited])]
      exact bodyOf_enums h
    · obtain ⟨type, u, foreignKeys, htype, -, rfl⟩ := elementBody_eq_ok hfirst
      have hrest := bodyOf_enums hothers
      rw [ClassBody.append, inlineEnum_eq (Prod.mk.inj htype).1, List.map_append, hrest]
      by_cases henum : (element.items.isNone && Model.isPlainEnum element) = true
      · rw [if_pos henum, List.filter_cons_of_pos (by simpa [hown] using henum)]
        rfl
      · rw [if_neg henum, List.filter_cons_of_neg (by simpa [hown] using henum)]
        rfl

variable {name : String} {d : Definition} {kind : Kind} {s s' : Session} {e : Emission}

theorem structured_enumTargets (h : structured m name d kind s = (.ok e, s')) :
    e.enumStubs.map EnumStub.target = (m.inlineEnums d d.ownElements).map fun element =>
      [Naming.sanitize ((m.inflection (m.nameParts name)).singular ++ "_" ++ element)] := by
  obtain ⟨_, _, -, _, -, a, enums, haspect, rfl⟩ := structured_eq_ok h
  obtain ⟨_, _, -, body, _, hbody, _, -, rfl, -⟩ := aspect_eq_ok haspect
  have htargets : ∀ enum ∈ body.enums, (InlineEnum.stub enum).target = [enum.constant] := by
    intro enum henum
    refine target_stub ?_
    rw [bodyOf_constants hbody enum henum]
    exact Naming.dot_notMem_sanitize _
  have hconstants := congrArg (List.map fun entry => [entry.2]) (bodyOf_enums hbody)
  rw [List.map_map, List.map_map] at hconstants
  rw [List.map_map, List.map_congr_left (f := EnumStub.target ∘ InlineEnum.stub) htargets]
  exact hconstants

/-- A definition exports its constants, and nothing else that is an enum. -/
theorem emission_enumTargets (hd : m.find? name = some d)
    (h : emission m name d s = (.ok (some e), s')) :
    e.enumStubs.map EnumStub.target = m.enumPaths name d := by
  obtain ⟨hlocal, hexports⟩ := emission_exports hd h
  have hnamed := hexports.enumStubs
  rcases emission_eq_ok h with ⟨-, hnone, -⟩ | ⟨kind, made?, -, hkind, hmade, hmap⟩
  · cases hnone
  obtain ⟨made, rfl, rfl⟩ := Option.map_eq_some_iff.mp hmap.symm
  have hkinds : ∀ k, d.isKind k = (some kind == some k) := fun k => by rw [Definition.isKind, hkind]
  have hclass : d.givesClass =
      (kind == .entity || kind == .aspect || kind == .type && d.isStructure) := by
    simp only [Definition.givesClass, hkinds]
    rfl
  have henum : d.isEnumType = (kind == .type && !d.isStructure && d.isEnum) := by
    rw [Definition.isEnumType, hkinds]
    rfl
  cases hmade with
  | structured hkinds he =>
    have hgives : d.givesClass = true ∧ d.isEnumType = false := by
      rw [hclass, henum]
      rcases hkinds with rfl | rfl | ⟨rfl, hstructure⟩
      · exact ⟨rfl, rfl⟩
      · exact ⟨rfl, rfl⟩
      · rw [hstructure]
        exact ⟨rfl, rfl⟩
    have htargets := structured_enumTargets he
    rw [Model.enumPaths_of_class hlocal hgives.1 hgives.2]
    exact htargets
  | plainType hplain he =>
    rw [hplain] at hclass henum
    rcases plainType_eq_ok he with ⟨-, members, hvalues, rfl⟩ | ⟨type, ⟨hvalues, -⟩, rfl⟩
    · have henum : d.isEnumType = true := by rw [henum, hvalues]; rfl
      rw [if_pos henum] at hnamed
      rw [Model.enumPaths_of_enum hlocal hclass henum]
      exact hnamed
    · rw [hvalues] at henum
      rw [Model.enumPaths_of_neither hclass henum]
      rfl
  | operation hoperation he =>
    obtain ⟨_, -, rfl⟩ := operation_eq_ok he
    have hneither : d.givesClass = false ∧ d.isEnumType = false := by
      rw [hclass, henum]
      cases kind <;> first | exact ⟨rfl, rfl⟩ | cases hoperation
    rw [Model.enumPaths_of_neither hneither.1 hneither.2]
    rfl
  | event he =>
    obtain ⟨_, -, rfl⟩ := event_eq_ok he
    rw [Model.enumPaths_of_neither hclass henum]
    rfl
  | service =>
    rw [Model.enumPaths_of_neither hclass henum]
    rfl

end Step

/-! ## Enums of a file -/

/-- The constants of a file are those of its definitions. -/
theorem Plan.enumPaths_eq {m : Model} {plan : Plan} (hplan : Plan.ofModel m = .ok plan)
    (space : String) :
    (plan.enumConstants space).map Prod.fst =
      m.definitions.flatMap (m.inFile space m.enumPaths) := by
  rw [enumConstants_eq hplan, List.map_map, List.map_flatMap]
  exact flatMap_emissionsOf hplan (fun _ => Model.fileSpace?_of_enumPaths)
    Step.emission_enumTargets

namespace Model

/-- The constants of the enums that are written in place in the definitions of a file. -/
def inlineConstantsIn (m : Model) (space : String) : List String :=
  m.definitions.flatMap (m.inFile space m.inlineConstants)

/-- The names of constants, which nothing checks, are apart. -/
structure EnumsApart (m : Model) : Prop where
  /-- The constants of enums that are written in place are distinct in each file. -/
  inline : ∀ name ∈ Table.names m.definitions,
    (m.inlineConstantsIn (m.nameParts name).path.dotted).Nodup
  /-- No enum at the top level of the file has the name of one of them. -/
  named : ∀ entry ∈ m.definitions,
    ∀ constant ∈ m.inlineConstantsIn (m.nameParts entry.1).path.dotted,
      [constant] ∉ m.enumNames entry.1 entry.2
  /-- The definitions without a namespace share their file with those of the namespace that
  is an empty segment. -/
  rooted : ∀ entry ∈ m.definitions, ∀ entry' ∈ m.definitions,
    (m.nameParts entry.1).path = ⟨[]⟩ → (m.nameParts entry'.1).path = ⟨[""]⟩ →
      ∀ path ∈ m.enumNames entry.1 entry.2, path ∉ m.enumNames entry'.1 entry'.2

variable {m : Model} {name name' : String} {d d' : Definition}

theorem nodup_enumPaths_iff (m : Model) (space : String) :
    (m.definitions.flatMap (m.inFile space m.enumPaths)).Nodup ↔
      (m.inlineConstantsIn space).Nodup ∧
      (m.definitions.flatMap (m.inFile space m.enumNames)).Nodup ∧
      ∀ constant ∈ m.inlineConstantsIn space,
        [constant] ∉ m.definitions.flatMap (m.inFile space m.enumNames) := by
  have hsplit : m.inFile space m.enumPaths = fun entry =>
      (m.inFile space m.inlineConstants entry).map (fun constant => [constant]) ++
        m.inFile space m.enumNames entry := by
    funext entry
    rw [inFile, inFile, inFile]
    split <;> rfl
  have hinjective : Function.Injective fun constant : String => [constant] :=
    fun _ _ h => List.singleton_inj.mp h
  rw [hsplit, ← (List.flatMap_append_perm ..).nodup_iff, ← List.map_flatMap, List.nodup_append,
    List.nodup_map_iff hinjective, List.forall_mem_map, inlineConstantsIn]
  refine and_congr_right fun _ => and_congr_right fun _ => forall₂_congr fun constant _ => ?_
  exact ⟨fun h hmem => h _ hmem rfl, fun h path hpath heq => h (heq ▸ hpath)⟩

theorem eq_of_mem_enumNames {path : List String} (h : path ∈ m.enumNames name d) :
    path = (m.nameParts name).scope ++ [(m.nameParts name).name] := by
  rw [enumNames] at h
  split at h
  · exact List.mem_singleton.mp h
  · cases h

/-- Two enums of one namespace have different places. -/
theorem eq_of_enumNames (hd : m.find? name = some d) (hd' : m.find? name' = some d')
    (hpath : (m.nameParts name).path = (m.nameParts name').path) {path : List String}
    (h : path ∈ m.enumNames name d) (h' : path ∈ m.enumNames name' d') : name = name' := by
  have hplace := (eq_of_mem_enumNames h).symm.trans (eq_of_mem_enumNames h')
  rw [← definitionName_of_defined hd, ← definitionName_of_defined hd', NameParts.definitionName,
    NameParts.definitionName, hpath, List.append_assoc, List.append_assoc, hplace]

/-- Definitions of one file are in one namespace, or one of them is in none and the other one
in the empty segment. -/
theorem path_cases (hd : m.find? name = some d) (hd' : m.find? name' = some d')
    (h : (m.nameParts name).path.dotted = (m.nameParts name').path.dotted) :
    (m.nameParts name).path = (m.nameParts name').path ∨
      (m.nameParts name).path = ⟨[]⟩ ∧ (m.nameParts name').path = ⟨[""]⟩ ∨
      (m.nameParts name).path = ⟨[""]⟩ ∧ (m.nameParts name').path = ⟨[]⟩ := by
  have hcases := Text.join_eq_cases '.' (fun s hs => dot_notMem_segment hd (by simp [hs]))
    (fun s hs => dot_notMem_segment hd' (by simp [hs])) h
  cases hp : (m.nameParts name).path
  cases hp' : (m.nameParts name').path
  rw [hp, hp'] at hcases
  simpa using hcases

theorem mem_inFile {β : Type} {space : String} {put : String → Definition → List β}
    {entry : String × Definition} {b : β} :
    b ∈ m.inFile space put entry ↔
      (m.nameParts entry.1).path.dotted = space ∧ b ∈ put entry.1 entry.2 := by
  rw [inFile, List.mem_ite_nil_right]

theorem EnumsApart.nodup_enumNames (h : m.EnumsApart) (space : String) :
    (m.definitions.flatMap (m.inFile space m.enumNames)).Nodup := by
  rw [nodup_definitions_flatMap]
  constructor
  · intro name d _
    rw [inFile, enumNames]
    split
    · split
      · exact List.nodup_singleton _
      · exact List.nodup_nil
    · exact List.nodup_nil
  · intro name d name' d' hd hd' hne path hpath hpath'
    obtain ⟨hspace, hpath⟩ := mem_inFile.mp hpath
    obtain ⟨hspace', hpath'⟩ := mem_inFile.mp hpath'
    have hentry := find?_eq_some_iff.mp hd
    have hentry' := find?_eq_some_iff.mp hd'
    rcases path_cases hd hd' (hspace.trans hspace'.symm) with hsame | ⟨hroot, hroot'⟩ | ⟨hroot', hroot⟩
    · exact hne (eq_of_enumNames hd hd' hsame hpath hpath')
    · exact h.rooted _ hentry _ hentry' hroot hroot' path hpath hpath'
    · exact h.rooted _ hentry' _ hentry hroot hroot' path hpath' hpath

/-- The constants of the enums of every file are distinct exactly if those names are apart that
nothing checks. -/
theorem nodup_enumPaths (m : Model) :
    (∀ space, (m.definitions.flatMap (m.inFile space m.enumPaths)).Nodup) ↔ m.EnumsApart := by
  constructor
  · intro h
    have hfile := fun space => (m.nodup_enumPaths_iff space).mp (h space)
    refine ⟨fun name _ => (hfile _).1, fun entry hentry constant hconstant hpath => ?_, ?_⟩
    · refine (hfile _).2.2 constant hconstant (List.mem_flatMap.mpr ⟨entry, hentry, ?_⟩)
      exact mem_inFile.mpr ⟨rfl, hpath⟩
    · intro entry hentry entry' hentry' hroot hroot' path hpath hpath'
      have hne : entry.1 ≠ entry'.1 := by
        intro heq
        rw [heq, hroot'] at hroot
        cases hroot
      have hdisjoint := (nodup_definitions_flatMap.mp (hfile "").2.1).2
        (find?_eq_some_iff.mpr hentry) (find?_eq_some_iff.mpr hentry') hne
      exact hdisjoint (mem_inFile.mpr ⟨by rw [hroot]; rfl, hpath⟩)
        (mem_inFile.mpr ⟨by rw [hroot']; rfl, hpath'⟩)
  · intro h space
    rw [nodup_enumPaths_iff]
    refine ⟨?_, h.nodup_enumNames space, fun constant hconstant hpath => ?_⟩
    · by_cases hnone : m.inlineConstantsIn space = []
      · rw [hnone]
        exact List.nodup_nil
      · obtain ⟨constant, hconstant⟩ := List.exists_mem_of_ne_nil _ hnone
        obtain ⟨entry, hentry, hconstant⟩ := List.mem_flatMap.mp hconstant
        obtain ⟨rfl, -⟩ := mem_inFile.mp hconstant
        exact h.inline entry.1 (Table.mem_names_of_mem hentry)
    · obtain ⟨entry, hentry, hmem⟩ := List.mem_flatMap.mp hpath
      obtain ⟨rfl, hnamed⟩ := mem_inFile.mp hmem
      exact h.named entry hentry constant hconstant hnamed

end Model

/-! ## The output for a model -/

/-- A file exports its enums where it declares their constants. -/
theorem Plan.enumTargets_of_sources {m : Model} {c : Config} {plan : Plan} {files sources : Store}
    (hplan : Plan.ofModel m = .ok plan) (hcollects : files.Collects c plan.emissions)
    (hcloses : List.Forall₂ SourceFile.Closes files sources) :
    ∀ file ∈ sources, file.enumStubs.map EnumStub.target =
      (plan.enumConstants file.path.dotted).map Prod.fst := by
  intro file hfile
  rw [(sources_records hcollects hcloses file hfile).1, enumConstants_eq hplan, List.map_map]
  rfl

/-- Every file declares the constants of its enums where its runtime stub exports them, and
they are distinct exactly if those names are apart that nothing checks.  The code has these
constants and no others. -/
theorem compile_enumPaths {m : Model} {c : Config} {o : Output} (h : compile m c = .ok o) :
    ∃ (plan : Plan) (files sources : Store), Plan.ofModel m = .ok plan ∧
      files.Collects c plan.emissions ∧ List.Forall₂ SourceFile.Closes files sources ∧
      o.files = baseFile :: plan.libraries.map Library.file ++ sources.map (SourceFile.file c) ∧
      (∀ file ∈ sources, file.enumStubs.map EnumStub.target =
        (plan.enumConstants file.path.dotted).map Prod.fst) ∧
      (∀ file ∈ sources, (plan.writtenEnums c file.path.dotted).map Prod.fst =
        (plan.enumConstants file.path.dotted).map Prod.fst) ∧
      ((∀ file ∈ sources, ((plan.enumConstants file.path.dotted).map Prod.fst).Nodup ∧
          (file.enumStubs.map EnumStub.target).Nodup) ↔ m.EnumsApart) := by
  obtain ⟨plan, hplan, hrender⟩ := compile_eq_ok h
  obtain ⟨sources, hsources, hfiles⟩ := Plan.render_eq_ok hrender
  obtain ⟨files, hcollects, hcloses⟩ := Plan.sources_collect hsources
  have hstubs := Plan.enumTargets_of_sources hplan hcollects hcloses
  refine ⟨plan, files, sources, hplan, hcollects, hcloses, hfiles, hstubs,
    fun file _ => plan.writtenEnums_paths c file.path.dotted, ?_⟩
  have hsources : sources.spaces = files.spaces := Store.map_eq_of_closes (fun _ _ => rfl) hcloses
  calc (∀ file ∈ sources, ((plan.enumConstants file.path.dotted).map Prod.fst).Nodup ∧
          (file.enumStubs.map EnumStub.target).Nodup)
      ↔ ∀ file ∈ sources, ((plan.enumConstants file.path.dotted).map Prod.fst).Nodup :=
        forall₂_congr fun file hfile => by rw [hstubs file hfile, and_self]
    _ ↔ ∀ space ∈ sources.spaces, ((plan.enumConstants space).map Prod.fst).Nodup := by
        rw [Store.spaces, List.forall_mem_map]
    _ ↔ ∀ file ∈ files, ((plan.enumConstants file.path.dotted).map Prod.fst).Nodup := by
        rw [hsources, Store.spaces, List.forall_mem_map]
    _ ↔ ∀ space, ((plan.enumConstants space).map Prod.fst).Nodup :=
        hcollects.forall_spaces
          (fun es => ((es.flatMap Emission.enumConstants).map Prod.fst).Nodup) List.nodup_nil
    _ ↔ m.EnumsApart := by
        simp only [Plan.enumPaths_eq hplan]
        exact m.nodup_enumPaths

/-- Books with editions, each with an enum that is written in place, and two enums of their
own. -/
def bookEditions : Model where
  definitions :=
    [("shop.Books", {
        kind := some .entity
        elements := some [
          ("ID", { type := some (.name "cds.UUID"), key := true }),
          ("status", {
            type := some (.name "cds.String")
            values := some [("open", ⟨none, none⟩)] })] }),
     ("shop.Books.Editions", {
        kind := some .entity
        elements := some [
          ("status", {
            type := some (.name "cds.String")
            values := some [("sold", ⟨none, none⟩)] })] }),
     ("shop.Books.State", {
        kind := some .type
        type := some (.name "cds.String")
        values := some [("lent", ⟨none, none⟩)] }),
     ("shop.Genre", {
        kind := some .type
        type := some (.name "cds.String")
        values := some [("crime", ⟨none, none⟩)] })]

theorem compile_enumPaths_bookEditions :
    ∃ (o : Output) (plan : Plan) (sources : Store), compile bookEditions {} = .ok o ∧
      Plan.ofModel bookEditions = .ok plan ∧ bookEditions.EnumsApart ∧
      o.files = baseFile :: sources.map (SourceFile.file {}) ∧
      (plan.enumConstants "shop").map Prod.fst =
        [["Book_status"], ["Edition_status"], ["Books", "State"], ["Genre"]] ∧
      ∀ file ∈ sources, ((plan.enumConstants file.path.dotted).map Prod.fst).Nodup ∧
        (file.enumStubs.map EnumStub.target).Nodup := by
  have hresult : (Plan.ofModel bookEditions).toOption.map (fun plan =>
      ((plan.enumConstants "shop").map Prod.fst, plan.libraries)) =
      some ([["Book_status"], ["Edition_status"], ["Books", "State"], ["Genre"]], []) := by
    decide +kernel
  have hapart : bookEditions.EnumsApart :=
    ⟨by decide +kernel, by decide +kernel, by decide +kernel⟩
  obtain ⟨plan, hplan⟩ := Except.exists_eq_ok (x := Plan.ofModel bookEditions) (by decide +kernel)
  rw [hplan] at hresult
  obtain ⟨hconstants, hlibraries⟩ := Prod.mk.inj (Option.some.inj hresult)
  obtain ⟨o, ho⟩ := compile_ok {} hplan
  obtain ⟨plan', files, sources, hplan', -, -, hfiles, -, -, hdistinct⟩ := compile_enumPaths ho
  obtain rfl : plan = plan' := Except.ok.inj (hplan.symm.trans hplan')
  rw [hlibraries] at hfiles
  exact ⟨o, plan, sources, ho, hplan, hapart, hfiles, hconstants, hdistinct.mpr hapart⟩

/-- Books, and books that stand in the orders, each with a status. -/
def bookOrders : Model where
  definitions :=
    [("shop.Books", {
        kind := some .entity
        elements := some [
          ("ID", { type := some (.name "cds.UUID"), key := true }),
          ("status", {
            type := some (.name "cds.String")
            values := some [("open", ⟨none, none⟩)] })] }),
     ("shop.Orders", {
        kind := some .entity
        elements := some [("ID", { type := some (.name "cds.UUID"), key := true })] }),
     ("shop.Orders.Books", {
        kind := some .entity
        elements := some [
          ("ID", { type := some (.name "cds.UUID"), key := true }),
          ("status", {
            type := some (.name "cds.String")
            values := some [("sold", ⟨none, none⟩)] })] })]

/-- Both give the same constant, once for each status, and nothing is found about it. -/
theorem bookStatus_clash :
    ∃ (o : Output) (plan : Plan) (file source : SourceFile), compile bookOrders {} = .ok o ∧
      o.diagnostics = [] ∧ Plan.ofModel bookOrders = .ok plan ∧
      Store.Collects {} plan.emissions [file] ∧ file.Closes source ∧
      o.files = [baseFile, source.file {}] ∧
      (plan.enumConstants source.path.dotted).map Prod.fst = [["Book_status"], ["Book_status"]] ∧
      (plan.writtenEnums {} source.path.dotted).map Prod.fst =
        [["Book_status"], ["Book_status"]] ∧
      source.enumStubs.map EnumStub.target = [["Book_status"], ["Book_status"]] ∧
      ¬ ((plan.enumConstants source.path.dotted).map Prod.fst).Nodup ∧
      ¬ (source.enumStubs.map EnumStub.target).Nodup := by
  have hresult : (Plan.ofModel bookOrders).toOption.map (fun plan =>
      (plan.fileSpaces, (plan.enumConstants "shop").map Prod.fst, plan.libraries,
        plan.diagnostics)) =
      some (["shop"], [["Book_status"], ["Book_status"]], [], []) := by
    decide +kernel
  obtain ⟨plan, hplan⟩ := Except.exists_eq_ok (x := Plan.ofModel bookOrders) (by decide +kernel)
  rw [hplan] at hresult
  simp only [Except.toOption, Option.map_some, Option.some.injEq, Prod.mk.injEq] at hresult
  obtain ⟨hfileSpaces, hconstants, hlibraries, hdiagnostics⟩ := hresult
  obtain ⟨o, file, source, ho, hoDiagnostics, hcollects, hclosed, hdotted, hfiles⟩ :=
    compile_oneFile {} hplan hfileSpaces hlibraries
  have hsource : source.path.dotted = "shop" := by rw [hclosed.rest, ← hdotted]
  rw [← hsource] at hconstants
  have htargets : source.enumStubs.map EnumStub.target = [["Book_status"], ["Book_status"]] := by
    rw [Plan.enumTargets_of_sources hplan hcollects (.cons hclosed .nil) source List.mem_cons_self,
      hconstants]
  refine ⟨o, plan, file, source, ho, hoDiagnostics.trans hdiagnostics, hplan, hcollects, hclosed,
    hfiles, hconstants, (plan.writtenEnums_paths {} _).trans hconstants, htargets, ?_, ?_⟩
  · rw [hconstants]
    decide
  · rw [htargets]
    decide

end SchemaTypes
