import SchemaTypes.Proofs.Code.Contents
import SchemaTypes.Proofs.Name
import SchemaTypes.Proofs.Stub.Statements
import SchemaTypes.Proofs.Visit

/-!
# Parents are exported first

What stands in other definitions is exported below them.  The namespace of a
definition goes as far for the definitions around it as for itself
(`Model.nameParts_around`), so they belong to the same file.

The runtime exports entities, enums and operations, and nothing else
(`Step.emission_exports`).  A definition of any other kind, or a segment that is not
defined, leaves a gap in front of what stands in it.  Where there is no such gap
(`Model.Enclosed`), every entity comes after the entities around it
(`Plan.entityTargets_prefixesFirst`), enums come after them
(`Plan.enumTargets_prefixesFirst`), and direct stubs run to their end
(`compile_parentsFirst`).  The lines of an address show such a gap
(`addressLines_unparented`).
-/

namespace SchemaTypes

/-! ## Enclosing definitions -/

/-- The full name of the definition that the first names of the scope lead to. -/
def NameParts.around (n : NameParts) (k : Nat) : String :=
  Text.join "." (n.path.segments ++ n.scope.take k)

namespace Model

variable {m : Model}

/-- A namespace ends where it does as long as something comes behind it. -/
theorem splitNamespace_take {segment next : String} {front more : List String} :
    ∀ taken : List String,
      m.splitNamespace taken (front ++ segment :: next :: more) =
        (taken ++ front, segment :: next :: more) → ∀ k,
      m.splitNamespace taken (front ++ (segment :: next :: more).take (k + 1)) =
        (taken ++ front, (segment :: next :: more).take (k + 1)) := by
  induction front with
  | nil =>
    intro taken h k
    cases k with
    | zero => simp [splitNamespace]
    | succ k =>
      simp only [List.nil_append, List.append_nil, List.take_succ_cons] at h ⊢
      rw [splitNamespace] at h ⊢
      split at h
      · -- The namespace would have gone on behind the first segment.
        have hlonger : taken ++ [segment] <+:
            (m.splitNamespace (taken ++ [segment]) (next :: more)).1 := starts_splitNamespace
        rw [h] at hlonger
        exact absurd hlonger.length_le (by simp)
      · next hstops => rw [if_neg hstops]
  | cons first rest ih =>
    intro taken h k
    obtain ⟨second, tail, hrest⟩ :
        ∃ second tail, rest ++ segment :: next :: more = second :: tail :=
      List.exists_cons_of_ne_nil (by simp)
    obtain ⟨second', tail', hrest'⟩ :
        ∃ second' tail', rest ++ (segment :: next :: more).take (k + 1) = second' :: tail' :=
      List.exists_cons_of_ne_nil (by simp)
    rw [List.cons_append, hrest, splitNamespace] at h
    rw [List.cons_append, hrest', splitNamespace]
    split at h
    · next hgoes =>
      rw [if_pos hgoes, ← hrest']
      rw [← hrest] at h
      have hstep := ih (taken ++ [first]) (by simpa using h) k
      simpa using hstep
    · have hlength := congrArg (fun result => result.1.length) h
      simp at hlength

variable {name : String} {d d' : Definition}

theorem splitNamespace_of_defined (hd : m.find? name = some d) :
    m.splitNamespace [] (Text.splitOn '.' name) =
      ((m.nameParts name).path.segments,
        (m.nameParts name).scope ++ [(m.nameParts name).name]) := by
  have hspace : (m.splitNamespace [] (Text.splitOn '.' name)).1 =
      (m.nameParts name).path.segments := rfl
  have happend := m.splitNamespace_append (Text.splitOn '.' name) []
  rw [hspace, List.nil_append] at happend
  refine Prod.ext hspace ((List.append_right_inj (m.nameParts name).path.segments).mp ?_)
  rw [happend, ← segments_of_defined hd, List.append_assoc]

/-- The segments of a name around a defined one. -/
theorem splitOn_around (hd : m.find? name = some d) {k : Nat} (hpos : 0 < k)
    (hk : k ≤ (m.nameParts name).scope.length) :
    Text.splitOn '.' ((m.nameParts name).around k) =
      (m.nameParts name).path.segments ++ (m.nameParts name).scope.take k := by
  have hdot : "." = String.singleton '.' := rfl
  rw [NameParts.around, hdot]
  refine Text.splitOn_join ?_ fun s hs => Text.notMem_of_mem_splitOn (s := name) ?_
  · intro hempty
    have hlength := congrArg List.length (List.append_eq_nil_iff.mp hempty).2
    rw [List.length_take, List.length_nil] at hlength
    omega
  · rw [← segments_of_defined hd]
    rcases List.mem_append.mp hs with hs | hs
    · simp [hs]
    · simp [List.mem_of_mem_take hs]

/-- A definition around another one stands in the same namespace. -/
theorem nameParts_around (hd : m.find? name = some d) {k : Nat} (hpos : 0 < k)
    (hk : k ≤ (m.nameParts name).scope.length)
    (hd' : m.find? ((m.nameParts name).around k) = some d') :
    (m.nameParts ((m.nameParts name).around k)).path = (m.nameParts name).path ∧
      (m.nameParts ((m.nameParts name).around k)).scope ++
        [(m.nameParts ((m.nameParts name).around k)).name] = (m.nameParts name).scope.take k := by
  obtain ⟨segment, next, more, hrest⟩ : ∃ segment next more,
      (m.nameParts name).scope ++ [(m.nameParts name).name] = segment :: next :: more := by
    obtain ⟨segment, scope, hscope⟩ :=
      List.exists_cons_of_ne_nil (List.ne_nil_of_length_pos (Nat.lt_of_lt_of_le hpos hk))
    obtain ⟨next, more, hmore⟩ :=
      List.exists_cons_of_ne_nil (l := scope ++ [(m.nameParts name).name]) (by simp)
    exact ⟨segment, next, more, by rw [hscope, List.cons_append, hmore]⟩
  obtain ⟨k, rfl⟩ : ∃ j, k = j + 1 := ⟨k - 1, by omega⟩
  have htake : (segment :: next :: more).take (k + 1) = (m.nameParts name).scope.take (k + 1) := by
    rw [← hrest, List.take_append_of_le_length hk]
  have hsplit := splitNamespace_of_defined hd
  rw [← segments_of_defined hd, List.append_assoc, hrest] at hsplit
  have hstops := splitNamespace_take [] (by simpa using hsplit) k
  rw [htake, ← splitOn_around hd hpos hk, splitNamespace_of_defined hd', Prod.mk.injEq] at hstops
  refine ⟨?_, hstops.2⟩
  cases hp : (m.nameParts ((m.nameParts name).around (k + 1))).path
  cases hq : (m.nameParts name).path
  rw [hp, hq] at hstops
  exact congrArg _ hstops.1

/-- A definition around one that is not below `localized` is not either. -/
theorem isLocalized_around (hd : m.find? name = some d) (hlocal : Step.isLocalized name = false)
    (k : Nat) : Step.isLocalized ((m.nameParts name).around k) = false := by
  have hprefix : ((m.nameParts name).around k).toList <+: name.toList := by
    have hparts : name = Text.join "." ((m.nameParts name).path.segments ++
        (m.nameParts name).scope.take k ++
          ((m.nameParts name).scope.drop k ++ [(m.nameParts name).name])) := by
      conv_lhs => rw [← definitionName_of_defined hd, NameParts.definitionName]
      conv_lhs => rw [← List.take_append_drop k (m.nameParts name).scope]
      simp only [List.append_assoc]
    conv_rhs => rw [hparts]
    exact Text.isPrefix_join_append _ _ _
  by_contra hcontra
  rw [Bool.not_eq_false, Step.isLocalized, List.isPrefixOf_iff_prefix] at hcontra
  rw [Step.isLocalized, ← Bool.not_eq_true, List.isPrefixOf_iff_prefix] at hlocal
  exact hlocal (hcontra.trans hprefix)

end Model

/-! ## What the runtime exports -/

/-- A type that is an enum. -/
def Definition.isEnumType (d : Definition) : Bool :=
  d.isKind .type && !d.isStructure && d.isEnum

/-- The record of an entity. -/
def Model.record (m : Model) (name : String) : InflectionRecord :=
  ⟨(m.nameParts name).scope, (m.inflection (m.nameParts name)).singular,
    (m.inflection (m.nameParts name)).plural, (m.nameParts name).name⟩

@[simp] theorem Model.scope_record (m : Model) (name : String) :
    (m.record name).scope = (m.nameParts name).scope := rfl

@[simp] theorem Model.runtimeName_record (m : Model) (name : String) :
    (m.record name).runtimeName = (m.nameParts name).name := rfl

theorem Naming.dot_notMem_sanitize (name : String) : '.' ∉ (Naming.sanitize name).toList := by
  have hsafe : ∀ c ∈ name.toList.map (fun c => if Naming.isIdentifierPart c then c else '_'),
      c ≠ '.' := by
    intro c hc
    obtain ⟨c', -, rfl⟩ := List.mem_map.mp hc
    split
    · next hpart =>
      rintro rfl
      exact absurd hpart (by decide)
    · decide
  intro hmem
  rw [Naming.sanitize] at hmem
  split at hmem
  · rw [String.toList_append] at hmem
    rcases List.mem_append.mp hmem with h | h
    · exact absurd h (by decide)
    · rw [String.toList_ofList] at h
      exact hsafe _ h rfl
  · rw [String.toList_ofList] at hmem
    exact hsafe _ hmem rfl

/-- An entity is exported under its own name. -/
theorem InflectionRecord.mem_targets (r : InflectionRecord) :
    r.scope ++ [r.runtimeName] ∈ r.targets := by
  by_cases hnames : r.runtimeName = r.singular ∨ r.runtimeName = r.plural
  · rcases hnames with h | h <;> simp [targets, aliases, Alias.target, h]
  · simp [targets, aliases, Alias.target, hnames]

/-- What an entity is exported under lies in its scope. -/
theorem InflectionRecord.targets_scope {r : InflectionRecord} {target : List String}
    (h : target ∈ r.targets) : ∃ name, target = r.scope ++ [name] := by
  obtain ⟨a, ha, rfl⟩ := List.mem_map.mp h
  have hscope : a.scope = r.scope := by
    rcases List.mem_append.mp ha with ha | ha
    · rcases List.mem_cons.mp ha with rfl | ha
      · rfl
      · rw [List.mem_singleton.mp ha]
    · split at ha
      · cases ha
      · rw [List.mem_singleton.mp ha]
  exact ⟨a.name, by rw [Alias.target, hscope]⟩

namespace Step

variable {m : Model} {name : String} {d : Definition} {kind : Kind} {s s' : Session} {e : Emission}

/-- An enum that is written in place has its constant named after the property. -/
theorem bodyOf_constants {o : ClassOwner} :
    ∀ {elements : Table Definition} {body : ClassBody} {s s' : Session},
      bodyOf m o elements s = (.ok body, s') → ∀ e ∈ body.enums, e.constant = o.hint e.property
  | [], _, s, _, h => by
    obtain ⟨rfl, rfl⟩ := pure_eq_ok h
    simp
  | (property, element) :: rest, _, s, _, h => by
    rcases bodyOf_cons_eq_ok h with ⟨-, h⟩ | ⟨-, first, t, others, hfirst, hothers, rfl⟩
    · exact bodyOf_constants h
    · obtain ⟨type, u, foreignKeys, -, -, rfl⟩ := elementBody_eq_ok hfirst
      intro e he
      rcases List.mem_append.mp he with he | he
      · simp only [inlineEnum] at he
        split at he
        · rw [List.mem_singleton.mp he]
        · cases he
      · exact bodyOf_constants hothers e he

theorem target_stub {enum : InlineEnum} (h : '.' ∉ enum.constant.toList) :
    (InlineEnum.stub enum).target = [enum.constant] :=
  @Text.splitOn_join '.' _ (List.cons_ne_nil enum.constant []) (List.forall_mem_singleton.mpr h)

/-- The constants of a structured definition are exported under one name each. -/
theorem structured_enumStubs (h : structured m name d kind s = (.ok e, s')) :
    ∀ stub ∈ e.enumStubs, stub.target.length = 1 := by
  obtain ⟨_, _, -, _, -, a, enums, haspect, rfl⟩ := structured_eq_ok h
  obtain ⟨_, _, -, body, _, hbody, _, -, rfl, -⟩ := aspect_eq_ok haspect
  intro stub hstub
  obtain ⟨enum, henum, rfl⟩ := List.mem_map.mp hstub
  rw [target_stub (by rw [bodyOf_constants hbody enum henum]; exact Naming.dot_notMem_sanitize _)]
  rfl

/-- What the runtime exports for a definition. -/
structure Exports (m : Model) (name : String) (d : Definition) (e : Emission) : Prop where
  path : e.path = (m.nameParts name).path ∨ d.kind = some .service
  inflections : e.inflections = if d.kind = some .entity then [m.record name] else []
  enumStubs : if d.isEnumType = true then
      e.enumStubs.map EnumStub.target = [(m.nameParts name).scope ++ [(m.nameParts name).name]]
    else ∀ stub ∈ e.enumStubs, stub.target.length = 1

theorem emission_exports (hd : m.find? name = some d)
    (h : emission m name d s = (.ok (some e), s')) :
    isLocalized name = false ∧ Exports m name d e := by
  rcases emission_eq_ok h with ⟨-, hnone, -⟩ | ⟨kind, made?, hlocal, hkind, hmade, hmap⟩
  · cases hnone
  obtain ⟨made, rfl, rfl⟩ := Option.map_eq_some_iff.mp hmap.symm
  refine ⟨hlocal, ?_⟩
  cases hmade with
  | structured hkinds he =>
    have hone := structured_enumStubs he
    have hother : d.isEnumType = false := by
      rcases hkinds with rfl | rfl | ⟨rfl, hstructure⟩
      · simp [Definition.isEnumType, Definition.isKind, hkind]
      · simp [Definition.isEnumType, Definition.isKind, hkind]
      · simp [Definition.isEnumType, hstructure]
    obtain ⟨_, _, -, _, -, a, enums, -, rfl⟩ := structured_eq_ok he
    refine ⟨Or.inl rfl, ?_, by simpa [hother] using hone⟩
    rw [hkind]
    simp only [entityRecord, Model.record, Option.some.injEq]
  | plainType hplain he =>
    rcases plainType_eq_ok he with ⟨-, members, henum, rfl⟩ | ⟨type, ⟨henum, -⟩, rfl⟩
    · have henumType : d.isEnumType = true := by
        simp [Definition.isEnumType, Definition.isKind, hkind, hplain, henum]
      refine ⟨Or.inl rfl, by simp [hkind], ?_⟩
      rw [if_pos henumType, List.map_singleton, EnumStub.target]
      have hdot : "." = String.singleton '.' := rfl
      rw [hdot]
      refine congrArg (fun target => [target]) (Text.splitOn_join (by simp) fun p hp => ?_)
      refine Text.notMem_of_mem_splitOn (s := name) ?_
      rw [← Model.segments_of_defined hd, List.append_assoc]
      exact List.mem_append_right _ hp
    · exact ⟨Or.inl rfl, by simp [hkind], by simp [Definition.isEnumType, henum]⟩
  | operation hkinds he =>
    obtain ⟨_, -, rfl⟩ := operation_eq_ok he
    have hother : kind ≠ .entity ∧ kind ≠ .type := by
      constructor <;> rintro rfl <;> cases hkinds
    exact ⟨Or.inl rfl, by simp [hkind, hother.1],
      by simp [Definition.isEnumType, Definition.isKind, hkind, hother.2]⟩
  | event he =>
    obtain ⟨_, -, rfl⟩ := event_eq_ok he
    exact ⟨Or.inl rfl, by simp [hkind], by simp [Definition.isEnumType, Definition.isKind, hkind]⟩
  | service =>
    exact ⟨Or.inr hkind, by simp [hkind, Model.serviceEmission],
      by simp [Definition.isEnumType, Definition.isKind, hkind, Model.serviceEmission]⟩

end Step

/-! ## Exports of a file -/

namespace Model

/-- A definition stands before another one in the document. -/
def Precedes (m : Model) (first name : String) : Prop :=
  ∃ front, front <+: Table.names m.definitions ∧ first ∈ front ∧ name ∉ front

/-- What is exported is enclosed by definitions that are exported before it: an entity
by entities, and an enum by entities and by enums that come earlier. -/
structure Enclosed (m : Model) : Prop where
  entities : ∀ name d, m.find? name = some d → Step.isLocalized name = false →
    d.kind = some .entity → ∀ k, 0 < k → k ≤ (m.nameParts name).scope.length →
      m.kindOf? ((m.nameParts name).around k) = some .entity
  enums : ∀ name d, m.find? name = some d → Step.isLocalized name = false →
    d.isEnumType = true → ∀ k, 0 < k → k ≤ (m.nameParts name).scope.length →
      m.kindOf? ((m.nameParts name).around k) = some .entity ∨
        (∃ d', m.find? ((m.nameParts name).around k) = some d' ∧ d'.isEnumType = true) ∧
          m.Precedes ((m.nameParts name).around k) name

/-- What stands before a definition was visited before it. -/
theorem Precedes.mem_visited {m : Model} {first name : String} {d d' : Definition}
    {visited later : Table Definition} (h : m.Precedes first name)
    (hsplit : m.definitions = visited ++ (name, d) :: later) (hfirst : m.find? first = some d') :
    (first, d') ∈ visited := by
  suffices hnames : first ∈ Table.names visited by
    obtain ⟨entry, hentry, rfl⟩ := List.mem_map.mp hnames
    have hfound : m.find? entry.1 = some entry.2 := by
      rw [Model.find?_eq_some_iff, hsplit]
      exact List.mem_append_left _ hentry
    obtain rfl := Model.eq_of_find? hfound hfirst
    exact hentry
  obtain ⟨front, hfront, hmem, hname⟩ := h
  have hvisited : Table.names visited ++ [name] <+: Table.names m.definitions := by
    rw [hsplit]
    exact ⟨Table.names later, by simp [Table.names]⟩
  rcases List.prefix_or_prefix_of_prefix hfront hvisited with hshort | hlong
  · rcases List.prefix_concat_iff.mp hshort with rfl | hshort
    · exact absurd (by simp) hname
    · exact hshort.subset hmem
  · exact absurd (hlong.subset (by simp)) hname

end Model

namespace Plan

variable {m : Model} {plan : Plan} {space : String}

/-- The records of a namespace. -/
def records (plan : Plan) (space : String) : List InflectionRecord :=
  (Store.emissionsOf space plan.emissions).flatMap (·.inflections)

/-- The paths that a namespace exports, in order. -/
def exportTargets (plan : Plan) (space : String) : List (List String) :=
  SourceFile.entityTargets (plan.records space) ++
    ((Store.emissionsOf space plan.emissions).flatMap (·.enumStubs)).map EnumStub.target ++
    ((Store.emissionsOf space plan.emissions).flatMap (·.operationNames)).map fun entry => [entry.1]

/-- The emission of a definition that has a file is among those of its namespace. -/
theorem exists_emission {visited : Table Definition} {es : List Emission} {s s' : Session}
    {name : String} {d : Definition} {path : Path}
    (hrun : Step.emissions m visited s = (.ok es, s')) (hvisited : (name, d) ∈ visited)
    (hd : m.find? name = some d) (hpath : m.fileSpace? name d = some path) :
    ∃ e ∈ Store.emissionsOf path.dotted es, Step.Exports m name d e := by
  obtain ⟨e?, t, t', hemission, hmem⟩ := Step.emission_of_mem hrun hvisited
  have hspace := Step.emission_path hemission
  rw [hpath] at hspace
  obtain ⟨e, rfl, rfl⟩ := Option.map_eq_some_iff.mp hspace
  exact ⟨e, List.mem_filter.mpr ⟨hmem e rfl, by simp⟩, (Step.emission_exports hd hemission).2⟩

theorem fileSpace?_entity {name : String} {d : Definition} (hlocal : Step.isLocalized name = false)
    (hkind : d.kind = some .entity) : m.fileSpace? name d = some (m.nameParts name).path := by
  simp [Model.fileSpace?, hlocal, hkind]

theorem fileSpace?_enumType {name : String} {d : Definition}
    (hlocal : Step.isLocalized name = false) (henum : d.isEnumType = true) :
    m.fileSpace? name d = some (m.nameParts name).path := by
  have hkind : d.kind = some .type := by
    simp only [Definition.isEnumType, Definition.isKind, Bool.and_eq_true, beq_iff_eq] at henum
    exact henum.1.1
  simp [Model.fileSpace?, hlocal, hkind]

/-- The records of a namespace are those of its entities. -/
theorem mem_records_iff (hplan : Plan.ofModel m = .ok plan) {r : InflectionRecord} :
    r ∈ plan.records space ↔ ∃ name d, m.find? name = some d ∧ Step.isLocalized name = false ∧
      d.kind = some .entity ∧ (m.nameParts name).path.dotted = space ∧ r = m.record name := by
  obtain ⟨_, _, -, hrun, -⟩ := ofModel_eq_ok hplan
  rw [records, List.mem_flatMap]
  constructor
  · rintro ⟨e, he, hr⟩
    obtain ⟨he, hspace⟩ := List.mem_filter.mp he
    obtain ⟨name, d, t, t', hmem, hemission⟩ := Step.emission_of_mem_emissions hrun he
    have hd := Model.find?_eq_some_iff.mpr hmem
    obtain ⟨hlocal, hexports⟩ := Step.emission_exports hd hemission
    rw [hexports.inflections] at hr
    split at hr
    · next hkind =>
      obtain rfl := List.mem_singleton.mp hr
      have hpath : e.path = (m.nameParts name).path :=
        hexports.path.resolve_right (by simp [hkind])
      exact ⟨name, d, hd, hlocal, hkind, hpath ▸ of_decide_eq_true hspace, rfl⟩
    · cases hr
  · rintro ⟨name, d, hd, hlocal, hkind, rfl, rfl⟩
    obtain ⟨e, he, hexports⟩ := exists_emission hrun (Model.find?_eq_some_iff.mp hd) hd
      (fileSpace?_entity hlocal hkind)
    refine ⟨e, he, ?_⟩
    rw [hexports.inflections, if_pos hkind]
    exact List.mem_singleton.mpr rfl

/-- An entity around a definition of a namespace is exported there under its own name. -/
theorem exported_entity (hplan : Plan.ofModel m = .ok plan) {name : String} {d : Definition}
    (hd : m.find? name = some d) (hlocal : Step.isLocalized name = false)
    (hpath : (m.nameParts name).path.dotted = space) {k : Nat} (hpos : 0 < k)
    (hk : k ≤ (m.nameParts name).scope.length)
    (hkind : m.kindOf? ((m.nameParts name).around k) = some .entity) :
    ∃ parent ∈ plan.records space, parent.scope.length + 1 = k ∧
      (m.nameParts name).scope.take k ∈ parent.targets := by
  obtain ⟨d', hd', hkind⟩ := Option.bind_eq_some_iff.mp hkind
  obtain ⟨hspace, hscope⟩ := Model.nameParts_around hd hpos hk hd'
  refine ⟨m.record ((m.nameParts name).around k), (mem_records_iff hplan).mpr
    ⟨_, d', hd', Model.isLocalized_around hd hlocal k, hkind, by rw [hspace, hpath], rfl⟩, ?_, ?_⟩
  · have hlength := congrArg List.length hscope
    rw [List.length_append, List.length_singleton, List.length_take] at hlength
    rw [Model.scope_record]
    exact hlength.trans (Nat.min_eq_left hk)
  · rw [← hscope, ← Model.scope_record, ← Model.runtimeName_record]
    exact InflectionRecord.mem_targets _

/-- The entities around one have shorter scopes, so they come before it. -/
theorem entityTargets_prefixesFirst (hplan : Plan.ofModel m = .ok plan) (henclosed : m.Enclosed)
    (space : String) : PrefixesFirst (SourceFile.entityTargets (plan.records space)) := by
  refine PrefixesFirst.nil.append_flatMap ?_
  intro before r after hsplit target htarget k hpos hk
  have hr : r ∈ plan.records space := by
    rw [← SourceFile.mem_byScope, hsplit]
    simp
  obtain ⟨name, d, hd, hlocal, hkind, hpath, rfl⟩ := (mem_records_iff hplan).mp hr
  obtain ⟨last, rfl⟩ := InflectionRecord.targets_scope htarget
  have hscope : k ≤ (m.record name).scope.length := by
    rw [List.length_append, List.length_singleton] at hk
    exact Nat.lt_succ_iff.mp hk
  obtain ⟨parent, hparent, hlength, hexported⟩ := exported_entity hplan hd hlocal hpath
    hpos hscope (henclosed.entities name d hd hlocal hkind k hpos hscope)
  rw [List.nil_append, List.take_append_of_le_length hscope]
  exact List.mem_flatMap.mpr
    ⟨parent, SourceFile.mem_before_of_shorter hsplit hparent (by omega), hexported⟩

/-- An emission of a namespace comes from a definition, and the ones before it from the
definitions before that one. -/
theorem emissionsOf_split {before after : List Emission} {e : Emission}
    (hplan : Plan.ofModel m = .ok plan)
    (hsplit : Store.emissionsOf space plan.emissions = before ++ e :: after) :
    ∃ visited name d later front s t t', m.definitions = visited ++ (name, d) :: later ∧
      Step.emissions m visited s = (.ok front, t) ∧ before = Store.emissionsOf space front ∧
        Step.emission m name d t = (.ok (some e), t') ∧ e.path.dotted = space := by
  obtain ⟨_, _, -, hrun, -⟩ := ofModel_eq_ok hplan
  obtain ⟨front, back, hemissions, rfl, hback⟩ := List.filter_eq_append_iff.mp hsplit
  obtain ⟨skipped, rest, rfl, hskipped, hspace, -⟩ := List.filter_eq_cons_iff.mp hback
  rw [hemissions, ← List.append_assoc] at hrun
  obtain ⟨visited, name, d, later, t, t', hdefinitions, hvisited, hemission⟩ :=
    Step.emissions_split hrun
  have hnone : Store.emissionsOf space skipped = [] := List.filter_eq_nil_iff.mpr hskipped
  refine ⟨visited, name, d, later, _, _, t, t', hdefinitions, hvisited, ?_, hemission,
    of_decide_eq_true hspace⟩
  rw [Store.emissionsOf, List.filter_append]
  exact ((congrArg _ hnone).trans (List.append_nil _)).symm

/-- The definitions around an enum are entities, or enums that were visited before. -/
theorem enumTargets_prefixesFirst (hplan : Plan.ofModel m = .ok plan) (henclosed : m.Enclosed)
    (space : String) :
    PrefixesFirst (SourceFile.entityTargets (plan.records space) ++
      ((Store.emissionsOf space plan.emissions).flatMap (·.enumStubs)).map EnumStub.target) := by
  rw [List.map_flatMap]
  refine (entityTargets_prefixesFirst hplan henclosed space).append_flatMap ?_
  intro before e after hsplit target htarget k hpos hk
  obtain ⟨visited, name, d, later, front, s, t, t', hdefinitions, hvisited, rfl, hemission,
    hspace⟩ := emissionsOf_split hplan hsplit
  have hd : m.find? name = some d := Model.find?_eq_some_iff.mpr (by rw [hdefinitions]; simp)
  obtain ⟨hlocal, hexports⟩ := Step.emission_exports hd hemission
  have hstubs := hexports.enumStubs
  by_cases henum : d.isEnumType = true
  case neg =>
    rw [if_neg henum] at hstubs
    obtain ⟨stub, hstub, rfl⟩ := List.mem_map.mp htarget
    have hone := hstubs stub hstub
    omega
  rw [if_pos henum] at hstubs
  rw [hstubs, List.mem_singleton] at htarget
  subst htarget
  have hscope : k ≤ (m.nameParts name).scope.length := by
    rw [List.length_append, List.length_singleton] at hk
    exact Nat.lt_succ_iff.mp hk
  have hpath : (m.nameParts name).path.dotted = space := by
    have hown := Step.emission_path hemission
    rw [fileSpace?_enumType hlocal henum] at hown
    rw [← Option.some.inj hown]
    exact hspace
  rw [List.take_append_of_le_length hscope]
  rcases henclosed.enums name d hd hlocal henum k hpos hscope with
    hkind | ⟨⟨d', hd', henum'⟩, hprecedes⟩
  · obtain ⟨parent, hparent, -, hexported⟩ :=
      exported_entity hplan hd hlocal hpath hpos hscope hkind
    exact List.mem_append_left _
      (List.mem_flatMap.mpr ⟨parent, SourceFile.mem_byScope.mpr hparent, hexported⟩)
  · obtain ⟨hspace', hscope'⟩ := Model.nameParts_around hd hpos hscope hd'
    obtain ⟨e', he', hexports'⟩ := exists_emission hvisited
      (hprecedes.mem_visited hdefinitions hd') hd'
      (fileSpace?_enumType (Model.isLocalized_around hd hlocal k) henum')
    have hstubs' := hexports'.enumStubs
    rw [if_pos henum', hscope'] at hstubs'
    rw [hspace', hpath] at he'
    exact List.mem_append_right _
      (List.mem_flatMap.mpr ⟨e', he', hstubs' ▸ List.mem_singleton.mpr rfl⟩)

/-- What a namespace exports comes after what it is nested in. -/
theorem exportTargets_prefixesFirst (hplan : Plan.ofModel m = .ok plan) (henclosed : m.Enclosed)
    (space : String) : PrefixesFirst (plan.exportTargets space) := by
  refine (enumTargets_prefixesFirst hplan henclosed space).append fun target htarget k hpos hk => ?_
  -- Operations are exported at the top.
  obtain ⟨entry, -, rfl⟩ := List.mem_map.mp htarget
  rw [List.length_singleton] at hk
  omega

/-- The stubs of a plan export what its namespaces export. -/
theorem exportTargets_sources {c : Config} {sources : Store} (h : plan.sources c = .ok sources) :
    sources.map SourceFile.exportTargets = plan.fileSpaces.map plan.exportTargets := by
  refine map_sources (f := SourceFile.exportTargets) (g := fun es =>
    SourceFile.entityTargets (es.flatMap (·.inflections)) ++
      (es.flatMap (·.enumStubs)).map EnumStub.target ++
      (es.flatMap (·.operationNames)).map fun entry => [entry.1]) (fun _ _ => rfl) ?_ h
  intro file es hcollects
  rw [SourceFile.exportTargets, hcollects.inflections, hcollects.enumStubs,
    hcollects.operationNames]

end Plan

/-! ## Stubs -/

/-- Where definitions are enclosed by what the runtime exports, no direct stub assigns
a property of something that was not exported before. -/
theorem compile_parentsFirst {m : Model} {c : Config} {o : Output} (h : compile m c = .ok o)
    (hdirect : c.entitiesProxy = false) (henclosed : m.Enclosed) :
    ∃ plan sources, Plan.ofModel m = .ok plan ∧ plan.sources c = .ok sources ∧
      o.files = baseFile :: plan.libraries.map Library.file ++ sources.map (SourceFile.file c) ∧
      ∀ file ∈ sources, (file.file c).runtime = some (stubText file.statements) ∧
        ParentsFirst file.statements ∧ stubRuns [] file.statements = true := by
  obtain ⟨plan, hplan, hrender⟩ := compile_eq_ok h
  obtain ⟨sources, hsources, hfiles⟩ := Plan.render_eq_ok hrender
  refine ⟨plan, sources, hplan, hsources, hfiles, fun file hfile => ?_⟩
  have hfirst : ParentsFirst file.statements := by
    have hmem := List.mem_map_of_mem (f := SourceFile.exportTargets) hfile
    rw [Plan.exportTargets_sources hsources] at hmem
    obtain ⟨space, -, hspace⟩ := List.mem_map.mp hmem
    rw [parentsFirst_iff, SourceFile.statements_targets, ← hspace]
    exact Plan.exportTargets_prefixesFirst hplan henclosed space
  refine ⟨?_, hfirst, stubRuns_iff_parentsFirst.mpr hfirst⟩
  rw [SourceFile.file, hdirect, SourceFile.runtimeStub_direct]

/-- Notes on the items of orders, and the states of an order, before the orders. -/
def orderNotes : Model where
  definitions :=
    [("shop.Orders.Items.Notes", {
        kind := some .entity
        elements := some [("text", { type := some (.name "cds.String"), key := true })] }),
     ("shop.Orders.State", {
        kind := some .type
        type := some (.name "cds.String")
        values := some [("open", ⟨none, none⟩), ("done", ⟨none, none⟩)] }),
     ("shop.Orders.Items", {
        kind := some .entity
        elements := some [("pos", { type := some (.name "cds.Integer"), key := true })] }),
     ("shop.Orders", {
        kind := some .entity
        elements := some [("ID", { type := some (.name "cds.UUID"), key := true })] })]

theorem orderNotes_enclosed : orderNotes.Enclosed := by
  have hall : ∀ entry ∈ orderNotes.definitions,
      ∀ k < (orderNotes.nameParts entry.1).scope.length,
        orderNotes.kindOf? ((orderNotes.nameParts entry.1).around (k + 1)) = some .entity := by
    decide +kernel
  have haround : ∀ name d, orderNotes.find? name = some d → ∀ k, 0 < k →
      k ≤ (orderNotes.nameParts name).scope.length →
        orderNotes.kindOf? ((orderNotes.nameParts name).around k) = some .entity := by
    intro name d hd k hpos hk
    obtain ⟨k, rfl⟩ : ∃ j, k = j + 1 := ⟨k - 1, by omega⟩
    exact hall (name, d) (Model.find?_eq_some_iff.mp hd) k hk
  exact ⟨fun name d hd _ _ => haround name d hd, fun name d hd _ _ k hpos hk =>
    Or.inl (haround name d hd k hpos hk)⟩

theorem compile_parentsFirst_orderNotes :
    orderNotes.Enclosed ∧ ∃ (o : Output) (sources : Store), compile orderNotes {} = .ok o ∧
      o.files = baseFile :: sources.map (SourceFile.file {}) ∧
      sources.map SourceFile.exportTargets =
        [[["Order"], ["Orders"], ["Orders", "Item"], ["Orders", "Items"],
          ["Orders", "Items", "Note"], ["Orders", "Items", "Notes"], ["Orders", "State"]]] ∧
      ∀ file ∈ sources, stubRuns [] file.statements = true := by
  have hexported : (Plan.ofModel orderNotes).toOption.map (fun plan =>
      (plan.fileSpaces.map plan.exportTargets, plan.libraries)) =
      some ([[["Order"], ["Orders"], ["Orders", "Item"], ["Orders", "Items"],
        ["Orders", "Items", "Note"], ["Orders", "Items", "Notes"], ["Orders", "State"]]], []) := by
    decide +kernel
  obtain ⟨plan, hplan⟩ := Except.exists_eq_ok (x := Plan.ofModel orderNotes) (by decide +kernel)
  rw [hplan] at hexported
  obtain ⟨htargets, hlibraries⟩ := Prod.mk.inj (Option.some.inj hexported)
  obtain ⟨o, ho⟩ := compile_ok {} hplan
  obtain ⟨plan', sources, hplan', hsources, hfiles, hruns⟩ :=
    compile_parentsFirst ho rfl orderNotes_enclosed
  obtain rfl : plan = plan' := Except.ok.inj (hplan.symm.trans hplan')
  rw [hlibraries] at hfiles
  exact ⟨orderNotes_enclosed, o, sources, ho, hfiles,
    (Plan.exportTargets_sources hsources).trans htargets, fun file hfile => (hruns file hfile).2.2⟩

/-- Lines of an address, which is a type. -/
def addressLines : Model where
  definitions :=
    [("shop.Address", {
        kind := some .type
        elements := some [("street", { type := some (.name "cds.String") })] }),
     ("shop.Address.Lines", {
        kind := some .entity
        elements := some [("ID", { type := some (.name "cds.UUID"), key := true })] })]

/-- The lines of an address are exported below the address, and the address is not
exported. -/
theorem addressLines_unparented :
    ∃ (o : Output) (file : SourceFile), compile addressLines {} = .ok o ∧
      o.files = [baseFile, file.file {}] ∧
      (file.file {}).runtime = some (stubText file.statements) ∧
      file.exportTargets = [["Address", "Line"], ["Address", "Lines"]] ∧
      ¬ ParentsFirst file.statements ∧ stubRuns [] file.statements = false := by
  have hexported : (Plan.ofModel addressLines).toOption.map (fun plan =>
      (plan.fileSpaces.map plan.exportTargets, plan.libraries)) =
      some ([[["Address", "Line"], ["Address", "Lines"]]], []) := by
    decide +kernel
  obtain ⟨plan, hplan⟩ := Except.exists_eq_ok (x := Plan.ofModel addressLines) (by decide +kernel)
  rw [hplan] at hexported
  obtain ⟨htargets, hlibraries⟩ := Prod.mk.inj (Option.some.inj hexported)
  obtain ⟨o, ho, hrender⟩ := compile_written {} hplan
  obtain ⟨sources, hsources, hfiles⟩ := Plan.render_eq_ok hrender
  obtain ⟨file, rfl, hfile⟩ := List.map_eq_singleton_iff.mp
    ((Plan.exportTargets_sources hsources).trans htargets)
  have hunparented : ¬ ParentsFirst file.statements := by
    rw [parentsFirst_iff, SourceFile.statements_targets, hfile]
    intro h
    exact absurd (h [] ["Address", "Line"] [["Address", "Lines"]] rfl 1 (by decide) (by decide))
      List.not_mem_nil
  rw [hlibraries] at hfiles
  refine ⟨o, file, ho, hfiles, ?_, hfile, hunparented, ?_⟩
  · rw [SourceFile.file, SourceFile.runtimeStub_direct]
  · rw [← Bool.not_eq_true, stubRuns_iff_parentsFirst]
    exact hunparented

end SchemaTypes
