import SchemaTypes.Proofs.Context.SelfMarker
import SchemaTypes.Proofs.Findings
import SchemaTypes.Proofs.Keys.Closure
import SchemaTypes.Proofs.Names.Classes

/-!
# Foreign keys in class bodies

An own element of a definition that ends in a managed association to one is followed by
the foreign keys of this association.  A foreign key is left out where the definition has
an element of its name, and there is a finding about it unless the element is the foreign
key that was generated for the association (`Step.RendersElement`).  Every other foreign
key has a property with the type of the key and the flags of the element
(`Step.PrintsKey`).

So the properties of a class body, and the findings that are made while it is written, are
those of the own elements that are not inherited, one after the other
(`Step.RendersBody`), and that is what every compilation puts out (`compile_foreignKeys`).
A class body is printed with these properties and no others (`PrintsProperties`).
The class of an event declares its elements and nothing for their foreign keys.

Types are resolved in a session that changes from one property to the next.  It changes
in what it has noted about libraries, and no type depends on that (`Site.Agrees`).
-/

namespace SchemaTypes

/-! ## Sites that agree -/

/-- Two sites differ in nothing but notes on libraries. -/
structure Site.Agrees (site site' : Site) : Prop where
  home : site.home = site'.home
  current : site.current = site'.current
  libraries : site.libraries.libraries = site'.libraries.libraries

theorem Site.Agrees.trans {site site' site'' : Site} (h : site.Agrees site')
    (h' : site'.Agrees site'') : site.Agrees site'' :=
  ⟨h.home.trans h'.home, h.current.trans h'.current, h.libraries.trans h'.libraries⟩

theorem Session.Grows.agrees {s s' : Session} (h : s.Grows s') (home : Path) :
    (s.site home).Agrees (s'.site home) where
  home := rfl
  current := by simp only [Session.site, Session.current?, h.context]
  libraries := h.libraries.symm

namespace Model

variable {m : Model} {site site' : Site}

theorem resolveName_agrees (h : site.Agrees site') (name : String) (element : Definition)
    (hint : String) (notNull : Bool) :
    m.resolveName site name element hint notNull =
      m.resolveName site' name element hint notNull := by
  obtain ⟨home, current, libraries⟩ := site
  obtain ⟨home', current', libraries'⟩ := site'
  obtain ⟨rfl, rfl, hlibraries⟩ := h
  have hfind : ∀ name, libraries.find? name = libraries'.find? name := fun name => by
    rw [Registry.find?_eq, Registry.find?_eq]
    exact congrArg (fun found => (List.find? _ found).map _) hlibraries
  have hlibrary : resolveLibrary ⟨home, current, libraries⟩ name hint notNull =
      resolveLibrary ⟨home, current, libraries'⟩ name hint notNull := by
    simp only [resolveLibrary, hfind]
  simp only [resolveName, hlibrary]
  rfl

/-- What a type is resolved to depends on the libraries and not on notes about them. -/
theorem resolveWithin_agrees (h : site.Agrees site') :
    ∀ levels outermost (element : Definition) hint,
      m.resolveWithin site levels outermost element hint =
        m.resolveWithin site' levels outermost element hint
  | 0, _, _, _ => rfl
  | levels + 1, outermost, element, hint => by
    have haccess : ∀ head access, m.resolveAccess site head access true hint
        (element.notNull || element.key) = m.resolveAccess site' head access true hint
          (element.notNull || element.key) := by
      intro head access
      simp only [resolveAccess, resolveUserDefined, Site.place, h.home]
    simp only [resolveWithin, resolveWithin_agrees h levels, resolveName_agrees h, haccess]

theorem resolve_agrees (h : site.Agrees site') (element : Definition) (hint : String) :
    m.resolve site element hint = m.resolve site' element hint :=
  resolveWithin_agrees h _ _ _ _

end Model

namespace Step

variable {m : Model} {site : Site} {o : ClassOwner} {property : String} {element : Definition}
  {keys : KeyElements} {s s' : Session}

/-! ## Foreign keys -/

/-- Whether the definition has no element of the name of a foreign key. -/
def isUndeclared (m : Model) (o : ClassOwner) (property : String) (key : String × Definition) :
    Bool :=
  !(m.allElements o.definition).has (property ++ "_" ++ key.1)

/-- The finding about a foreign key: the definition has an element of its name, which was
not generated for the association. -/
def keyFinding? (m : Model) (o : ClassOwner) (property : String) (key : String × Definition) :
    Option Diagnostic :=
  ((m.allElements o.definition).get? (property ++ "_" ++ key.1)).bind fun declared =>
    if declared.noteText? Definition.foreignKeyNote = some property then none
    else some (foreignKeyFinding o property (property ++ "_" ++ key.1))

/-- A property stands for a foreign key.  Its type is that of the key, with the flags of the
element. -/
def PrintsKey (m : Model) (site : Site) (o : ClassOwner) (property : String)
    (element : Definition) (key : String × Definition) (p : Property) : Prop :=
  ∃ type, (m.resolve site (synthetic element key.2) (o.hint (property ++ "_" ++ key.1))).outcome =
      .ok type ∧
    p = ⟨property ++ "_" ++ key.1, none, element.key, true, type⟩

theorem resolve_agrees_eq_ok {hint : String} {type : TypeInfo} (hsite : site.Agrees (s.site o.home))
    (h : resolve o.home (fun site => m.resolve site element hint) s = (.ok type, s')) :
    (m.resolve site element hint).outcome = .ok type ∧ s'.keys = s.keys ∧
      s'.diagnostics = s.diagnostics ∧ site.Agrees (s'.site o.home) := by
  obtain ⟨houtcome, rfl⟩ := Prod.mk.inj h
  rw [Model.resolve_agrees hsite]
  exact ⟨houtcome, rfl, rfl, hsite.trans ((Session.grows_frame.note s _).agrees o.home)⟩

theorem foreignKeyProperties_renders {properties : List Property}
    (hsite : site.Agrees (s.site o.home))
    (h : foreignKeyProperties m o property element keys s = (.ok properties, s')) :
    List.Forall₂ (PrintsKey m site o property element) (keys.filter (isUndeclared m o property))
        properties ∧
      s'.keys = s.keys ∧
      s'.diagnostics = s.diagnostics ++ keys.filterMap (keyFinding? m o property) ∧
      site.Agrees (s'.site o.home) := by
  induction keys generalizing s properties with
  | nil =>
    obtain ⟨rfl, rfl⟩ := pure_eq_ok h
    exact ⟨.nil, rfl, by simp, hsite⟩
  | cons key rest ih =>
    obtain ⟨suffix, key⟩ := key
    rcases foreignKeyProperties_cons_eq_ok h with
      ⟨declared, t, hdeclared, hreport, hothers⟩ | ⟨hdeclared, type, t, others, htype, hothers, rfl⟩
    · have hundeclared : ¬ isUndeclared m o property (suffix, key) = true := by
        simp [isUndeclared, Table.has, hdeclared]
      rw [List.filter_cons_of_neg hundeclared]
      rcases hreport with ⟨hforeign, rfl⟩ | ⟨hgenerated, rfl⟩
      · have hsome : keyFinding? m o property (suffix, key) =
            some (foreignKeyFinding o property (property ++ "_" ++ suffix)) := by
          simp [keyFinding?, hdeclared, hforeign]
        obtain ⟨hrest, hkeys, hfindings, hagrees⟩ :=
          ih (hsite.trans ((Session.grows_frame.report s trivial).agrees o.home)) hothers
        refine ⟨hrest, hkeys, ?_, hagrees⟩
        rw [hfindings, List.filterMap_cons_some hsome, Session.report, List.append_assoc,
          List.singleton_append]
      · have hnone : keyFinding? m o property (suffix, key) = none := by
          simp [keyFinding?, hdeclared, hgenerated]
        rw [List.filterMap_cons_none hnone]
        exact ih hsite hothers
    · obtain ⟨hresolved, hkeys, hfindings, hagrees⟩ := resolve_agrees_eq_ok hsite htype
      obtain ⟨hrest, hkeys', hfindings', hagrees'⟩ := ih hagrees hothers
      have hundeclared : isUndeclared m o property (suffix, key) = true := by
        simp [isUndeclared, Table.has, hdeclared]
      have hnone : keyFinding? m o property (suffix, key) = none := by
        simp [keyFinding?, hdeclared]
      refine ⟨?_, hkeys'.trans hkeys, ?_, hagrees'⟩
      · rw [List.filter_cons_of_pos hundeclared]
        exact .cons ⟨type, hresolved, rfl⟩ hrest
      · rw [hfindings', hfindings, List.filterMap_cons_none hnone]

/-! ## Elements -/

/-- What is declared for an own element: its property, and the properties for the foreign
keys of the association it ends in, in their order.  The foreign keys of an association are
asked for with what is known about keys at the time. -/
inductive RendersElement (m : Model) (site : Site) (o : ClassOwner) (property : String)
    (element : Definition) : KeyState → List Property → List Diagnostic → KeyState → Prop
  | plain {a : Definition} {type : TypeInfo} {known : KeyState} :
      (m.resolve site element (o.hint property)).outcome = .ok type →
      m.chase element = .ok a → a.isManagedToOne = false →
      RendersElement m site o property element known
        [⟨property, element.doc, element.key, false, type⟩] [] known
  | association {a : Definition} {type : TypeInfo} {keys : KeyElements}
      {foreignKeys : List Property} {known known' : KeyState} :
      (m.resolve site element (o.hint property)).outcome = .ok type → m.EndsIn element a →
      m.foreignKeys a known = (.ok keys, known') →
      List.Forall₂ (PrintsKey m site o property element)
        (keys.filter (isUndeclared m o property)) foreignKeys →
      RendersElement m site o property element known
        (⟨property, element.doc, element.key, false, type⟩ :: foreignKeys)
        (keys.filterMap (keyFinding? m o property)) known'

/-- What is declared for elements, one after the other: nothing for those that are
inherited. -/
inductive RendersBody (m : Model) (site : Site) (o : ClassOwner) :
    Table Definition → KeyState → List Property → List Diagnostic → KeyState → Prop
  | nil {known : KeyState} : RendersBody m site o [] known [] [] known
  | inherited {property : String} {element : Definition} {rest : Table Definition}
      {known known' : KeyState} {properties : List Property} {findings : List Diagnostic} :
      m.isInherited o.definition property = true →
      RendersBody m site o rest known properties findings known' →
      RendersBody m site o ((property, element) :: rest) known properties findings known'
  | own {property : String} {element : Definition} {rest : Table Definition}
      {known known' known'' : KeyState} {properties others : List Property}
      {findings more : List Diagnostic} :
      m.isInherited o.definition property = false →
      RendersElement m site o property element known properties findings known' →
      RendersBody m site o rest known' others more known'' →
      RendersBody m site o ((property, element) :: rest) known (properties ++ others)
        (findings ++ more) known''

theorem elementBody_renders (hsite : site.Agrees (s.site o.home)) {body : ClassBody}
    (h : elementBody m o property element s = (.ok body, s')) :
    ∃ findings, RendersElement m site o property element s.keys body.properties findings s'.keys ∧
      s'.diagnostics = s.diagnostics ++ findings ∧ site.Agrees (s'.site o.home) := by
  obtain ⟨type, t, foreignKeys, htype, hforeign, rfl⟩ := elementBody_eq_ok h
  obtain ⟨hresolved, hkeys, hdiagnostics, hagrees⟩ := resolve_agrees_eq_ok hsite htype
  rw [← hkeys, ← hdiagnostics]
  obtain ⟨a, hchase, ⟨hmanaged, keys, u, hask, hproperties⟩ | ⟨hplain, rfl, rfl⟩⟩ :=
    foreignKeysOf_eq_ok hforeign
  · obtain ⟨known, hasked, rfl⟩ := ask_eq_ok hask
    have hgrows : t.Grows { t with keys := known } := { Session.Grows.refl t with }
    have hknown := hagrees.trans (hgrows.agrees o.home)
    obtain ⟨hprinted, hkept, hfindings, hagrees'⟩ :=
      foreignKeyProperties_renders hknown hproperties
    rw [hkept]
    exact ⟨_, .association hresolved ⟨hchase, hmanaged⟩ hasked hprinted, hfindings, hagrees'⟩
  · exact ⟨[], .plain hresolved hchase hplain, by simp, hagrees⟩

theorem bodyOf_renders (hsite : site.Agrees (s.site o.home)) {elements : Table Definition}
    {body : ClassBody} (h : bodyOf m o elements s = (.ok body, s')) :
    ∃ findings, RendersBody m site o elements s.keys body.properties findings s'.keys ∧
      s'.diagnostics = s.diagnostics ++ findings ∧ site.Agrees (s'.site o.home) := by
  induction elements generalizing s body with
  | nil =>
    obtain ⟨rfl, rfl⟩ := pure_eq_ok h
    exact ⟨[], .nil, by simp, hsite⟩
  | cons entry rest ih =>
    obtain ⟨property, element⟩ := entry
    rcases bodyOf_cons_eq_ok h with ⟨hinherited, h⟩ | ⟨hown, first, t, others, hfirst, hothers, rfl⟩
    · obtain ⟨findings, hrest, hdiagnostics, hagrees⟩ := ih hsite h
      exact ⟨findings, .inherited hinherited hrest, hdiagnostics, hagrees⟩
    · obtain ⟨findings, helement, hdiagnostics, hagrees⟩ := elementBody_renders hsite hfirst
      obtain ⟨more, hrest, hdiagnostics', hagrees'⟩ := ih hagrees hothers
      refine ⟨findings ++ more, .own hown helement hrest, ?_, hagrees'⟩
      rw [hdiagnostics', hdiagnostics, List.append_assoc]

/-! ## Definitions -/

section Definitions

variable {name : String} {d : Definition} {kind : Kind} {e : Emission}

theorem ancestors_keys {home : Path} {names : List String} {found : List UserDefined}
    (h : ancestors m home names s = (.ok found, s')) : s'.keys = s.keys := by
  induction names generalizing s found with
  | nil =>
    obtain ⟨-, rfl⟩ := pure_eq_ok h
    rfl
  | cons name rest ih =>
    obtain ⟨u, t, others, hu, hothers, -⟩ := ancestors_cons_eq_ok h
    obtain ⟨-, rfl⟩ := Prod.mk.inj hu
    have hrest := ih hothers
    exact hrest

theorem checkNames_keys (h : Leaves (checkNames m name kind) s s') : s'.keys = s.keys := by
  obtain ⟨u, h⟩ := h
  simp only [checkNames] at h
  obtain ⟨_, t, hwarnings, h⟩ := bind_eq_ok h
  have hkeys : t.keys = s.keys := by rw [warnings_eq_ok hwarnings]
  rw [← hkeys]
  split at h
  · obtain ⟨-, hplural⟩ := checkCollisions_eq_ok h
    cases hplural <;> rfl
  · obtain ⟨-, rfl⟩ := pure_eq_ok h
    rfl

/-- The class body of a definition, and the findings that are made while it is written.
Nothing else is found about the foreign keys of the definition. -/
theorem structured_renders (h : structured m name d kind s = (.ok e, s'))
    (hlibraries : s.registry.libraries = Registry.standard.libraries) :
    ∃ a findings known t, (∀ n a', e.HasBody n a' ↔ n = name ∧ a' = a) ∧
      RendersBody m ⟨(m.nameParts name).path, some name, .standard⟩ (m.owner name d) d.ownElements
        s.keys a.properties findings known ∧
      s.Reports (¬ ·.IsForeignKey name) t ∧ s'.diagnostics = t.diagnostics ++ findings := by
  obtain ⟨t, a, enums, hcheck, haspect, -, hbody, -⟩ := structured_types h
  obtain ⟨a', _, _, -, hone⟩ := structured_hasBody h
  obtain ⟨-, rfl⟩ := (hone name a).mp hbody
  obtain ⟨found, u, hancestors, body, v, hbodyOf, actions, hactions, -, rfl⟩ :=
    aspect_eq_ok haspect
  have hfound : Leaves (ancestors m (m.nameParts name).path d.ancestors) t u := ⟨found, hancestors⟩
  have hbegun : s.Grows u := Session.grows_frame.trans (hcheck.kept (checkNames_grows kind))
    (hfound.kept (.ancestors Session.grows_frame _))
  have hkeys : u.keys = s.keys := (ancestors_keys hancestors).trans (checkNames_keys hcheck)
  have hsite : Site.Agrees ⟨(m.nameParts name).path, some name, .standard⟩
      ((u.push name).site (m.owner name d).home) :=
    ⟨rfl, by simp [Session.site, Session.current?, Session.push],
      (hbegun.libraries.trans hlibraries).symm⟩
  obtain ⟨findings, hrenders, hdiagnostics, -⟩ := bodyOf_renders hsite hbodyOf
  have hchecked : s.Reports (¬ ·.IsForeignKey name) u :=
    (hcheck.kept (checkNames_noForeignKey kind)).trans
      (hfound.kept (.ancestors (Session.reports_frame _) _))
  have hsilent : v.pop.Reports (fun _ => False) s' :=
    Leaves.kept ⟨actions, hactions⟩ (.boundActions (Session.reports_frame _) _ _)
  refine ⟨_, findings, v.keys, u, hone, ?_, hchecked, ?_⟩
  · rw [← hkeys]
    exact hrenders
  · rw [hsilent.diagnostics_eq, Session.pop, hdiagnostics]
    rfl

/-- An emission comes from a visit, with visits before it and visits after it. -/
theorem emissions_split_leaves {definitions : Table Definition} {before after : List Emission}
    (h : emissions m definitions s = (.ok (before ++ e :: after), s')) :
    ∃ visited name d later t t', definitions = visited ++ (name, d) :: later ∧
      emissions m visited s = (.ok before, t) ∧ emission m name d t = (.ok (some e), t') ∧
      Leaves (emissions m later) t' s' := by
  obtain ⟨visited, name, d, later, t, t', rfl, hbefore, he⟩ := emissions_split h
  obtain ⟨es₁, es₂, u, hbefore', hafter, -⟩ := emissions_append h
  obtain ⟨-, rfl⟩ := Prod.mk.inj (hbefore.symm.trans hbefore')
  obtain ⟨e?, u', others, he', hothers, -⟩ := emissions_cons_eq_ok hafter
  obtain ⟨-, rfl⟩ := Prod.mk.inj (he.symm.trans he')
  exact ⟨visited, name, d, later, t, t', rfl, hbefore, he, others, hothers⟩

end Definitions

end Step

/-! ## Compilations -/

variable {m : Model} {name : String} {d : Definition} {s : Session}

theorem Model.Visits.libraries (h : m.Visits name d s) :
    s.registry.libraries = Registry.standard.libraries := by
  obtain ⟨enabled, visited, later, es, -, -, hrun⟩ := h
  exact (Step.Leaves.kept ⟨es, hrun⟩ (Step.emissions_grows visited)).libraries

/-- A class body in a plan declares what its definition renders.  The findings about foreign
keys of the definition are those that are made while the class body is written. -/
theorem Plan.HasBody.rendersBody {plan : Plan} {a : Aspect} (h : plan.HasBody name a)
    (hplan : Plan.ofModel m = .ok plan) :
    ∃ d s findings known earlier later, m.find? name = some d ∧ m.Visits name d s ∧
      Step.RendersBody m ⟨(m.nameParts name).path, some name, .standard⟩ (m.owner name d)
        d.ownElements s.keys a.properties findings known ∧
      plan.diagnostics = earlier ++ findings ++ later ∧
      ∀ x ∈ earlier ++ later, ¬ x.IsForeignKey name := by
  obtain ⟨e, he, hbody⟩ := h
  obtain ⟨enabled, last, hdrafts, hrun, -, hdiagnostics⟩ := Plan.ofModel_eq_ok hplan
  obtain ⟨before, after, hsplit⟩ := List.append_of_mem he
  rw [hsplit] at hrun
  obtain ⟨visited, n, d, later, s, s', hdefinitions, hbefore, hemission, hafter⟩ :=
    Step.emissions_split_leaves hrun
  have hvisits : m.Visits n d s := ⟨enabled, visited, later, _, hdrafts, hdefinitions, hbefore⟩
  obtain ⟨kind, e', hstructured, hbody⟩ := Step.emission_hasBody hemission hbody
  obtain ⟨a', findings, known, t, hone, hrenders, hchecked, hfindings⟩ :=
    Step.structured_renders hstructured hvisits.libraries
  obtain ⟨rfl, rfl⟩ := (hone name a).mp hbody
  have hd : m.find? name = some d := by
    rw [Model.find?_eq_some_iff, hdefinitions]
    exact List.mem_append_right _ List.mem_cons_self
  -- The definition is visited once, so the other visits are about other definitions.
  have hnames := m.distinct
  rw [hdefinitions, Table.names, List.map_append, List.map_cons, List.nodup_middle,
    List.nodup_cons, List.mem_append, not_or] at hnames
  obtain ⟨⟨hvisited, hlater⟩, -⟩ := hnames
  have hdraft : Session.Reports (¬ ·.IsForeignKey name) {}
      (Plan.sessionFor m.collectDrafts enabled) :=
    ⟨_, rfl, m.collectDrafts_noForeignKey name⟩
  have hbegun := Step.Leaves.kept ⟨before, hbefore⟩ (Step.emissions_noForeignKey hvisited)
  obtain ⟨earlier, hearlier, hbeforeKey⟩ := (hdraft.trans hbegun).trans hchecked
  obtain ⟨rest, hrest, hafterKey⟩ := hafter.kept (Step.emissions_noForeignKey hlater)
  refine ⟨d, s, findings, known, earlier, rest, hd, hvisits, hrenders, ?_, fun x hx => ?_⟩
  · rw [hdiagnostics, hrest, hfindings, hearlier]
    rfl
  · rcases List.mem_append.mp hx with hx | hx
    · exact hbeforeKey x hx
    · exact hafterKey x hx

/-- Wherever elements are written as a class body, those that are not inherited are declared,
each with the foreign keys that it contributes.  Every entity, aspect and type with elements has
a class body in the output, which is printed with these properties, and all that is found about
its foreign keys is what was found while this class body was written. -/
theorem compile_foreignKeys (m : Model) (c : Config) :
    (∀ (o : ClassOwner) (s s' : Session) (body : ClassBody),
      Step.bodyOf m o o.definition.ownElements s = (.ok body, s') →
        ∃ findings, Step.RendersBody m (s.site o.home) o o.definition.ownElements s.keys
            body.properties findings s'.keys ∧
          s'.diagnostics = s.diagnostics ++ findings) ∧
      ∀ out, compile m c = .ok out →
        ∃ (plan : Plan) (files sources : Store), Plan.ofModel m = .ok plan ∧
          files.Collects c plan.emissions ∧ List.Forall₂ SourceFile.Closes files sources ∧
          out.files = baseFile :: plan.libraries.map Library.file ++
            sources.map (SourceFile.file c) ∧
          (∀ name, m.GivesAspect name → ∃ a, plan.HasBody name a) ∧
          ∀ name a, plan.HasBody name a →
            PrintsProperties c (Aspect.style c) a.properties (a.body c) ∧
            ∃ d s findings known earlier later, m.find? name = some d ∧ m.Visits name d s ∧
              Step.RendersBody m ⟨(m.nameParts name).path, some name, .standard⟩ (m.owner name d)
                d.ownElements s.keys a.properties findings known ∧
              out.diagnostics = earlier ++ findings ++ later ∧
              ∀ x ∈ earlier ++ later, ¬ x.IsForeignKey name := by
  constructor
  · intro o s s' body h
    obtain ⟨findings, hrenders, hdiagnostics, -⟩ := Step.bodyOf_renders ⟨rfl, rfl, rfl⟩ h
    exact ⟨findings, hrenders, hdiagnostics⟩
  · intro out h
    obtain ⟨plan, hplan, hrender⟩ := compile_eq_ok h
    obtain ⟨sources, hsources, hfiles⟩ := Plan.render_eq_ok hrender
    obtain ⟨files, hcollects, hcloses⟩ := Plan.sources_collect hsources
    rw [Plan.render_diagnostics hrender]
    exact ⟨plan, files, sources, hplan, hcollects, hcloses, hfiles,
      fun name hgives => hgives.hasBody hplan,
      fun name a hbody => ⟨a.prints c, hbody.rendersBody hplan⟩⟩

/-- An association to the owners. -/
def toOwner : Definition := { type := some (.name "cds.Association"), target := some "Owners" }

/-- An element that was generated for the keeper of a pet. -/
def keeperKey : Definition :=
  { type := some (.name "cds.UUID"), annotations := [("@odata.foreignKey4", .string "keeper")] }

/-- Owners have two keys.  A pet states one of the foreign keys of its keeper, and the other one
has been generated. -/
def pets : Model where
  definitions :=
    [("Owners", {
        kind := some .entity
        elements := some
          [("ID", { type := some (.name "cds.UUID"), key := true }),
           ("name", { type := some (.name "cds.String"), key := true })] }),
     ("Pets", {
        kind := some .entity
        elements := some
          [("owner", toOwner),
           ("keeper", toOwner),
           ("keeper_ID", keeperKey),
           ("keeper_name", { type := some (.name "cds.Integer") })] })]

theorem compile_foreignKeys_pets :
    ∃ (out : Output) (plan : Plan), compile pets {} = .ok out ∧ Plan.ofModel pets = .ok plan ∧
      plan.propertyNames =
        ["ID", "name", "owner", "owner_ID", "owner_name", "keeper", "keeper_ID", "keeper_name"] ∧
      out.diagnostics = [.fail "Pets" ("foreign key 'keeper_name' of association 'keeper' " ++
        "collides with a declared element and is not emitted")] ∧
      ∃ a d s findings known earlier later, plan.HasBody "Pets" a ∧
        PrintsProperties {} (Aspect.style {}) a.properties (a.body {}) ∧
        pets.find? "Pets" = some d ∧ pets.Visits "Pets" d s ∧
        Step.RendersBody pets ⟨(pets.nameParts "Pets").path, some "Pets", .standard⟩
          (pets.owner "Pets" d) d.ownElements s.keys a.properties findings known ∧
        out.diagnostics = earlier ++ findings ++ later ∧
        ∀ x ∈ earlier ++ later, ¬ x.IsForeignKey "Pets" := by
  have hplans : (Plan.ofModel pets).toOption.map
      (fun plan => (plan.propertyNames, plan.diagnostics)) =
      some (["ID", "name", "owner", "owner_ID", "owner_name", "keeper", "keeper_ID",
        "keeper_name"], [.fail "Pets" ("foreign key 'keeper_name' of association 'keeper' " ++
          "collides with a declared element and is not emitted")]) := by
    decide +kernel
  obtain ⟨plan, hplan⟩ := Except.exists_eq_ok (x := Plan.ofModel pets) (by decide +kernel)
  rw [hplan] at hplans
  obtain ⟨hnames, hdiagnostics⟩ := Prod.mk.inj (Option.some.inj hplans)
  obtain ⟨out, hout, hrender⟩ := compile_written {} hplan
  obtain ⟨plan', _, _, hplan', -, -, -, hbodies, hrenders⟩ :=
    (compile_foreignKeys pets {}).2 out hout
  obtain rfl : plan = plan' := Except.ok.inj (hplan.symm.trans hplan')
  obtain ⟨a, hbody⟩ := hbodies "Pets" ⟨_, rfl, by decide, Or.inl rfl⟩
  obtain ⟨hprints, d, s, findings, known, earlier, later, hpets⟩ := hrenders "Pets" a hbody
  exact ⟨out, plan, hout, hplan, hnames, (Plan.render_diagnostics hrender).trans hdiagnostics,
    a, d, s, findings, known, earlier, later, hbody, hprints, hpets⟩

/-- Pets that are found are announced with their owner. -/
def petsFound : Model where
  definitions :=
    [("Owners", {
        kind := some .entity
        elements := some [("ID", { type := some (.name "cds.UUID"), key := true })] }),
     ("PetFound", { kind := some .event, elements := some [("owner", toOwner)] })]

/-- An event with an association to owners has no property for the foreign key of the owner, and
no line of the code mentions it. -/
theorem petFound_keyless :
    ∃ (out : Output) (plan : Plan) (event key : Definition), compile petsFound {} = .ok out ∧
      Plan.ofModel petsFound = .ok plan ∧ petsFound.find? "PetFound" = some event ∧
      event.ownElements = [("owner", toOwner)] ∧ petsFound.isInherited event "owner" = false ∧
      petsFound.EndsIn toOwner toOwner ∧
      (petsFound.foreignKeys toOwner {}).1 = .ok [("ID", key)] ∧
      (petsFound.allElements event).has "owner_ID" = false ∧
      plan.propertyNames = ["ID", "owner"] ∧
      (∀ line ∈ plan.codeLines {}, ¬ "owner_ID".toList <:+: line.toList) ∧
      out.diagnostics = [] := by
  have hplans : (Plan.ofModel petsFound).toOption.map
      (fun plan => (plan.propertyNames, (plan.codeLines {}).filter fun line =>
        "owner_ID".toList <:+: line.toList, plan.diagnostics)) =
      some (["ID", "owner"], [], []) := by
    decide +kernel
  obtain ⟨plan, hplan⟩ := Except.exists_eq_ok (x := Plan.ofModel petsFound) (by decide +kernel)
  rw [hplan] at hplans
  obtain ⟨hnames, hfound⟩ := Prod.mk.inj (Option.some.inj hplans)
  obtain ⟨hlines, hdiagnostics⟩ := Prod.mk.inj hfound
  obtain ⟨out, hout, hrender⟩ := compile_written {} hplan
  have hquiet : ∀ line ∈ plan.codeLines {}, ¬ "owner_ID".toList <:+: line.toList :=
    fun line hline hinfix => List.filter_eq_nil_iff.mp hlines line hline (decide_eq_true hinfix)
  exact ⟨out, plan, _, _, hout, hplan, rfl, rfl, by decide, ⟨rfl, rfl⟩, rfl, by decide, hnames,
    hquiet, (Plan.render_diagnostics hrender).trans hdiagnostics⟩

end SchemaTypes
