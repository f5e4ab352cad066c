import SchemaTypes.Proofs.Access.Layout
import SchemaTypes.Proofs.ForeignKeys
import SchemaTypes.Proofs.Keys.Elements
import SchemaTypes.Proofs.Names.Elements

/-!
# Names of properties

A class body has a property for each own element that is not inherited, and properties for
foreign keys besides (`Step.RendersBody.names_perm`).  A foreign key is left out where the
definition has an element of its name, and the foreign keys of one association have names of
their own.  So all that can be declared twice is a foreign key that two associations have.

A foreign key has the names of an element and of a key, with an underscore between them, and
either name may hold underscores.  Two foreign keys of different elements have one name exactly
where the name of one element goes on after that of the other one and an underscore, and the key
of the other one begins with what follows (`Text.underscore_eq`).  Where that is the case the
class body declares a property twice, and otherwise it does not (`compile_propertyNames`).
-/

namespace SchemaTypes

namespace Step

variable {m : Model} {site : Site} {o : ClassOwner} {property : String} {element : Definition}
  {elements : Table Definition} {known known' : KeyState} {properties : List Property}
  {findings : List Diagnostic} {s s' : Session}

/-! ## Foreign keys of a class body -/

/-- The foreign keys that are declared for an own element, and what is known about keys
afterwards. -/
def elementKeys (m : Model) (o : ClassOwner) (property : String) (element : Definition)
    (known : KeyState) : KeyElements × KeyState :=
  match m.chase element with
  | .error _ => ([], known)
  | .ok a =>
      if a.isManagedToOne then
        match m.foreignKeys a known with
        | (.ok keys, known') => (keys.filter (isUndeclared m o property), known')
        | (.error _, known') => ([], known')
      else ([], known)

/-- The foreign keys that are declared for elements: the name of the element and the name of
the key, for each of them. -/
def bodyKeys (m : Model) (o : ClassOwner) : Table Definition → KeyState → List (String × String)
  | [], _ => []
  | (property, element) :: rest, known =>
      if m.isInherited o.definition property then bodyKeys m o rest known
      else
        (Table.names (elementKeys m o property element known).1).map (Prod.mk property) ++
          bodyKeys m o rest (elementKeys m o property element known).2

/-- The name of the property for a foreign key. -/
def foreignKeyName (key : String × String) : String := key.1 ++ "_" ++ key.2

/-- No foreign key has the name of a foreign key of another element: where the name of an element
goes on after that of another one, its foreign keys go on differently. -/
def KeysApart (keys : List (String × String)) : Prop :=
  ∀ element rest key, (element, rest ++ "_" ++ key) ∈ keys → (element ++ "_" ++ rest, key) ∉ keys

theorem elementKeys_undeclared {key : String × Definition}
    (h : key ∈ (elementKeys m o property element known).1) :
    isUndeclared m o property key = true := by
  simp only [elementKeys] at h
  split at h
  · cases h
  · split at h
    · split at h
      · exact (List.mem_filter.mp h).2
      · cases h
    · cases h

/-- Keys have names of their own, and so they do in what is known afterwards. -/
theorem elementKeys_distinct (h : known.KnowsOnly KeyElements.Distinct) :
    KeyElements.Distinct (elementKeys m o property element known).1 ∧
      (elementKeys m o property element known).2.KnowsOnly KeyElements.Distinct := by
  simp only [elementKeys]
  split
  · exact ⟨List.nodup_nil, h⟩
  · next a _ =>
    split
    · have hasked := m.foreignKeys_distinct a known h
      split
      · next keys known' hkeys =>
        rw [hkeys] at hasked
        exact ⟨(hasked.2 keys rfl).sublist (List.filter_sublist.map _), hasked.1⟩
      · next hkeys =>
        rw [hkeys] at hasked
        exact ⟨List.nodup_nil, hasked.1⟩
    · exact ⟨List.nodup_nil, h⟩

/-- A foreign key of a class body is that of an element, and no element has its name. -/
theorem mem_bodyKeys {key : String × String} (h : key ∈ bodyKeys m o elements known) :
    key.1 ∈ Table.names elements ∧
      (m.allElements o.definition).has (foreignKeyName key) = false := by
  induction elements generalizing known with
  | nil => cases h
  | cons entry rest ih =>
    obtain ⟨property, element⟩ := entry
    rw [Table.names_cons, List.mem_cons]
    rw [bodyKeys] at h
    split at h
    · exact (ih h).imp_left Or.inr
    · rcases List.mem_append.mp h with h | h
      · obtain ⟨suffix, hsuffix, rfl⟩ := List.mem_map.mp h
        obtain ⟨found, hfound, rfl⟩ := List.mem_map.mp hsuffix
        have hundeclared := elementKeys_undeclared hfound
        exact ⟨Or.inl rfl, by simpa [isUndeclared, foreignKeyName] using hundeclared⟩
      · exact (ih h).imp_left Or.inr

/-- A foreign key never has the name of an own element. -/
theorem foreignKeyName_notMem {key : String × String} (h : key ∈ bodyKeys m o elements known) :
    foreignKeyName key ∉ Table.names o.definition.ownElements := by
  intro hown
  have hall : foreignKeyName key ∈ Table.names (m.allElements o.definition) :=
    Model.mem_names_allElements_iff.mpr (Or.inl hown)
  rw [Table.mem_names_iff, (mem_bodyKeys h).2] at hall
  cases hall

theorem bodyKeys_nodup (helements : (Table.names elements).Nodup)
    (hknown : known.KnowsOnly KeyElements.Distinct) : (bodyKeys m o elements known).Nodup := by
  induction elements generalizing known with
  | nil => exact List.nodup_nil
  | cons entry rest ih =>
    obtain ⟨property, element⟩ := entry
    rw [Table.names_cons, List.nodup_cons] at helements
    rw [bodyKeys]
    split
    · exact ih helements.2 hknown
    · obtain ⟨hdistinct, hknown'⟩ := elementKeys_distinct (m := m) (o := o) hknown
      refine (hdistinct.map (Prod.mk_right_injective property)).append
        (ih helements.2 hknown') fun key hkey hrest => ?_
      obtain ⟨suffix, -, rfl⟩ := List.mem_map.mp hkey
      exact helements.1 (mem_bodyKeys hrest).1

/-- Foreign keys are kept apart exactly if they have names of their own. -/
theorem foreignKeyNames_nodup_iff {keys : List (String × String)} (h : keys.Nodup) :
    (keys.map foreignKeyName).Nodup ↔ KeysApart keys := by
  rw [List.nodup_map_iff_inj_on h]
  constructor
  · intro hinj element rest key hkey hother
    have hname : foreignKeyName (element, rest ++ "_" ++ key) =
        foreignKeyName (element ++ "_" ++ rest, key) := by
      simp only [foreignKeyName, String.append_assoc]
    have heq : element = element ++ "_" ++ rest := (Prod.mk.inj (hinj _ hkey _ hother hname)).1
    have hlength := congrArg (fun x : String => x.toList.length) heq
    simp at hlength
  · rintro hapart ⟨a, k⟩ hkey ⟨b, l⟩ hother hname
    have hname : a ++ "_" ++ k = b ++ "_" ++ l := hname
    rcases Text.underscore_eq hname with ⟨rfl, rfl⟩ | ⟨r, rfl, rfl⟩ | ⟨r, rfl, rfl⟩
    · rfl
    · exact absurd hother (hapart _ _ _ hkey)
    · exact absurd hkey (hapart _ _ _ hother)

/-! ## Class bodies -/

theorem PrintsKey.names {keys : KeyElements} {printed : List Property}
    (h : List.Forall₂ (PrintsKey m site o property element) keys printed) :
    printed.map (·.name) = ((Table.names keys).map (Prod.mk property)).map foreignKeyName := by
  induction h with
  | nil => rfl
  | cons hfirst _ ih =>
    obtain ⟨type, -, rfl⟩ := hfirst
    rw [List.map_cons, ih]
    rfl

theorem RendersElement.names
    (h : RendersElement m site o property element known properties findings known') :
    properties.map (·.name) = property ::
        ((Table.names (elementKeys m o property element known).1).map (Prod.mk property)).map
          foreignKeyName ∧
      known' = (elementKeys m o property element known).2 := by
  cases h with
  | plain _ hchase hplain => simp [elementKeys, hchase, hplain]
  | association _ hends hkeys hprinted =>
    simp only [elementKeys, hends.1, hends.2, if_true, hkeys, List.map_cons]
    exact ⟨congrArg _ (PrintsKey.names hprinted), trivial⟩

/-- A class body declares the own elements that are not inherited, and foreign keys. -/
theorem RendersBody.names_perm
    (h : RendersBody m site o elements known properties findings known') :
    (properties.map (·.name)).Perm
      (((Table.names elements).filter fun element => !m.isInherited o.definition element) ++
        (bodyKeys m o elements known).map foreignKeyName) := by
  induction h with
  | nil => rfl
  | inherited hinherited _ ih =>
    rw [Table.names_cons, List.filter_cons_of_neg (by simp [hinherited]), bodyKeys,
      if_pos hinherited]
    exact ih
  | own hown helement _ ih =>
    obtain ⟨hnames, rfl⟩ := helement.names
    rw [List.map_append, hnames, Table.names_cons, List.filter_cons_of_pos (by simpa using hown),
      bodyKeys, if_neg (by simp [hown]), List.map_append, List.cons_append, List.cons_append]
    refine List.Perm.cons _ ((ih.append_left _).trans ?_)
    exact List.perm_append_comm_assoc _ _ _

/-- A class body declares no property twice exactly if the foreign keys of its elements are kept
apart.  A foreign key is never declared with the name of an element. -/
theorem RendersBody.names_nodup_iff
    (h : RendersBody m site o o.definition.ownElements known properties findings known')
    (helements : (Table.names o.definition.ownElements).Nodup)
    (hknown : known.KnowsOnly KeyElements.Distinct) :
    (properties.map (·.name)).Nodup ↔ KeysApart (bodyKeys m o o.definition.ownElements known) := by
  have hown := helements.filter fun element => !m.isInherited o.definition element
  have hdisjoint : List.Disjoint
      ((Table.names o.definition.ownElements).filter fun x => !m.isInherited o.definition x)
      ((bodyKeys m o o.definition.ownElements known).map foreignKeyName) := by
    intro name hname hforeign
    obtain ⟨key, hkey, rfl⟩ := List.mem_map.mp hforeign
    exact foreignKeyName_notMem hkey (List.mem_filter.mp hname).1
  rw [h.names_perm.nodup_iff, ← foreignKeyNames_nodup_iff (bodyKeys_nodup helements hknown)]
  exact ⟨fun hnodup => hnodup.of_append_right, fun hkeys => hown.append hkeys hdisjoint⟩

end Step

/-! ## Runs -/

namespace Session

/-- All that is known are keys with names of their own. -/
def KeysDistinct (s : Session) : Prop := s.keys.KnowsOnly KeyElements.Distinct

theorem keysDistinct_frame :
    Frame (fun s s' : Session => s.KeysDistinct → s'.KeysDistinct) fun _ => True where
  refl _ h := h
  trans h h' hs := h' (h hs)
  note _ _ h := h
  ask s m association h := (m.foreignKeys_distinct association s.keys h).1
  report _ _ _ h := h
  begin _ h := h
  within h := h

theorem keysDistinct_of_memo {s : Session} (h : s.keys.memo = []) : s.KeysDistinct := by
  intro e keys hknown
  rw [h] at hknown
  cases hknown

end Session

variable {m : Model} {name : String} {d : Definition} {s s' : Session}

theorem Model.Visits.keysDistinct (h : m.Visits name d s) : s.KeysDistinct := by
  obtain ⟨enabled, visited, later, es, -, -, hrun⟩ := h
  have hkept := Step.Keeps.visits (m := m) Session.keysDistinct_frame
    (Step.Keeps.checkCollisions Session.keysDistinct_frame (fun _ _ h => h) fun _ _ _ => trivial)
    visited fun _ _ _ _ => trivial
  exact Step.Leaves.kept ⟨es, hrun⟩ hkept (Session.keysDistinct_of_memo rfl)

/-- The names in a class body, from any session that knows keys with names of their own. -/
theorem Step.aspect_names {kind : Kind} {a : Aspect} {enums : List InlineEnum}
    (h : Step.aspect m (m.owner name d) kind s = (.ok (a, enums), s')) (hs : s.KeysDistinct)
    (hd : (Table.names d.ownElements).Nodup) :
    s'.KeysDistinct ∧ ((a.properties.map (·.name)).Nodup ↔
      KeysApart (bodyKeys m (m.owner name d) d.ownElements s.keys)) := by
  have hkept := Leaves.kept ⟨_, h⟩ (.aspect Session.keysDistinct_frame _ (fun _ _ => trivial) _)
  obtain ⟨found, t, hancestors, body, u, hbody, actions, -, -, rfl⟩ := aspect_eq_ok h
  obtain ⟨findings, hrenders, -, -⟩ := bodyOf_renders ⟨rfl, rfl, rfl⟩ hbody
  have hkeys : t.keys = s.keys := ancestors_keys hancestors
  refine ⟨hkept hs, ?_⟩
  have hknown : (t.push name).keys.KnowsOnly KeyElements.Distinct := by
    rw [Session.push, hkeys]
    exact hs
  rw [← hkeys]
  exact hrenders.names_nodup_iff hd hknown

/-- The names in a class body of a plan. -/
theorem Plan.HasBody.names {plan : Plan} {a : Aspect} (h : plan.HasBody name a)
    (hplan : Plan.ofModel m = .ok plan) (hm : m.NamesElementsOnce) :
    ∃ d s, m.find? name = some d ∧ m.Visits name d s ∧ ((a.properties.map (·.name)).Nodup ↔
      Step.KeysApart (Step.bodyKeys m (m.owner name d) d.ownElements s.keys)) := by
  obtain ⟨d, s, findings, known, _, _, hd, hvisits, hrenders, -, -⟩ := h.rendersBody hplan
  exact ⟨d, s, hd, hvisits, hrenders.names_nodup_iff (hm.ownElements hd) hvisits.keysDistinct⟩

/-- In the structured mode a property is one piece of code, after its documentation. -/
theorem Property.code_structured {c : Config} (hc : c.inlineMode = .structured)
    (style : PropertyStyle) (p : Property) :
    ∃ code, p.code c style = docCode p.doc ++ [code] ∧ Code.Declares style [p.name] code := by
  refine ⟨p.type.nestedProperty c style p.name (p.typeText c), ?_,
    p.type.nestedProperty_declares c style p.name (p.typeText c)⟩
  rw [Property.code, TypeInfo.propertyCode, hc]

/-- A class body declares no property twice exactly if the foreign keys that its elements
contribute are kept apart.  This is so for every class body of the output, and for every aspect
that is made after others.  In the structured mode each property is printed as one piece of code,
which declares its name. -/
theorem compile_propertyNames (m : Model) (c : Config) (hm : m.NamesElementsOnce) :
    (∀ name d kind s s' a enums, m.find? name = some d → s.KeysDistinct →
        Step.aspect m (m.owner name d) kind s = (.ok (a, enums), s') →
          s'.KeysDistinct ∧ ((a.properties.map (·.name)).Nodup ↔
            Step.KeysApart (Step.bodyKeys m (m.owner name d) d.ownElements s.keys))) ∧
      (c.inlineMode = .structured → ∀ style (p : Property), ∃ code,
        p.code c style = docCode p.doc ++ [code] ∧ Code.Declares style [p.name] code) ∧
      ∀ out, compile m c = .ok out →
        ∃ (plan : Plan) (files sources : Store), Plan.ofModel m = .ok plan ∧
          files.Collects c plan.emissions ∧ List.Forall₂ SourceFile.Closes files sources ∧
          out.files = baseFile :: plan.libraries.map Library.file ++
            sources.map (SourceFile.file c) ∧
          (∀ name, m.GivesAspect name → ∃ a, plan.HasBody name a) ∧
          ∀ name a, plan.HasBody name a →
            ∃ d s, m.find? name = some d ∧ m.Visits name d s ∧
              ((a.properties.map (·.name)).Nodup ↔
                Step.KeysApart (Step.bodyKeys m (m.owner name d) d.ownElements s.keys)) := by
  refine ⟨fun name d kind s s' a enums hd hs h => Step.aspect_names h hs (hm.ownElements hd),
    fun hc style p => p.code_structured hc style, fun out h => ?_⟩
  obtain ⟨plan, hplan, hrender⟩ := compile_eq_ok h
  obtain ⟨sources, hsources, hfiles⟩ := Plan.render_eq_ok hrender
  obtain ⟨files, hcollects, hcloses⟩ := Plan.sources_collect hsources
  exact ⟨plan, files, sources, hplan, hcollects, hcloses, hfiles,
    fun name hgives => hgives.hasBody hplan, fun name a hbody => hbody.names hplan hm⟩

/-- The foreign keys of the owner of a pet are kept apart, so the class body of pets declares each
of its properties once. -/
theorem compile_propertyNames_pets :
    pets.NamesElementsOnce ∧ ∃ d a enums s, pets.find? "Pets" = some d ∧
      Step.aspect pets (pets.owner "Pets" d) .entity {} = (.ok (a, enums), s) ∧
      (a.properties.map (·.name)).Nodup := by
  have hm : pets.NamesElementsOnce := by decide
  have hd : pets.find? "Pets" = some ((pets.find? "Pets").getD {}) := rfl
  obtain ⟨⟨a, enums⟩, houtcome⟩ := Except.exists_eq_ok
    (x := (Step.aspect pets (pets.owner "Pets" ((pets.find? "Pets").getD {})) .entity {}).1)
    (by decide +kernel)
  have hrun : Step.aspect pets (pets.owner "Pets" ((pets.find? "Pets").getD {})) .entity {} =
      (.ok (a, enums), _) := Prod.ext houtcome rfl
  obtain ⟨-, hnames⟩ := (compile_propertyNames pets {} hm).1 _ _ _ _ _ _ _ hd
    (Session.keysDistinct_of_memo rfl) hrun
  refine ⟨hm, _, a, enums, _, hd, hrun, hnames.mpr ?_⟩
  exact (Step.foreignKeyNames_nodup_iff (by decide +kernel)).mp (by decide +kernel)

/-- A trip leads home to an airport, which has the key of its city in its own key, and to the city
that the airport is in. -/
def trips : Model where
  definitions :=
    [("Airports", {
        kind := some .entity
        elements := some [("city_code", { type := some (.name "cds.String"), key := true })] }),
     ("Cities", {
        kind := some .entity
        elements := some [("code", { type := some (.name "cds.String"), key := true })] }),
     ("Trips", {
        kind := some .entity
        elements := some
          [("home", { type := some (.name "cds.Association"), target := some "Airports" }),
           ("home_city", { type := some (.name "cds.Association"), target := some "Cities" })] })]

/-- The names of the properties of each declaration of a plan. -/
def Plan.declaredNames (plan : Plan) : List (List String) :=
  plan.emissions.flatMap fun e => e.placements.flatMap fun p =>
    p.declarations.map fun d => d.properties.map (·.name)

theorem Plan.HasBody.mem_declaredNames {plan : Plan} {a : Aspect} (h : plan.HasBody name a) :
    a.properties.map (·.name) ∈ plan.declaredNames := by
  obtain ⟨e, he, p, hp, doc, drafts, more, hdeclarations⟩ := h
  simp only [declaredNames, List.mem_flatMap, List.mem_map]
  exact ⟨e, he, p, hp, .aspect a, by simp [hdeclarations], rfl⟩

/-- The associations of a trip have a foreign key of one name.  The class body declares it twice,
and nothing is found about it. -/
theorem trips_declaredTwice :
    trips.NamesElementsOnce ∧ ∃ (out : Output) (plan : Plan) (a : Aspect),
      compile trips {} = .ok out ∧ Plan.ofModel trips = .ok plan ∧ plan.HasBody "Trips" a ∧
      a.properties.map (·.name) = ["home", "home_city_code", "home_city", "home_city_code"] ∧
      ¬ (a.properties.map (·.name)).Nodup ∧ out.diagnostics = [] := by
  have hplans : (Plan.ofModel trips).toOption.map
      (fun plan => (plan.declaredNames, plan.diagnostics)) =
      some ([["city_code"], [], [], ["code"], [], [],
        ["home", "home_city_code", "home_city", "home_city_code"], [], []], []) := by
    decide +kernel
  obtain ⟨plan, hplan⟩ := Except.exists_eq_ok (x := Plan.ofModel trips) (by decide +kernel)
  rw [hplan] at hplans
  obtain ⟨hnames, hdiagnostics⟩ := Prod.mk.inj (Option.some.inj hplans)
  obtain ⟨out, hout, hrender⟩ := compile_written {} hplan
  have hgives : trips.GivesAspect "Trips" := ⟨_, rfl, by decide, Or.inl rfl⟩
  obtain ⟨a, hbody⟩ := hgives.hasBody hplan
  have hhome : trips.Introduces "Trips" "home" := ⟨_, rfl, by decide, by decide⟩
  obtain ⟨p, hp, -, hname⟩ := (hbody.declares hplan "home").mpr hhome
  have hdeclared : "home" ∈ a.properties.map (·.name) := List.mem_map.mpr ⟨p, hp, hname⟩
  have ha : a.properties.map (·.name) =
      ["home", "home_city_code", "home_city", "home_city_code"] := by
    have hmem := hbody.mem_declaredNames
    rw [hnames] at hmem
    -- No other declaration has a property of this name.
    generalize a.properties.map (·.name) = names at hdeclared hmem ⊢
    revert hdeclared
    revert names
    decide
  exact ⟨by decide, out, plan, a, hout, hplan, hbody, ha, by rw [ha]; decide,
    (Plan.render_diagnostics hrender).trans hdiagnostics⟩

end SchemaTypes
