import SchemaTypes.Proofs.Access.Members
import SchemaTypes.Proofs.Inheritance
import SchemaTypes.Proofs.Outcome
import SchemaTypes.Proofs.References.Resolution

/-!
# What class bodies declare

The class body of a definition declares the elements that the definition
introduces, and the foreign keys these contribute (`Plan.HasBody.declares`).  It
is built on the class bodies of what the definition includes (`Plan.Mixes`).

So no element is lost.  The elements of a definition are those that it introduces
or that something it includes introduces, and where all of these have class bodies,
every element is declared by one of the bodies that the class is built on
(`Model.elements_declared`).  A class body is printed with what it declares, and the lines of
each element are those of its type (`PrintsProperties`).
-/

namespace SchemaTypes

open Relation

/-! ## Class bodies -/

/-- An element is declared as itself, and not as a foreign key of another one. -/
def Aspect.Declares (a : Aspect) (element : String) : Prop :=
  ∃ p ∈ a.properties, p.anonymous = false ∧ p.name = element

/-- An emission holds the class body of a definition, followed by its class. -/
def Emission.HasBody (e : Emission) (name : String) (a : Aspect) : Prop :=
  ∃ p ∈ e.placements, ∃ doc drafts more,
    p.declarations = .aspect a :: .singularClass a.singular doc name drafts :: more

namespace Plan

/-- A plan holds the class body of a definition. -/
def HasBody (plan : Plan) (name : String) (a : Aspect) : Prop :=
  ∃ e ∈ plan.emissions, e.HasBody name a

/-- The class body of a definition is built on that of another one. -/
def Mixes (plan : Plan) (name included : String) : Prop :=
  ∃ a, plan.HasBody name a ∧ ∃ u ∈ a.ancestors, u.full = included

/-- An element is declared in the class body of a definition.  The class of an event
is not built on others and has its body to itself. -/
inductive Declares (plan : Plan) (name element : String) : Prop
  | body {a : Aspect} : plan.HasBody name a → a.Declares element → Declares plan name element
  | event {e : Emission} {p : Placement} {q : Property} {written : String} {doc : Option String}
      {properties : List Property} : e ∈ plan.emissions → p ∈ e.placements →
      .event written doc name properties ∈ p.declarations → q ∈ properties → q.name = element →
      Declares plan name element

end Plan

namespace Step

variable {m : Model} {name : String} {d : Definition} {kind : Kind} {s s' : Session} {e : Emission}

/-! ## Properties -/

theorem foreignKeyProperties_anonymous {o : ClassOwner} {property : String}
    {element : Definition} :
    ∀ {keys : KeyElements} {properties : List Property} {s s' : Session},
      foreignKeyProperties m o property element keys s = (.ok properties, s') →
      ∀ p ∈ properties, p.anonymous = true
  | [], _, s, _, h => by
    obtain ⟨rfl, rfl⟩ := pure_eq_ok h
    simp
  | (suffix, key) :: rest, _, s, _, h => by
    rcases foreignKeyProperties_cons_eq_ok h with
      ⟨_, _, -, -, h⟩ | ⟨-, type, t, others, -, hothers, rfl⟩
    · exact foreignKeyProperties_anonymous h
    · exact List.forall_mem_cons.mpr ⟨rfl, foreignKeyProperties_anonymous hothers⟩

theorem foreignKeysOf_anonymous {o : ClassOwner} {property : String} {element : Definition}
    {properties : List Property} (h : foreignKeysOf m o property element s = (.ok properties, s')) :
    ∀ p ∈ properties, p.anonymous = true := by
  obtain ⟨_, -, ⟨-, keys, t, -, hproperties⟩ | ⟨-, rfl, -⟩⟩ := foreignKeysOf_eq_ok h
  · exact foreignKeyProperties_anonymous hproperties
  · exact List.forall_mem_nil _

/-- What is declared for elements has the name of every element that is not
inherited, and foreign keys besides. -/
theorem bodyOf_names {o : ClassOwner} :
    ∀ {elements : Table Definition} {body : ClassBody} {s s' : Session},
      bodyOf m o elements s = (.ok body, s') →
      (body.properties.filter fun p => !p.anonymous).map (·.name) =
        (Table.names elements).filter fun element => !m.isInherited o.definition element
  | [], _, s, _, h => by
    obtain ⟨rfl, rfl⟩ := pure_eq_ok h
    rfl
  | (property, element) :: rest, _, s, _, h => by
    rcases bodyOf_cons_eq_ok h with ⟨hinherited, h⟩ | ⟨hown, first, t, others, hfirst, hothers, rfl⟩
    · rw [bodyOf_names h, Table.names_cons, List.filter_cons_of_neg (by simp [hinherited])]
    · obtain ⟨type, u, foreignKeys, -, hforeign, rfl⟩ := elementBody_eq_ok hfirst
      have hkeys : foreignKeys.filter (fun p => !p.anonymous) = [] := by
        refine List.filter_eq_nil_iff.mpr fun p hp => ?_
        simp [foreignKeysOf_anonymous hforeign p hp]
      rw [Table.names_cons, List.filter_cons_of_pos (by simp [hown]), ← bodyOf_names hothers]
      simp [ClassBody.append, hkeys]

/-- An event has a property for each of its own elements. -/
theorem eventProperties_names {home : Path} {event : String} :
    ∀ {elements : Table Definition} {properties : List Property} {s s' : Session},
      eventProperties m home event elements s = (.ok properties, s') →
      properties.map (·.name) = Table.names elements
  | [], _, s, _, h => by
    obtain ⟨rfl, rfl⟩ := pure_eq_ok h
    rfl
  | (name, element) :: rest, _, s, _, h => by
    obtain ⟨type, t, others, -, hothers, rfl⟩ := eventProperties_cons_eq_ok h
    rw [List.map_cons, eventProperties_names hothers, Table.names_cons]

theorem ancestors_names {home : Path} :
    ∀ {names : List String} {found : List UserDefined} {s s' : Session},
      ancestors m home names s = (.ok found, s') → found.map (·.full) = names
  | [], _, s, _, h => by
    obtain ⟨rfl, rfl⟩ := pure_eq_ok h
    rfl
  | name :: rest, _, s, _, h => by
    obtain ⟨u, t, others, hu, hothers, rfl⟩ := ancestors_cons_eq_ok h
    obtain ⟨-, hfull, -⟩ := m.resolveDefinition_eq_ok (Prod.mk.inj hu).1
    rw [List.map_cons, hfull, ancestors_names hothers]

/-! ## Definitions -/

/-- The class body of a definition: it declares the own elements that are not
inherited, and is built on what the definition includes. -/
structure Renders (m : Model) (d : Definition) (a : Aspect) : Prop where
  declares : ∀ element, a.Declares element ↔
    element ∈ Table.names d.ownElements ∧ m.isInherited d element = false
  ancestors : a.ancestors.map (·.full) = d.ancestors

theorem aspect_renders {o : ClassOwner} {a : Aspect} {enums : List InlineEnum}
    (h : aspect m o kind s = (.ok (a, enums), s')) :
    a.singular = o.singular ∧ Renders m o.definition a := by
  obtain ⟨found, t, hfound, body, t', hbody, actions, -, -, rfl⟩ := aspect_eq_ok h
  refine ⟨rfl, fun element => ?_, ancestors_names hfound⟩
  have hnames := bodyOf_names hbody
  constructor
  · rintro ⟨p, hp, hown, rfl⟩
    have hmem : p.name ∈ (body.properties.filter fun p => !p.anonymous).map (·.name) :=
      List.mem_map.mpr ⟨p, List.mem_filter.mpr ⟨hp, by simpa using hown⟩, rfl⟩
    rw [hnames] at hmem
    simpa using List.mem_filter.mp hmem
  · intro helement
    have hmem : element ∈ (Table.names o.definition.ownElements).filter
        fun element => !m.isInherited o.definition element :=
      List.mem_filter.mpr (by simpa using helement)
    rw [← hnames] at hmem
    obtain ⟨p, hp, hname⟩ := List.mem_map.mp hmem
    obtain ⟨hp, hown⟩ := List.mem_filter.mp hp
    exact ⟨p, hp, by simpa using hown, hname⟩

/-- The emission of a structured definition holds one class body. -/
theorem structured_hasBody (h : structured m name d kind s = (.ok e, s')) :
    ∃ a enums t, aspect m ⟨name, (m.inflection (m.nameParts name)).singular,
        (m.nameParts name).path, d⟩ kind t = (.ok (a, enums), s') ∧
      ∀ n a', e.HasBody n a' ↔ n = name ∧ a' = a := by
  obtain ⟨_, _, -, t, -, a, enums, haspect, rfl⟩ := structured_eq_ok h
  have hsingular := (aspect_renders haspect).1
  refine ⟨a, enums, t, haspect, fun n a' => ⟨?_, ?_⟩⟩
  · rintro ⟨p, hp, doc, drafts, more, heq⟩
    rcases List.mem_append.mp hp with hp | hp
    · obtain ⟨enum, -, rfl⟩ := List.mem_map.mp hp
      cases heq
    · obtain rfl := List.mem_singleton.mp hp
      simp only [classes, List.cons.injEq, Declaration.aspect.injEq,
        Declaration.singularClass.injEq] at heq
      obtain ⟨rfl, ⟨-, -, rfl, -⟩, -⟩ := heq
      exact ⟨rfl, rfl⟩
  · rintro ⟨rfl, rfl⟩
    obtain ⟨more, hclasses⟩ : ∃ more, classes n d kind (m.inflection (m.nameParts n))
        (kind = .entity ∧ s'.isDraftEnabled n) =
          .singularClass (m.inflection (m.nameParts n)).singular d.doc n
            (kind = .entity ∧ s'.isDraftEnabled n) :: more := ⟨_, rfl⟩
    exact ⟨_, List.mem_append_right _ List.mem_cons_self, d.doc, _, more,
      by rw [hsingular, hclasses]⟩

/-- A class body in the emission of a definition is that of a structured one. -/
theorem emission_hasBody {n : String} {a : Aspect} (h : emission m name d s = (.ok (some e), s'))
    (hbody : e.HasBody n a) :
    ∃ kind e', structured m name d kind { s with imports := [] } = (.ok e', s') ∧
      e'.HasBody n a := by
  rcases emission_eq_ok h with ⟨-, hnone, -⟩ | ⟨kind, made?, -, -, hmade, hmap⟩
  · cases hnone
  obtain ⟨made, rfl, rfl⟩ := Option.map_eq_some_iff.mp hmap.symm
  have hbody : made.HasBody n a := hbody
  cases hmade with
  | structured _ he => exact ⟨kind, made, he, hbody⟩
  | plainType _ he =>
    rcases plainType_eq_ok he with ⟨-, _, _, rfl⟩ | ⟨_, -, rfl⟩ <;>
      simp [Emission.HasBody] at hbody
  | operation _ he =>
    obtain ⟨_, -, rfl⟩ := operation_eq_ok he
    simp [Emission.HasBody] at hbody
  | event he =>
    obtain ⟨_, -, rfl⟩ := event_eq_ok he
    simp [Emission.HasBody] at hbody
  | service => simp [Emission.HasBody, Model.serviceEmission] at hbody

/-- The emission of a definition that gives a function holds its class body. -/
theorem emission_of_givesAspect {e? : Option Emission} (h : emission m name d s = (.ok e?, s'))
    (hd : m.find? name = some d) (hgives : m.GivesAspect name) :
    ∃ e a, e? = some e ∧ e.HasBody name a := by
  obtain ⟨d', hd', hlocal, hkinds⟩ := hgives
  obtain rfl := Model.eq_of_find? hd hd'
  rcases emission_eq_ok h with ⟨hleft, -, -⟩ | ⟨kind, made?, -, hkind, hmade, rfl⟩
  · rcases hleft with hleft | hnone
    · simp [hlocal] at hleft
    · simp [hnone] at hkinds
  rw [hkind] at hkinds
  cases hmade with
  | structured _ he =>
    obtain ⟨a, _, _, -, hbody⟩ := structured_hasBody he
    exact ⟨_, a, rfl, (hbody name a).mpr ⟨rfl, rfl⟩⟩
  | plainType hplain => simp [hplain] at hkinds
  | operation hkinds' => rcases hkinds with hk | hk | ⟨hk, -⟩ <;> cases hk <;> cases hkinds'
  | event | service => simp at hkinds
  | nothing hkinds' => rcases hkinds' with rfl | rfl | rfl <;> simp at hkinds

/-- The emission of an event holds a class that declares its own elements. -/
theorem emission_of_event {e? : Option Emission} (h : emission m name d s = (.ok e?, s'))
    (hlocal : isLocalized name = false) (hkind : d.kind = some .event) :
    ∃ e properties, e? = some e ∧
      (∃ p ∈ e.placements, .event (m.nameParts name).name d.doc name properties ∈ p.declarations) ∧
      properties.map (·.name) = Table.names d.ownElements := by
  rcases emission_eq_ok h with ⟨hleft, -, -⟩ | ⟨kind, made?, -, hkind', hmade, rfl⟩
  · simp [hlocal, hkind] at hleft
  obtain rfl : Kind.event = kind := Option.some.inj (hkind.symm.trans hkind')
  cases hmade with
  | event he =>
    obtain ⟨properties, hproperties, rfl⟩ := event_eq_ok he
    exact ⟨_, properties, rfl, ⟨_, List.mem_singleton.mpr rfl, List.mem_singleton.mpr rfl⟩,
      eventProperties_names hproperties⟩
  | structured hkinds => simp at hkinds
  | operation hkinds => cases hkinds
  | nothing hkinds => simp at hkinds

end Step

/-! ## Plans -/

variable {m : Model} {plan : Plan}

/-- A class body in a plan is that of a definition of the model. -/
theorem Plan.HasBody.made {name : String} {a : Aspect} (h : plan.HasBody name a)
    (hplan : Plan.ofModel m = .ok plan) :
    ∃ d kind enums s s', m.find? name = some d ∧
      Step.aspect m ⟨name, (m.inflection (m.nameParts name)).singular, (m.nameParts name).path, d⟩
        kind s = (.ok (a, enums), s') := by
  obtain ⟨_, _, -, hrun, -⟩ := Plan.ofModel_eq_ok hplan
  obtain ⟨e, he, hbody⟩ := h
  obtain ⟨n, d, t, t', hmem, hemission⟩ := Step.emission_of_mem_emissions hrun he
  obtain ⟨kind, e', hstructured, hbody⟩ := Step.emission_hasBody hemission hbody
  obtain ⟨a', enums, u', haspect, hone⟩ := Step.structured_hasBody hstructured
  obtain ⟨rfl, rfl⟩ := (hone name a).mp hbody
  exact ⟨d, kind, enums, u', t', Model.find?_eq_some_iff.mpr hmem, haspect⟩

theorem Plan.HasBody.renders {name : String} {a : Aspect} (h : plan.HasBody name a)
    (hplan : Plan.ofModel m = .ok plan) : ∃ d, m.find? name = some d ∧ Step.Renders m d a := by
  obtain ⟨d, _, _, _, _, hd, haspect⟩ := h.made hplan
  exact ⟨d, hd, (Step.aspect_renders haspect).2⟩

/-- A class body declares what its definition introduces. -/
theorem Plan.HasBody.declares {name : String} {a : Aspect} (h : plan.HasBody name a)
    (hplan : Plan.ofModel m = .ok plan) (element : String) :
    a.Declares element ↔ m.Introduces name element := by
  obtain ⟨d, hd, hrenders⟩ := h.renders hplan
  rw [hrenders.declares]
  constructor
  · exact fun h => ⟨d, hd, h⟩
  · rintro ⟨d', hd', h⟩
    obtain rfl := Model.eq_of_find? hd hd'
    exact h

/-- A definition is visited, and what it gives stands in the plan. -/
theorem Plan.emission_of_find? {name : String} {d : Definition} (hplan : Plan.ofModel m = .ok plan)
    (hd : m.find? name = some d) :
    ∃ e? t t', Step.emission m name d t = (.ok e?, t') ∧ ∀ e ∈ e?, e ∈ plan.emissions := by
  obtain ⟨_, _, -, hrun, -⟩ := ofModel_eq_ok hplan
  exact Step.emission_of_mem hrun (Model.find?_eq_some_iff.mp hd)

/-- A definition that gives a function has a class body. -/
theorem Model.GivesAspect.hasBody {name : String} (h : m.GivesAspect name)
    (hplan : Plan.ofModel m = .ok plan) : ∃ a, plan.HasBody name a := by
  obtain ⟨d, hd, -⟩ := id h
  obtain ⟨e?, t, t', hemission, hmem⟩ := Plan.emission_of_find? hplan hd
  obtain ⟨e, a, rfl, hbody⟩ := Step.emission_of_givesAspect hemission hd h
  exact ⟨a, e, hmem e rfl, hbody⟩

/-- An element is declared in the class body of every definition that introduces it
and is generated a class for. -/
theorem Model.Introduces.declares {name element : String} (h : m.Introduces name element)
    (hplan : Plan.ofModel m = .ok plan) (hgives : m.GivesType name) :
    plan.Declares name element := by
  obtain ⟨d, hd, hown, -⟩ := id h
  obtain ⟨d', hd', hlocal, hkinds⟩ := hgives
  obtain rfl := Model.eq_of_find? hd hd'
  have hbody : m.GivesAspect name → plan.Declares name element := fun hgives => by
    obtain ⟨a, hbody⟩ := hgives.hasBody hplan
    exact .body hbody ((hbody.declares hplan element).mpr h)
  rcases hkinds with hkind | hkind | hkind | hkind
  · exact hbody ⟨d, hd, hlocal, Or.inl hkind⟩
  · exact hbody ⟨d, hd, hlocal, Or.inr (Or.inl hkind)⟩
  · have hstructure : d.isStructure = true := by
      cases helements : d.elements with
      | none => simp [Definition.ownElements, helements] at hown
      | some elements => simp [Definition.isStructure, helements]
    exact hbody ⟨d, hd, hlocal, Or.inr (Or.inr ⟨hkind, hstructure⟩)⟩
  · obtain ⟨e?, t, t', hemission, hmem⟩ := Plan.emission_of_find? hplan hd
    obtain ⟨e, properties, rfl, ⟨p, hp, hevent⟩, hnames⟩ :=
      Step.emission_of_event hemission hlocal hkind
    rw [← hnames] at hown
    obtain ⟨q, hq, hname⟩ := List.mem_map.mp hown
    exact .event (hmem e rfl) hp hevent hq hname

/-- Where what a definition includes has class bodies, its own is built on them. -/
theorem Model.mixes_of_includes (hplan : Plan.ofModel m = .ok plan) {name n : String}
    (hgives : ∀ n, ReflTransGen m.Includes name n → m.defines n = true → m.GivesAspect n)
    (hreach : ReflTransGen m.Includes name n) : ReflTransGen plan.Mixes name n := by
  induction hreach with
  | refl => exact .refl
  | tail hbefore hstep ih =>
    refine ih.tail ?_
    obtain ⟨a, hbody⟩ := (hgives _ hbefore hstep.defines).hasBody hplan
    obtain ⟨d, hd, hrenders⟩ := hbody.renders hplan
    obtain ⟨d', hd', hmem⟩ := hstep
    obtain rfl := Model.eq_of_find? hd hd'
    rw [← hrenders.ancestors] at hmem
    exact ⟨a, hbody, List.mem_map.mp hmem⟩

/-- What the class bodies of a plan declare of the elements of a definition. -/
structure Plan.DeclaresElements (plan : Plan) (m : Model) (name : String) (d : Definition) :
    Prop where
  /-- Every definition that gives a function has a class body. -/
  bodies : ∀ n, m.GivesAspect n → ∃ a, plan.HasBody n a
  /-- It declares what the definition introduces. -/
  introduced : ∀ n a, plan.HasBody n a → ∀ element, a.Declares element ↔ m.Introduces n element
  /-- An element is declared in a class body, unless there is no class for any
  definition that introduces it. -/
  declared : ∀ element ∈ Table.names (m.allElements d),
    (∃ n, ReflTransGen m.Includes name n ∧ plan.Declares n element) ∨
      ∀ n, ReflTransGen m.Includes name n → m.Introduces n element → ¬ m.GivesType n
  /-- Where the definition and all it includes give functions, one of those that its
  class is built on declares the element. -/
  mixed : (∀ n, ReflTransGen m.Includes name n → m.defines n = true → m.GivesAspect n) →
    ∀ element ∈ Table.names (m.allElements d),
      ∃ n, ReflTransGen plan.Mixes name n ∧ ∃ a, plan.HasBody n a ∧ a.Declares element
  /-- A class body is printed with its properties. -/
  printed : ∀ c n a, plan.HasBody n a →
    PrintsProperties c (Aspect.style c) a.properties (a.body c)
  /-- So is the class of an event. -/
  printedEvents : ∀ c, ∀ e ∈ plan.emissions, ∀ p ∈ e.placements, ∀ written doc full properties,
    .event written doc full properties ∈ p.declarations →
      PrintsProperties c ⟨"declare ", false⟩ properties
        ((eventCode c written doc full properties).flatMap Code.inside)

/-- Where no definition includes itself, the elements of a definition are those that
it introduces or that something it includes introduces.  The class bodies of a plan
declare them. -/
theorem Model.elements_declared (hacyclic : m.AcyclicIncludes) {name : String} {d : Definition}
    (hd : m.find? name = some d) :
    (∀ element, element ∈ Table.names (m.allElements d) ↔
      ∃ n, ReflTransGen m.Includes name n ∧ m.Introduces n element) ∧
    ∀ plan, Plan.ofModel m = .ok plan → plan.DeclaresElements m name d := by
  refine ⟨fun element => mem_names_allElements_iff_introduces hacyclic hd, fun plan hplan => ?_⟩
  refine ⟨fun n hgives => hgives.hasBody hplan, fun n a hbody => hbody.declares hplan, ?_, ?_,
    fun c _ a _ => a.prints c, fun c _ _ _ _ _ _ _ _ _ => prints_event c _ _ _ _⟩
  · intro element helement
    by_cases hclass : ∃ n, ReflTransGen m.Includes name n ∧ m.Introduces n element ∧ m.GivesType n
    · obtain ⟨n, hreach, hintroduces, hgives⟩ := hclass
      exact Or.inl ⟨n, hreach, hintroduces.declares hplan hgives⟩
    · exact Or.inr fun n hreach hintroduces hgives =>
        hclass ⟨n, hreach, hintroduces, hgives⟩
  · intro hgives element helement
    obtain ⟨n, hreach, hintroduces⟩ := exists_introduces hacyclic hd helement
    obtain ⟨d', hd', -⟩ := id hintroduces
    obtain ⟨a, hbody⟩ := (hgives n hreach (defines_of_find? hd')).hasBody hplan
    exact ⟨n, mixes_of_includes hplan hgives hreach, a, hbody,
      (hbody.declares hplan element).mpr hintroduces⟩

/-- Books include titles and prices, both of which include a time stamp, and state
their title once more. -/
def catalog : Model where
  definitions :=
    [("shop.Managed", {
        kind := some .aspect
        elements := some [("createdAt", { type := some (.name "cds.Timestamp") })] }),
     ("shop.Titled", {
        kind := some .aspect
        includes := some ["shop.Managed"]
        elements := some [("title", { type := some (.name "cds.String") })] }),
     ("shop.Priced", {
        kind := some .aspect
        includes := some ["shop.Managed"]
        elements := some [("price", { type := some (.name "cds.Decimal") })] }),
     ("shop.Books", {
        kind := some .entity
        includes := some ["shop.Titled", "shop.Priced"]
        elements := some
          [("ID", { type := some (.name "cds.UUID"), key := true }),
           ("title", { type := some (.name "cds.String") })] })]

theorem elements_declared_catalog :
    catalog.AcyclicIncludes ∧ ∃ plan, Plan.ofModel catalog = .ok plan ∧
      ∀ element ∈ ["createdAt", "title", "price", "ID"],
        ∃ n, ReflTransGen plan.Mixes "shop.Books" n ∧
          ∃ a, plan.HasBody n a ∧ a.Declares element ∧
            PrintsProperties {} (Aspect.style {}) a.properties (a.body {}) := by
  have hacyclic : catalog.AcyclicIncludes := Model.acyclicIncludes_of_order (by decide)
  obtain ⟨plan, hplan⟩ := Except.exists_eq_ok (x := Plan.ofModel catalog) (by decide +kernel)
  have hgives : ∀ n, ReflTransGen catalog.Includes "shop.Books" n → catalog.defines n = true →
      catalog.GivesAspect n := by
    intro n _ hdefined
    obtain ⟨d, hd⟩ := Option.isSome_iff_exists.mp hdefined
    have hall : ∀ entry ∈ catalog.definitions, Step.isLocalized entry.1 = false ∧
        (entry.2.kind = some .entity ∨ entry.2.kind = some .aspect) := by decide
    obtain ⟨hlocal, hkind⟩ := hall _ (Model.find?_eq_some_iff.mp hd)
    exact ⟨d, hd, hlocal, hkind.imp_right Or.inl⟩
  obtain ⟨d, hbooks⟩ : ∃ d, catalog.find? "shop.Books" = some d := ⟨_, rfl⟩
  refine ⟨hacyclic, plan, hplan, fun element helement => ?_⟩
  have hinherited : element ∈ Table.names (catalog.allElements d) := by
    cases hbooks
    revert element
    decide
  have hdeclared := (Model.elements_declared hacyclic hbooks).2 plan hplan
  obtain ⟨n, hmixes, a, hbody, helement⟩ := hdeclared.mixed hgives element hinherited
  exact ⟨n, hmixes, a, hbody, helement, hdeclared.printed {} n a hbody⟩

/-- The properties that a declaration states. -/
def Declaration.properties : Declaration → List Property
  | .aspect a => a.properties
  | .event _ _ _ properties => properties
  | _ => []

/-- The names of the properties in all class bodies of a plan. -/
def Plan.propertyNames (plan : Plan) : List String :=
  plan.emissions.flatMap fun e => e.placements.flatMap fun p =>
    p.declarations.flatMap fun d => d.properties.map (·.name)

/-- The lines of the code of all declarations of a plan. -/
def Plan.codeLines (c : Config) (plan : Plan) : List String :=
  plan.emissions.flatMap fun e => e.placements.flatMap fun p => Code.lines (p.code c)

theorem Plan.Declares.mem_propertyNames {name element : String} (h : plan.Declares name element) :
    element ∈ plan.propertyNames := by
  simp only [propertyNames, List.mem_flatMap, List.mem_map]
  cases h with
  | body hbody hdeclares =>
    obtain ⟨e, he, p, hp, doc, drafts, more, hdeclarations⟩ := hbody
    obtain ⟨q, hq, -, hname⟩ := hdeclares
    exact ⟨e, he, p, hp, .aspect _, by simp [hdeclarations], q, hq, hname⟩
  | event he hp hevent hq hname => exact ⟨_, he, _, hp, _, hevent, _, hq, hname⟩

/-- Books include a context with a title, and state the title once more. -/
def untitled : Model where
  definitions :=
    [("shop.Titled", {
        kind := some .context
        elements := some [("title", { type := some (.name "cds.String") })] }),
     ("shop.Books", {
        kind := some .entity
        includes := some ["shop.Titled"]
        elements := some
          [("ID", { type := some (.name "cds.UUID"), key := true }),
           ("title", { type := some (.name "cds.String") })] })]

/-- The title of the books is left out as inherited, and there is no class body of
the context that declares it.  No line of the code mentions it. -/
theorem untitled_lost :
    untitled.AcyclicIncludes ∧ ∃ plan d, Plan.ofModel untitled = .ok plan ∧
      untitled.find? "shop.Books" = some d ∧ "title" ∈ Table.names (untitled.allElements d) ∧
      (∀ n, ¬ plan.Declares n "title") ∧
      ∀ line ∈ plan.codeLines {}, ¬ "title".toList <:+: line.toList := by
  have hacyclic : untitled.AcyclicIncludes := Model.acyclicIncludes_of_order (by decide)
  obtain ⟨plan, hplan⟩ := Except.exists_eq_ok (x := Plan.ofModel untitled) (by decide +kernel)
  have hplans : (Plan.ofModel untitled).toOption.map (fun plan => (plan.propertyNames,
      (plan.codeLines {}).filter fun line => "title".toList <:+: line.toList)) =
      some (["ID"], []) := by
    decide +kernel
  rw [hplan] at hplans
  obtain ⟨hnames, hlines⟩ := Prod.mk.inj (Option.some.inj hplans)
  refine ⟨hacyclic, plan, _, hplan, rfl, by decide, fun n hdeclares => ?_,
    fun line hline hinfix => ?_⟩
  · have hmem := hdeclares.mem_propertyNames
    rw [hnames] at hmem
    revert hmem
    decide
  · exact List.filter_eq_nil_iff.mp hlines line hline (decide_eq_true hinfix)

end SchemaTypes
