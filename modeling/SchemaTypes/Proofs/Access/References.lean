import SchemaTypes.Proofs.Access.Layout
import SchemaTypes.Proofs.ClassBody
import SchemaTypes.Proofs.Code.Fault
import SchemaTypes.Proofs.Code.Store
import SchemaTypes.Proofs.Declaration

/-!
# References to elements

A reference names a definition and a path to one of its elements.  In the model the path
leads from element to element, through structures that are written in place
(`Model.Leads`), and it may go on at the target of an association (`Model.Reaches`).
What it leads to is declared: the class body of the definition, or of something it
includes, has a property for the first element, and the type of the property leads on as
the element does (`Model.Leads.property`).

A reference is written as an access to the class of the definition, and declarations and
accesses are laid out by different functions of the mode.  In the structured mode the two
agree on every path that reaches an element.  In the flat mode they agree on a path that
leads to a leaf, without an association on the way (`compile_references`), and there are
paths across associations on which they do not (`authorName_missed`).
-/

namespace SchemaTypes

open Relation

/-! ## Walks in the model -/

namespace Definition

/-- Whether an element is a structure that is written in place. -/
def isInline (d : Definition) : Bool :=
  d.items.isNone && !Model.isPlainEnum d && d.type.isNone

/-- Elements of structures that are written in place lead from an element to another
one. -/
inductive Leads : Definition → List String → Definition → Prop
  | here (d : Definition) : Leads d [] d
  | member {d member leaf : Definition} {name : String} {path : List String} :
      d.isInline = true → (name, member) ∈ d.ownElements → Leads member path leaf →
        Leads d (name :: path) leaf

/-- Whether an element has no elements to walk on to in place. -/
def isLeaf (d : Definition) : Bool := !(d.isInline && !d.ownElements.isEmpty)

/-- An element refers to elements of a definition, by a path or with a colon. -/
inductive RefersTo (d : Definition) (head : String) (access : List String) : Prop
  | path : d.items = none → d.type = some (.path (head :: access)) → RefersTo d head access
  | colon {text trailing : String} : d.items = none → d.type = some (.name text) →
      Text.splitOn ':' text = [head, trailing] → access = Text.splitOn '.' trailing →
        RefersTo d head access

end Definition

namespace Model

/-- A path leads from a definition to an element: first to an element that the
definition or something it includes introduces in its class body, and then through
structures that are written in place. -/
inductive Leads (m : Model) (head : String) : List String → Definition → Prop
  | element {n name : String} {d element leaf : Definition} {path : List String} :
      ReflTransGen m.Includes head n → m.GivesAspect n → m.find? n = some d →
      (name, element) ∈ d.ownElements → m.isInherited d name = false → element.Leads path leaf →
        Leads m head (name :: path) leaf

/-- A path leads from a definition to an element, and goes on at the target of every
association on the way. -/
inductive Reaches (m : Model) : String → List String → Definition → Prop
  | last {head : String} {path : List String} {leaf : Definition} :
      m.Leads head path leaf → Reaches m head path leaf
  | across {head target : String} {path more : List String} {association leaf : Definition} :
      m.Leads head path association → association.items = none →
      isPlainEnum association = false → association.isAssociation = true →
      association.target = some target → Reaches m target more leaf →
        Reaches m head (path ++ more) leaf

end Model

/-! ## Resolved types -/

namespace Model

open Resolution

variable {m : Model} {site : Site} {levels : Nat} {outermost : Bool} {element leaf : Definition}
  {hint : String} {info : TypeInfo}

theorem mem_of_forEntries {α : Type} {resolve : String → α → Resolution TypeInfo}
    {name : String} {a : α} :
    ∀ {entries : List (String × α)} {members : List (String × TypeInfo)},
      (forEntries resolve entries).outcome = .ok members → (name, a) ∈ entries →
        ∃ info, (name, info) ∈ members ∧ (resolve name a).outcome = .ok info
  | (other, b) :: rest, members, h, hmem => by
    obtain ⟨info, hinfo, hrest, -⟩ := andThen_eq_ok h
    obtain ⟨infos, hinfos, rfl, -⟩ := andThen_found_eq_ok hrest
    rcases List.mem_cons.mp hmem with heq | hmem
    · cases heq
      exact ⟨info, List.mem_cons_self, hinfo⟩
    · obtain ⟨info', hinfo', hresolved⟩ := mem_of_forEntries hinfos hmem
      exact ⟨info', List.mem_cons_of_mem _ hinfo', hresolved⟩

/-- The type of a structure that is written in place has the types of its elements for
members. -/
theorem resolveWithin_inline (hinline : element.isInline = true)
    (h : (m.resolveWithin site levels outermost element hint).outcome = .ok info) :
    ∃ levels' members, levels = levels' + 1 ∧
      info = .inline (element.notNull || element.key) members ∧
      (forEntries (fun name member => m.resolveWithin site levels' false member (hint ++ "_" ++ name))
        element.ownElements).outcome = .ok members := by
  simp only [Definition.isInline, Bool.and_eq_true, Option.isNone_iff_eq_none,
    Bool.not_eq_true'] at hinline
  obtain ⟨⟨hitems, henum⟩, htype⟩ := hinline
  cases levels with
  | zero => cases h
  | succ levels =>
    rw [resolveWithin] at h
    simp only [hitems, henum, htype, Bool.false_eq_true, if_false] at h
    obtain ⟨members, hmembers, rfl, -⟩ := andThen_found_eq_ok h
    exact ⟨levels, members, rfl, rfl, hmembers⟩

/-- What elements lead to, the members of the type lead to. -/
theorem resolveWithin_walks {path : List String} (hleads : element.Leads path leaf)
    (h : (m.resolveWithin site levels outermost element hint).outcome = .ok info) :
    ∃ levels' outermost' hint' info', info.Walks path info' ∧
      (m.resolveWithin site levels' outermost' leaf hint').outcome = .ok info' := by
  induction hleads generalizing levels outermost hint info with
  | here d => exact ⟨levels, outermost, hint, info, .here info, h⟩
  | member hinline hmem _ ih =>
    obtain ⟨levels', members, rfl, rfl, hmembers⟩ := resolveWithin_inline hinline h
    obtain ⟨info', hinfo', hresolved⟩ := mem_of_forEntries hmembers hmem
    obtain ⟨l, out, hint', last, hwalks, hlast⟩ := ih hresolved
    exact ⟨l, out, hint', last, .member hinfo' hwalks, hlast⟩

theorem resolveAccess_eq_ok {name : String} {access : List String} {reference notNull : Bool}
    (h : (m.resolveAccess site name access reference hint notNull).outcome = .ok info) :
    ∃ d, m.find? name = some d ∧
      info = .userDefined notNull ⟨name, m.placeFrom site.home name,
        m.inflection (m.nameParts name), d.kind, access, reference⟩ := by
  obtain ⟨u, hu, rfl, -⟩ := andThen_found_eq_ok h
  obtain ⟨d, hd, rfl⟩ := resolveUserDefined_eq_ok hu
  exact ⟨d, hd, rfl⟩

/-- A type that is stated by its name is an association to the target of the element, or
nothing is held by it.  In either case it keeps what is said about its values. -/
theorem resolveName_eq_ok {name : String} {notNull : Bool}
    (h : (m.resolveName site name element hint notNull).outcome = .ok info) :
    (∃ container target u, Container.ofName? name = some container ∧
      element.target = some target ∧
      (m.resolveUserDefined site target [] false hint).outcome = .ok u ∧
      info = .association (notNull || element.isToMany) container element.isToMany
        (site.isCurrent target) u) ∨ info.isSimple = true ∧ info.notNull = notNull := by
  have haccess : ∀ {name access reference},
      (m.resolveAccess site name access reference hint notNull).outcome = .ok info →
        info.isSimple = true ∧ info.notNull = notNull := by
    intro name access reference h
    obtain ⟨d, -, rfl⟩ := resolveAccess_eq_ok h
    exact ⟨rfl, rfl⟩
  rw [resolveName] at h
  split at h
  · rw [resolveColon] at h
    split at h
    · exact Or.inr (haccess h)
    · cases h
  · split at h
    · next container hcontainer =>
      rw [resolveAssociation] at h
      split at h
      · cases h
      · next target htarget =>
        obtain ⟨u, hu, rfl, -⟩ := andThen_found_eq_ok h
        exact Or.inl ⟨container, target, u, hcontainer, htarget, hu, rfl⟩
    · right
      split at h
      · cases h
        exact ⟨rfl, rfl⟩
      · split at h
        · rw [resolveSelf] at h
          split at h
          · cases h
          · obtain ⟨place, -, rfl, -⟩ := andThen_found_eq_ok h
            exact ⟨rfl, rfl⟩
        · split at h
          · exact haccess h
          · dsimp only at h
            split at h
            · rw [resolveLibrary] at h
              split at h
              · cases h
              · cases h
                exact ⟨rfl, rfl⟩
            · exact haccess h

/-- A type that is stated by its name is no structure. -/
theorem resolveName_not_nested {name : String} {notNull : Bool}
    (h : (m.resolveName site name element hint notNull).outcome = .ok info) :
    info.isNested = false := by
  rcases resolveName_eq_ok h with ⟨_, _, _, -, -, -, rfl⟩ | ⟨hsimple, -⟩
  · rfl
  · cases info <;> first | rfl | cases hsimple

/-- The type of a leaf has no members. -/
theorem resolveWithin_leaf (hleaf : element.isLeaf = true)
    (h : (m.resolveWithin site levels outermost element hint).outcome = .ok info) :
    info.isNested = false := by
  cases levels with
  | zero => cases h
  | succ levels =>
    by_cases hinline : element.isInline = true
    · obtain ⟨levels', members, -, rfl, hmembers⟩ := resolveWithin_inline hinline h
      have hempty : element.ownElements = [] := by
        simpa [Definition.isLeaf, hinline] using hleaf
      rw [hempty] at hmembers
      cases hmembers
      rfl
    · rw [resolveWithin] at h
      cases hitems : element.items with
      | some items =>
        simp only [hitems] at h
        obtain ⟨item, -, rfl, -⟩ := andThen_found_eq_ok h
        rfl
      | none =>
        simp only [hitems] at h
        split at h
        · cases h
          rfl
        · next henum =>
          split at h
          · next htype => simp [Definition.isInline, hitems, htype, henum] at hinline
          · cases h
          · obtain ⟨d, -, rfl⟩ := resolveAccess_eq_ok h
            rfl
          · exact resolveName_not_nested h

/-- An association is resolved to its target. -/
theorem resolveWithin_association {target : String} (hitems : element.items = none)
    (henum : isPlainEnum element = false) (hassociation : element.isAssociation = true)
    (htarget : element.target = some target)
    (h : (m.resolveWithin site levels outermost element hint).outcome = .ok info) :
    ∃ notNull container many toSelf, ∃ u : UserDefined,
      info = .association notNull container many toSelf u ∧ u.full = target := by
  obtain ⟨name, container, htype, hcolon, hcontainer⟩ : ∃ name container,
      element.type = some (.name name) ∧ name.toList.contains ':' = false ∧
        Container.ofName? name = some container := by
    rcases element with ⟨_, _ | _ | _⟩ <;>
      simp only [Definition.isAssociation, Definition.isComposition, Definition.typeName?,
        Bool.or_eq_true, beq_iff_eq, Option.some.injEq, reduceCtorEq, or_self] at hassociation
    rcases hassociation with rfl | rfl
    · exact ⟨_, .association, rfl, by decide, rfl⟩
    · exact ⟨_, .composition, rfl, by decide, rfl⟩
  cases levels with
  | zero => cases h
  | succ levels =>
    rw [resolveWithin] at h
    simp only [hitems, henum, htype, resolveName, hcolon, hcontainer, resolveAssociation, htarget,
      Bool.false_eq_true, if_false] at h
    obtain ⟨u, hu, rfl, -⟩ := andThen_found_eq_ok h
    obtain ⟨d, -, rfl⟩ := resolveUserDefined_eq_ok hu
    exact ⟨_, _, _, _, _, rfl, rfl⟩

/-- A reference is resolved to an access to elements of the definition. -/
theorem resolveWithin_reference {head : String} {access : List String}
    (hrefers : element.RefersTo head access)
    (h : (m.resolveWithin site levels outermost element hint).outcome = .ok info) :
    ∃ notNull d, m.find? head = some d ∧
      info = .userDefined notNull ⟨head, m.placeFrom site.home head,
        m.inflection (m.nameParts head), d.kind, access, true⟩ := by
  cases levels with
  | zero => cases h
  | succ levels =>
    rw [resolveWithin] at h
    cases hrefers with
    | path hitems htype =>
      have henum : isPlainEnum element = false := by
        simp [isPlainEnum, htype]
      simp only [hitems, henum, htype, Bool.false_eq_true, if_false] at h
      exact ⟨_, resolveAccess_eq_ok h⟩
    | @colon text trailing hitems htype hsplit haccess =>
      have hcolon : ':' ∈ text.toList := Text.mem_of_splitOn_eq_pair hsplit
      have hbuiltin : isBuiltin text = false := by
        have hnone : ∀ name ∈ Table.names builtinTypes, ':' ∉ name.toList := by decide
        by_contra hbuiltin
        rw [Bool.not_eq_false, isBuiltin, builtin?] at hbuiltin
        exact hnone text ((Table.mem_names_iff _ _).mpr hbuiltin) hcolon
      have henum : isPlainEnum element = false := by
        simp [isPlainEnum, htype, hbuiltin]
      have hcontains : text.toList.contains ':' = true := List.contains_iff_mem.mpr hcolon
      simp only [hitems, henum, htype, resolveName, hcontains, resolveColon, hsplit,
        Bool.false_eq_true, if_false, if_true, ← haccess] at h
      exact ⟨_, resolveAccess_eq_ok h⟩

end Model

/-! ## Class bodies -/

namespace Step

variable {m : Model}

/-- What is declared for an element that is not inherited has its type. -/
theorem bodyOf_property {o : ClassOwner} {property : String} {element : Definition} :
    ∀ {elements : Table Definition} {body : ClassBody} {s s' : Session},
      bodyOf m o elements s = (.ok body, s') → (property, element) ∈ elements →
      m.isInherited o.definition property = false →
        ∃ p ∈ body.properties, p.name = property ∧ p.anonymous = false ∧
          ∃ site, (m.resolve site element (o.hint property)).outcome = .ok p.type
  | (other, first) :: rest, _, s, _, h, hmem, hown => by
    rcases bodyOf_cons_eq_ok h with ⟨hinherited, h⟩ | ⟨-, body, t, others, hbody, hothers, rfl⟩
    · rcases List.mem_cons.mp hmem with heq | hmem
      · cases heq
        rw [hinherited] at hown
        cases hown
      · exact bodyOf_property h hmem hown
    · rcases List.mem_cons.mp hmem with heq | hmem
      · cases heq
        obtain ⟨type, u, foreignKeys, htype, -, rfl⟩ := elementBody_eq_ok hbody
        exact ⟨_, List.mem_append_left _ List.mem_cons_self, rfl, rfl, _, (Prod.mk.inj htype).1⟩
      · obtain ⟨p, hp, hproperty⟩ := bodyOf_property hothers hmem hown
        exact ⟨p, List.mem_append_right _ hp, hproperty⟩

end Step

variable {m : Model} {plan : Plan}

/-- A class body declares what its definition introduces, with its type. -/
theorem Plan.HasBody.property {name property : String} {a : Aspect} {d element : Definition}
    (h : plan.HasBody name a) (hplan : Plan.ofModel m = .ok plan) (hd : m.find? name = some d)
    (helement : (property, element) ∈ d.ownElements) (hown : m.isInherited d property = false) :
    ∃ p ∈ a.properties, p.name = property ∧ p.anonymous = false ∧
      ∃ site hint, (m.resolve site element hint).outcome = .ok p.type := by
  obtain ⟨d', _, _, _, _, hd', haspect⟩ := h.made hplan
  obtain rfl := Model.eq_of_find? hd hd'
  obtain ⟨_, _, -, body, _, hbody, _, -, -, rfl⟩ := Step.aspect_eq_ok haspect
  obtain ⟨p, hp, hname, hanonymous, site, htype⟩ := Step.bodyOf_property hbody helement hown
  exact ⟨p, hp, hname, hanonymous, site, _, htype⟩

namespace Plan

/-- A class body of a definition, or of something it includes, has a property. -/
def HasProperty (plan : Plan) (m : Model) (name : String) (p : Property) : Prop :=
  ∃ n a, ReflTransGen m.Includes name n ∧ plan.HasBody n a ∧ p ∈ a.properties

/-- A class body of a definition, or of something it includes, declares a property, and
members below it, by the names on a path. -/
def DeclaresPath (plan : Plan) (m : Model) (c : Config) (name : String) (path : List String) :
    Prop :=
  ∃ p, plan.HasProperty m name p ∧
    ∃ code ∈ p.code c (Aspect.style c), Code.Declares (Aspect.style c) path code

/-- A path walks declared members: of a definition, and of the target of every
association on the way. -/
inductive Walks (plan : Plan) (m : Model) (c : Config) : String → List String → Prop
  | within {name : String} {path : List String} :
      plan.DeclaresPath m c name path → Walks plan m c name path
  | across {name : String} {path more : List String} {p : Property}
      {notNull many toSelf : Bool} {container : Container} {target : UserDefined} :
      plan.HasProperty m name p →
      p.type.Walks path (.association notNull container many toSelf target) →
      plan.DeclaresPath m c name (p.name :: path) → Walks plan m c target.full more →
        Walks plan m c name (p.name :: path ++ more)

/-- In the flat mode, the leaves of a property are declared by the names on the paths to
them. -/
theorem HasProperty.declares_flat {name : String} {p : Property} {path : List String}
    {info : TypeInfo} {c : Config} (h : plan.HasProperty m name p) (hwalks : p.type.Walks path info)
    (hleaf : info.isNested = false) (hflat : c.inlineMode = .flat) :
    plan.DeclaresPath m c name [Text.join "_" (p.name :: path)] := by
  have hkey := hwalks.mem_flatKeys hleaf p.name
  obtain ⟨code, hcode, type, notNull, rfl⟩ :=
    TypeInfo.declares_of_mem_flatKeys c (Aspect.style c) (p.typeText c) hkey
  refine ⟨p, h, (Aspect.style c).plain _ type notNull, List.mem_append_right _ ?_, .line⟩
  rw [TypeInfo.propertyCode, hflat]
  exact hcode

/-- In the structured mode, what a property leads to is declared below it. -/
theorem HasProperty.declares_structured {name : String} {p : Property} {path : List String}
    {info : TypeInfo} {c : Config} (h : plan.HasProperty m name p) (hwalks : p.type.Walks path info)
    (hstructured : c.inlineMode = .structured) : plan.DeclaresPath m c name (p.name :: path) := by
  refine ⟨p, h, _, List.mem_append_right _ ?_,
    hwalks.declares c (Aspect.style c) p.name (p.typeText c)⟩
  rw [TypeInfo.propertyCode, hstructured]
  exact List.mem_singleton.mpr rfl

end Plan

/-- What a path leads to in the model, it leads to from a property of a class body. -/
theorem Model.Leads.property {head : String} {path : List String} {leaf : Definition}
    (h : m.Leads head path leaf) (hplan : Plan.ofModel m = .ok plan) :
    ∃ p rest info, plan.HasProperty m head p ∧ path = p.name :: rest ∧ p.type.Walks rest info ∧
      ∃ site levels outermost hint,
        (m.resolveWithin site levels outermost leaf hint).outcome = .ok info := by
  cases h with
  | element hreach hgives hd helement hown hleads =>
    obtain ⟨a, hbody⟩ := hgives.hasBody hplan
    obtain ⟨p, hp, rfl, -, site, hint, htype⟩ := hbody.property hplan hd helement hown
    obtain ⟨levels, outermost, hint', info, hwalks, hinfo⟩ := resolveWithin_walks hleads htype
    exact ⟨p, _, info, ⟨_, a, hreach, hbody, hp⟩, rfl, hwalks, site, levels, outermost, hint',
      hinfo⟩

theorem Model.Leads.ne_nil {head : String} {path : List String} {leaf : Definition}
    (h : m.Leads head path leaf) : path ≠ [] := by
  cases h
  exact List.cons_ne_nil _ _

theorem Model.Reaches.ne_nil {head : String} {path : List String} {leaf : Definition}
    (h : m.Reaches head path leaf) : path ≠ [] := by
  cases h with
  | last hleads => exact hleads.ne_nil
  | across hleads => exact List.append_ne_nil_of_left_ne_nil hleads.ne_nil _

/-- In the flat mode, the path to a leaf is declared as one name. -/
theorem Model.Leads.declares_flat {head : String} {path : List String} {leaf : Definition}
    {c : Config} (h : m.Leads head path leaf) (hplan : Plan.ofModel m = .ok plan)
    (hleaf : leaf.isLeaf = true) (hflat : c.inlineMode = .flat) :
    plan.DeclaresPath m c head [Text.join "_" path] := by
  obtain ⟨p, rest, info, hproperty, rfl, hwalks, site, levels, outermost, hint, hinfo⟩ :=
    h.property hplan
  exact hproperty.declares_flat hwalks (resolveWithin_leaf hleaf hinfo) hflat

/-- In the structured mode, a path that reaches an element walks declared members. -/
theorem Model.Reaches.walks {head : String} {path : List String} {leaf : Definition}
    {c : Config} (h : m.Reaches head path leaf) (hplan : Plan.ofModel m = .ok plan)
    (hstructured : c.inlineMode = .structured) : plan.Walks m c head path := by
  induction h with
  | last hleads =>
    obtain ⟨p, rest, info, hproperty, rfl, hwalks, -⟩ := hleads.property hplan
    exact .within (hproperty.declares_structured hwalks hstructured)
  | across hleads hitems henum hassociation htarget _ ih =>
    obtain ⟨p, rest, info, hproperty, rfl, hwalks, site, levels, outermost, hint, hinfo⟩ :=
      hleads.property hplan
    obtain ⟨notNull, container, many, toSelf, u, rfl, rfl⟩ :=
      resolveWithin_association hitems henum hassociation htarget hinfo
    exact .across hproperty hwalks (hproperty.declares_structured hwalks hstructured) ih

/-! ## References -/

/-- The access to elements of a definition, as written in a file of a namespace. -/
def Model.accessText (m : Model) (home : Path) (name keys : String) : String :=
  "__.DeepRequired<" ++ ((m.placeFrom home name).qualifier ++
    (m.inflection (m.nameParts name)).singular) ++ ">" ++ keys

/-- A reference to elements of a definition is written as an access to them.  In the flat
mode it names a declared property where its path leads to a leaf.  In the structured mode
it walks declared members wherever its path comes to. -/
theorem compile_references {m : Model} {c : Config} {o : Output} (h : compile m c = .ok o) :
    ∃ plan, Plan.ofModel m = .ok plan ∧ plan.render c = .ok o ∧
      ∀ {element leaf : Definition} {head : String} {access : List String} {site : Site}
        {levels : Nat} {outermost : Bool} {hint : String} {info : TypeInfo},
        element.RefersTo head access →
        (m.resolveWithin site levels outermost element hint).outcome = .ok info →
        (c.inlineMode = .flat → m.Leads head access leaf → leaf.isLeaf = true →
          info.text c = m.accessText site.home head
            ("[" ++ Naming.quote (Text.join "_" access) ++ "]") ∧
          plan.DeclaresPath m c head [Text.join "_" access]) ∧
        (c.inlineMode = .structured → m.Reaches head access leaf →
          info.text c = m.accessText site.home head
            (String.join (access.map fun name => "[" ++ Naming.quote name ++ "]")) ∧
          plan.Walks m c head access) := by
  obtain ⟨plan, hplan, hrender⟩ := compile_eq_ok h
  refine ⟨plan, hplan, hrender, fun {element leaf head access site _ _ _ info} hrefers hinfo => ?_⟩
  obtain ⟨notNull, d, -, rfl⟩ := Model.resolveWithin_reference hrefers hinfo
  have htext : access ≠ [] → TypeInfo.text c (.userDefined notNull
      ⟨head, m.placeFrom site.home head, m.inflection (m.nameParts head), d.kind, access, true⟩) =
      m.accessText site.home head (c.inlineMode.access access) := by
    intro hne
    rw [TypeInfo.text, UserDefined.text_of_access hne]
    rfl
  constructor
  · intro hflat hleads hleaf
    refine ⟨?_, hleads.declares_flat hplan hleaf hflat⟩
    rw [htext hleads.ne_nil, hflat]
    rfl
  · intro hstructured hreaches
    refine ⟨?_, hreaches.walks hplan hstructured⟩
    rw [htext hreaches.ne_nil, hstructured]
    rfl

/-- The width of a crate. -/
def crateWidth : Definition :=
  { kind := some .type, type := some (.name "shop.Crates:dimensions.width") }

/-- The city of the owner of a crate. -/
def ownerCity : Definition :=
  { kind := some .type, type := some (.path ["shop.Crates", "owner", "address", "city"]) }

/-- Crates have an owner and a size that they include. -/
def crates : Model where
  definitions :=
    [("shop.Sized", {
        kind := some .aspect
        elements := some
          [("dimensions", {
              elements := some
                [("width", { type := some (.name "cds.Integer") }),
                 ("height", { type := some (.name "cds.Integer") })] })] }),
     ("shop.Crates", {
        kind := some .entity
        includes := some ["shop.Sized"]
        elements := some
          [("owner", { type := some (.name "cds.Association"), target := some "shop.Owners" })] }),
     ("shop.Owners", {
        kind := some .entity
        elements := some
          [("ID", { type := some (.name "cds.UUID"), key := true }),
           ("address", {
              elements := some [("city", { type := some (.name "cds.String") })] })] }),
     ("shop.Width", crateWidth),
     ("shop.City", ownerCity)]

theorem crates_leads_width :
    crates.Leads "shop.Crates" ["dimensions", "width"] { type := some (.name "cds.Integer") } := by
  have hsized : crates.GivesAspect "shop.Sized" := ⟨_, rfl, by decide, Or.inr (Or.inl rfl)⟩
  refine .element (.single ⟨_, rfl, by decide⟩) hsized rfl List.mem_cons_self (by decide) ?_
  exact .member (by decide) List.mem_cons_self (.here _)

theorem crates_reaches_city :
    crates.Reaches "shop.Crates" ["owner", "address", "city"]
      { type := some (.name "cds.String") } := by
  have hcrates : crates.GivesAspect "shop.Crates" := ⟨_, rfl, by decide, Or.inl rfl⟩
  have howners : crates.GivesAspect "shop.Owners" := ⟨_, rfl, by decide, Or.inl rfl⟩
  have howner : crates.Leads "shop.Crates" ["owner"]
      { type := some (.name "cds.Association"), target := some "shop.Owners" } :=
    .element .refl hcrates rfl List.mem_cons_self (by decide) (.here _)
  refine .across howner rfl (by decide) (by decide) rfl (.last ?_)
  refine .element .refl howners rfl (List.mem_cons_of_mem _ List.mem_cons_self) (by decide) ?_
  exact .member (by decide) List.mem_cons_self (.here _)

theorem compile_references_crates :
    (∃ (o : Output) (plan : Plan) (info : TypeInfo),
      compile crates { inlineMode := .flat } = .ok o ∧ Plan.ofModel crates = .ok plan ∧
      (crates.resolve { home := ⟨["shop"]⟩ } crateWidth "shop.Width").outcome = .ok info ∧
      info.text { inlineMode := .flat } = "__.DeepRequired<Crate>['dimensions_width']" ∧
      plan.DeclaresPath crates { inlineMode := .flat } "shop.Crates" ["dimensions_width"]) ∧
    ∃ (o : Output) (plan : Plan) (info : TypeInfo),
      compile crates {} = .ok o ∧ Plan.ofModel crates = .ok plan ∧
      (crates.resolve { home := ⟨["shop"]⟩ } ownerCity "shop.City").outcome = .ok info ∧
      info.text {} = "__.DeepRequired<Crate>['owner']['address']['city']" ∧
      plan.Walks crates {} "shop.Crates" ["owner", "address", "city"] := by
  obtain ⟨plan, hplan⟩ := Except.exists_eq_ok (x := Plan.ofModel crates) (by decide +kernel)
  constructor
  · obtain ⟨o, ho⟩ := compile_ok { inlineMode := .flat } hplan
    obtain ⟨plan', hplan', -, hrefs⟩ := compile_references ho
    obtain rfl : plan = plan' := Except.ok.inj (hplan.symm.trans hplan')
    have hsplit : Text.splitOn ':' "shop.Crates:dimensions.width" =
        ["shop.Crates", "dimensions.width"] := by decide
    have hrefers : crateWidth.RefersTo "shop.Crates" ["dimensions", "width"] :=
      .colon rfl rfl hsplit (by decide)
    obtain ⟨info, hinfo⟩ := Except.exists_eq_ok
      (x := (crates.resolve { home := ⟨["shop"]⟩ } crateWidth "shop.Width").outcome)
      (by decide +kernel)
    obtain ⟨htext, hdeclares⟩ := (hrefs hrefers hinfo).1 rfl crates_leads_width (by decide)
    exact ⟨o, plan, info, ho, hplan, hinfo, htext.trans (by decide +kernel), hdeclares⟩
  · obtain ⟨o, ho⟩ := compile_ok {} hplan
    obtain ⟨plan', hplan', -, hrefs⟩ := compile_references ho
    obtain rfl : plan = plan' := Except.ok.inj (hplan.symm.trans hplan')
    have hrefers : ownerCity.RefersTo "shop.Crates" ["owner", "address", "city"] := .path rfl rfl
    obtain ⟨info, hinfo⟩ := Except.exists_eq_ok
      (x := (crates.resolve { home := ⟨["shop"]⟩ } ownerCity "shop.City").outcome)
      (by decide +kernel)
    obtain ⟨htext, hwalks⟩ := (hrefs hrefers hinfo).2 rfl crates_reaches_city
    exact ⟨o, plan, info, ho, hplan, hinfo, htext.trans (by decide +kernel), hwalks⟩

/-- What the lines of the properties of all class bodies start with. -/
def Plan.openings (plan : Plan) (c : Config) : List String :=
  plan.emissions.flatMap fun e => e.placements.flatMap fun p => p.declarations.flatMap fun d =>
    d.properties.flatMap fun q => (q.code c (Aspect.style c)).map Code.opening

theorem Plan.DeclaresPath.exists_opening {c : Config} {name key : String} {path : List String}
    (h : plan.DeclaresPath m c name (key :: path)) :
    ∃ text ∈ plan.openings c, ((Aspect.style c).opening key).toList <+: text.toList := by
  obtain ⟨q, ⟨n, a, -, ⟨e, he, p, hp, doc, drafts, more, hdeclarations⟩, hq⟩, code, hcode,
    hdeclares⟩ := h
  refine ⟨code.opening, ?_, hdeclares.opening⟩
  have haspect : Declaration.aspect a ∈ p.declarations := by
    rw [hdeclarations]
    exact List.mem_cons_self
  simp only [openings, List.mem_flatMap, List.mem_map]
  exact ⟨e, he, p, hp, _, haspect, q, hq, code, hcode, rfl⟩

/-- The name of the author of a book. -/
def authorName : Definition :=
  { kind := some .type, type := some (.name "shop.Books:author.name") }

/-- Books have an author, who has a name. -/
def bookAuthors : Model where
  definitions :=
    [("shop.Books", {
        kind := some .entity
        elements := some
          [("ID", { type := some (.name "cds.UUID"), key := true }),
           ("author", {
              type := some (.name "cds.Association")
              target := some "shop.Authors" })] }),
     ("shop.Authors", {
        kind := some .entity
        elements := some
          [("ID", { type := some (.name "cds.UUID"), key := true }),
           ("name", { type := some (.name "cds.String") })] }),
     ("shop.AuthorName", authorName)]

theorem bookAuthors_reaches_name :
    bookAuthors.Reaches "shop.Books" ["author", "name"] { type := some (.name "cds.String") } := by
  have hbooks : bookAuthors.GivesAspect "shop.Books" := ⟨_, rfl, by decide, Or.inl rfl⟩
  have hauthors : bookAuthors.GivesAspect "shop.Authors" := ⟨_, rfl, by decide, Or.inl rfl⟩
  have hauthor : bookAuthors.Leads "shop.Books" ["author"]
      { type := some (.name "cds.Association"), target := some "shop.Authors" } :=
    .element .refl hbooks rfl (List.mem_cons_of_mem _ List.mem_cons_self) (by decide) (.here _)
  refine .across hauthor rfl (by decide) (by decide) rfl (.last ?_)
  exact .element .refl hauthors rfl (List.mem_cons_of_mem _ List.mem_cons_self) (by decide)
    (.here _)

/-- In the flat mode, a path across an association is written as the name of a property
that is not declared. -/
theorem authorName_missed :
    ∃ (o : Output) (plan : Plan) (info : TypeInfo),
      compile bookAuthors { inlineMode := .flat } = .ok o ∧ Plan.ofModel bookAuthors = .ok plan ∧
      authorName.RefersTo "shop.Books" ["author", "name"] ∧
      bookAuthors.Reaches "shop.Books" ["author", "name"] { type := some (.name "cds.String") } ∧
      (bookAuthors.resolve { home := ⟨["shop"]⟩ } authorName "shop.AuthorName").outcome = .ok info ∧
      info.text { inlineMode := .flat } = "__.DeepRequired<Book>['author_name']" ∧
      ¬ plan.DeclaresPath bookAuthors { inlineMode := .flat } "shop.Books" ["author_name"] := by
  have hopenings : (Plan.ofModel bookAuthors).toOption.map
      (fun plan => plan.openings { inlineMode := .flat }) =
      some ["declare ID?: __.Key<string>;", "declare author?: __.Association.to<Author> | null;",
        "declare author_ID?: string | null;", "declare ID?: __.Key<string>;",
        "declare name?: string | null;"] := by
    decide +kernel
  have htexts : (bookAuthors.resolve { home := ⟨["shop"]⟩ } authorName
      "shop.AuthorName").outcome.toOption.map (TypeInfo.text { inlineMode := .flat }) =
      some "__.DeepRequired<Book>['author_name']" := by
    decide +kernel
  obtain ⟨plan, hplan⟩ := Except.exists_eq_ok (x := Plan.ofModel bookAuthors) (by decide +kernel)
  obtain ⟨info, hinfo⟩ := Except.exists_eq_ok
    (x := (bookAuthors.resolve { home := ⟨["shop"]⟩ } authorName "shop.AuthorName").outcome)
    (by decide +kernel)
  rw [hplan] at hopenings
  rw [hinfo] at htexts
  have hsplit : Text.splitOn ':' "shop.Books:author.name" = ["shop.Books", "author.name"] := by
    decide
  obtain ⟨o, ho⟩ := compile_ok { inlineMode := .flat } hplan
  refine ⟨o, plan, info, ho, hplan, .colon rfl rfl hsplit (by decide), bookAuthors_reaches_name,
    hinfo, Option.some.inj htexts, fun hdeclares => ?_⟩
  obtain ⟨text, htext, hprefix⟩ := hdeclares.exists_opening
  have hall : plan.openings { inlineMode := .flat } = _ := Option.some.inj hopenings
  rw [hall] at htext
  revert text
  decide

end SchemaTypes
