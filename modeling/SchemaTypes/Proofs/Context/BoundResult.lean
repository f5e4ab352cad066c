import SchemaTypes.Proofs.Aliases
import SchemaTypes.Proofs.Context.SelfMarker
import SchemaTypes.Proofs.ForeignKeys
import SchemaTypes.Proofs.Nesting

/-!
# The entity in the result of a bound operation

The name that stands for the definition around it can occur in the result of an operation
at any depth of arrays and structures (`Definition.HasSelf`).  The operations of an entity
get their signatures while no definition is being written (`Step.Signs.context`), so the
resolver knows nothing for the name to stand for.  The result gets the name of the entity
instead before it is resolved.

This is done for the type of the result and for that of its items, and no deeper.  So the
entity is printed for the name exactly if the name occurs in one of these two places
(`Step.signature_bindsSelf`).  An occurrence in a structure, or in an array of arrays, is
refused as a type that stands for nothing (`halves_refused`).
-/

namespace SchemaTypes

/-! ## Occurrences -/

/-- A step into a type. -/
inductive Inward
  /-- To the items of an array. -/
  | item
  /-- To an element of a structure. -/
  | member (name : String)
deriving DecidableEq, Repr

/-- Steps lead from an element to one inside of it.  The values of an enum are written in
place, and what has a type of its own is not looked into. -/
inductive Definition.Encloses : Definition → List Inward → Definition → Prop
  | here {d : Definition} : Encloses d [] d
  | item {d items x : Definition} {path : List Inward} : d.items = some items →
      Encloses items path x → Encloses d (.item :: path) x
  | member {d element x : Definition} {name : String} {path : List Inward} : d.items = none →
      Model.isPlainEnum d = false → d.type = none → (name, element) ∈ d.ownElements →
      Encloses element path x → Encloses d (.member name :: path) x

/-- Steps lead from a type to one inside of it. -/
inductive TypeInfo.Encloses : TypeInfo → List Inward → TypeInfo → Prop
  | here {info : TypeInfo} : Encloses info [] info
  | item {notNull : Bool} {item held : TypeInfo} {path : List Inward} : Encloses item path held →
      Encloses (.array notNull item) (.item :: path) held
  | member {notNull : Bool} {members : List (String × TypeInfo)} {name : String}
      {info held : TypeInfo} {path : List Inward} : (name, info) ∈ members →
      Encloses info path held → Encloses (.inline notNull members) (.member name :: path) held

/-- Steps lead to a type that stands for the definition around it. -/
def Definition.HasSelf (d : Definition) (path : List Inward) : Prop :=
  ∃ x, d.Encloses path x ∧ x.items = none ∧ x.type = some (.name Definition.selfName)

/-- The result of an operation, or its items. -/
def Inward.IsShallow (path : List Inward) : Prop := path = [] ∨ path = [.item]

namespace Definition

variable {d items : Definition} {path : List Inward}

theorem isPlainEnum_of_own {name : String} (htype : d.type = some (.name name))
    (hname : isBuiltin name = false) : Model.isPlainEnum d = false := by
  simp [Model.isPlainEnum, htype, hname]

/-- The entity takes the place of a type that stands for the definition around. -/
theorem boundTo_of_type {entity : String} (hitems : d.items = none)
    (htype : d.type = some (.name selfName)) : d.boundTo entity = d.withType entity := by
  have hreference : d.isSelfReference = true := by
    rw [isSelfReference, Model.typeName?_eq_some_iff.mpr htype]
    simp
  rw [boundTo, if_pos hreference, hitems]

/-- The entity takes the place of items that stand for the definition around. -/
theorem boundTo_of_items {entity : String} (hitems : d.items = some items)
    (htype : items.type = some (.name selfName)) :
    d.boundTo entity = { d with items := some (items.withType entity) } := by
  have hreference : d.isSelfReference = true := by
    rw [isSelfReference, hitems, Option.any_some, Model.typeName?_eq_some_iff.mpr htype]
    simp
  rw [boundTo, if_pos hreference, hitems]

theorem HasSelf.iff_of_items (hitems : d.items = some items) :
    d.HasSelf path ↔ ∃ rest, path = .item :: rest ∧ items.HasSelf rest := by
  constructor
  · rintro ⟨x, hx, hnone, htype⟩
    cases hx with
    | here => cases hitems.symm.trans hnone
    | item hitems' hrest =>
      rw [hitems] at hitems'
      cases hitems'
      exact ⟨_, rfl, x, hrest, hnone, htype⟩
    | member hnone' => cases hitems.symm.trans hnone'
  · rintro ⟨rest, rfl, x, hx, hself⟩
    exact ⟨x, .item hitems hx, hself⟩

theorem HasSelf.iff_of_type {type : TypeRef} (hitems : d.items = none) (htype : d.type = some type) :
    d.HasSelf path ↔ path = [] ∧ type = .name selfName := by
  constructor
  · rintro ⟨x, hx, -, hself⟩
    cases hx with
    | here => exact ⟨rfl, Option.some.inj (htype.symm.trans hself)⟩
    | item hsome => cases hitems.symm.trans hsome
    | member _ _ hnone => cases htype.symm.trans hnone
  · rintro ⟨rfl, rfl⟩
    exact ⟨d, .here, hitems, htype⟩

end Definition

/-! ## Resolving without a definition around -/

namespace Resolution

variable {α β : Type}

theorem andThen_found_eq_error {r : Resolution α} {form : α → β} {e : CompileError}
    (h : (r.andThen fun a => found (form a)).outcome = .error e) : r.outcome = .error e := by
  rcases r with ⟨_ | a, needs⟩
  · cases h
    rfl
  · cases h

/-- Entries are refused for one of them. -/
theorem forEntries_eq_error {resolve : String → α → Resolution β} {e : CompileError} :
    ∀ {entries : List (String × α)}, (forEntries resolve entries).outcome = .error e →
      ∃ entry ∈ entries, (resolve entry.1 entry.2).outcome = .error e
  | [], h => by cases h
  | (name, a) :: rest, h => by
    rw [forEntries] at h
    cases hfirst : (resolve name a).outcome with
    | error e' =>
      rw [andThen, hfirst] at h
      cases h
      exact ⟨(name, a), List.mem_cons_self, hfirst⟩
    | ok b =>
      rw [andThen, hfirst] at h
      obtain ⟨entry, hentry, herror⟩ := forEntries_eq_error (andThen_found_eq_error h)
      exact ⟨entry, List.mem_cons_of_mem _ hentry, herror⟩

end Resolution

namespace Model

open Resolution

variable {m : Model} {site : Site} {d : Definition}

/-- What has a type where no definition is around holds no name for it. -/
theorem Resolvable.no_self (h : m.Resolvable site d) (hcurrent : site.current = none)
    (path : List Inward) : ¬ d.HasSelf path := by
  rintro ⟨x, hx, hnone, htype⟩
  induction hx with
  | here =>
    have henum := Definition.isPlainEnum_of_own htype (by decide)
    rw [Resolvable.iff_of_type hnone henum, htype] at h
    have hsome := (NameResolves.iff_of_self rfl).mp h
    rw [hcurrent] at hsome
    cases hsome
  | item hitems _ ih => exact ih ((Resolvable.iff_of_items hitems).mp h) hnone htype
  | member hitems henum htype' hmem _ ih =>
    rw [Resolvable.iff_of_type hitems henum, htype'] at h
    exact ih (h _ hmem) hnone htype

/-- Where no definition is around, a name that stands for something else in one stands for
something. -/
theorem NameResolves.without {text entity : String}
    (h : m.NameResolves { site with current := some entity } d text)
    (hself : text ≠ Definition.selfName) : m.NameResolves site d text := by
  cases h with
  | colon hcolon hsplit hdefined => exact .colon hcolon hsplit hdefined
  | association hcontainer htarget hdefined => exact .association hcontainer htarget hdefined
  | builtin hbuiltin hnone => exact .builtin hbuiltin hnone
  | self h => exact absurd h hself
  | definition hown hdefined => exact .definition hown hdefined
  | element hown haccess hdefined => exact .element hown haccess hdefined
  | library hown haccess hlibrary => exact .library hown haccess hlibrary

theorem resolveName_self {element : Definition} {hint : String} {notNull : Bool} :
    m.resolveName site Definition.selfName element hint notNull = m.resolveSelf site hint notNull :=
  rfl

/-- An element that has a type in a definition is refused where none is around for the name
that stands for it.  The induction is on the levels, as in the resolver. -/
theorem resolveWithin_eq_selfError {entity : String} (hcurrent : site.current = none) :
    ∀ {levels : Nat} {outermost : Bool} {element : Definition} {hint : String} {e : CompileError},
      element.nest < levels → m.Resolvable { site with current := some entity } element →
      (m.resolveWithin site levels outermost element hint).outcome = .error e →
        ∃ hint, e = .unresolvedType Definition.selfName hint
  | 0, _, _, _, _, hlevels, _, _ => absurd hlevels (Nat.not_lt_zero _)
  | levels + 1, outermost, element, hint, e, hlevels, hresolvable, h => by
    rw [resolveWithin] at h
    cases hitems : element.items with
    | some items =>
      simp only [hitems] at h
      rw [Definition.nest_of_items hitems] at hlevels
      exact resolveWithin_eq_selfError hcurrent (by omega)
        ((Resolvable.iff_of_items hitems).mp hresolvable) (andThen_found_eq_error h)
    | none =>
      simp only [hitems] at h
      split at h
      · cases h
      · next henum =>
        rw [Bool.not_eq_true] at henum
        rw [Resolvable.iff_of_type hitems henum] at hresolvable
        cases htype : element.type with
        | none =>
          simp only [htype] at h hresolvable
          obtain ⟨entry, hentry, herror⟩ := forEntries_eq_error (andThen_found_eq_error h)
          have hentry_lt : entry.2.nest < levels := by
            by_contra hle
            have hdeep := (Definition.lt_nest_of_structure hitems henum htype).mpr
              ⟨entry, hentry, Nat.le_of_not_lt hle⟩
            omega
          exact resolveWithin_eq_selfError hcurrent hentry_lt (hresolvable entry hentry) herror
        | some type =>
          simp only [htype] at h hresolvable
          rcases type with text | ⟨_ | ⟨head, access⟩⟩
          · by_cases hself : text = Definition.selfName
            · subst hself
              simp only [resolveName_self, resolveSelf, hcurrent] at h
              exact ⟨hint, (Except.error.inj h).symm⟩
            · obtain ⟨name, rfl⟩ := resolveName_bounded.refused h (hresolvable.without hself)
              exact (resolveName_bounded.limit h).elim
          · exact hresolvable.elim
          · obtain ⟨name, rfl⟩ := resolveAccess_bounded.refused h hresolvable
            exact (resolveAccess_bounded.limit h).elim

/-! ## The result of a bound operation -/

/-- The qualified name of one of a definition, as it is written in the file of a namespace. -/
def singularFrom (m : Model) (home : Path) (name : String) : String :=
  (m.placeFrom home name).qualifier ++ (m.inflection (m.nameParts name)).singular

/-- The name of a definition is resolved to the definition. -/
theorem resolveWithin_definition {levels : Nat} {outermost : Bool} {element : Definition}
    {hint name : String} (hitems : element.items = none) (htype : element.type = some (.name name))
    (hown : IsOwnName name) (hdefined : m.defines name = true) :
    ∃ u, (∀ c, (TypeInfo.userDefined (element.notNull || element.key) u).text c =
        m.singularFrom site.home name) ∧
      (m.resolveWithin site (levels + 1) outermost element hint).outcome =
        .ok (.userDefined (element.notNull || element.key) u) := by
  have henum : isPlainEnum element = false := Definition.isPlainEnum_of_own htype hown.builtin
  have hcontainer : Container.ofName? name = none := by
    rw [← Option.not_isSome_iff_eq_none]
    intro hsome
    cases hown.builtin.symm.trans (isBuiltin_of_container hsome)
  have hbuiltin : builtin? name = none := by
    rw [← Option.not_isSome_iff_eq_none]
    intro hsome
    cases hown.builtin.symm.trans hsome
  have hbounded : (m.resolveAccess site name [] false hint (element.notNull || element.key)).Bounded
      False (m.defines name = true) := resolveAccess_bounded
  obtain ⟨info, hinfo⟩ := hbounded.exists_ok not_false hdefined
  obtain ⟨d, -, rfl⟩ := resolveAccess_eq_ok hinfo
  refine ⟨⟨name, m.placeFrom site.home name, m.inflection (m.nameParts name), d.kind, [], false⟩,
    fun c => rfl, ?_⟩
  simp only [resolveWithin, hitems, henum, htype, resolveName, hown.colon, hcontainer, hbuiltin,
    if_neg hown.self, hdefined, Bool.false_eq_true, if_false, if_true, hinfo]

/-- The type of an element that has the name of a type is no structure. -/
theorem not_encloses_member {levels : Nat} {outermost : Bool} {element : Definition}
    {hint name member : String} {info held : TypeInfo} {path : List Inward}
    (hitems : element.items = none) (htype : element.type = some (.name name))
    (h : (m.resolveWithin site levels outermost element hint).outcome = .ok info) :
    ¬ info.Encloses (.member member :: path) held := by
  intro hencloses
  cases hencloses with
  | member hmem _ =>
    cases levels with
    | zero => cases h
    | succ levels =>
      simp only [resolveWithin, hitems, htype] at h
      split at h
      · cases h
      · rcases resolveName_eq_ok h with ⟨_, _, _, -, -, -, hinfo⟩ | ⟨hsimple, -⟩
        · cases hinfo
        · cases hsimple

variable {returns : Definition} {entity hint : String} {path : List Inward}

/-- Where no definition is around, an occurrence of the name for it has a type only in the result
itself or in its items. -/
theorem isShallow_of_resolve {type held : TypeInfo} (hcurrent : site.current = none)
    (h : (m.resolve site (returns.boundTo entity) hint).outcome = .ok type)
    (hself : returns.HasSelf path) (hheld : type.Encloses path held) : Inward.IsShallow path := by
  have hfree : ∀ path, ¬ (returns.boundTo entity).HasSelf path :=
    (resolveWithin_bounded.found h).2.no_self hcurrent
  by_cases hreference : returns.isSelfReference = true
  · rw [Definition.boundTo, if_pos hreference] at h hfree
    cases hitems : returns.items with
    | none =>
      rw [Definition.isSelfReference, hitems] at hreference
      have htype := Model.typeName?_eq_some_iff.mp (by simpa using hreference)
      exact Or.inl ((Definition.HasSelf.iff_of_type hitems htype).mp hself).1
    | some items =>
      simp only [hitems] at h hfree
      obtain ⟨rest, rfl, hrest⟩ := (Definition.HasSelf.iff_of_items hitems).mp hself
      cases hinner : items.items with
      | some inner =>
        obtain ⟨rest', rfl, hrest'⟩ := (Definition.HasSelf.iff_of_items hinner).mp hrest
        have hbound : (items.withType entity).items = some inner := hinner
        refine absurd ?_ (hfree (.item :: .item :: rest'))
        exact (Definition.HasSelf.iff_of_items rfl).mpr ⟨_, rfl,
          (Definition.HasSelf.iff_of_items hbound).mpr ⟨_, rfl, hrest'⟩⟩
      | none =>
        rw [resolve, resolveWithin] at h
        obtain ⟨item, hitem, rfl, -⟩ := andThen_found_eq_ok h
        cases hheld with
        | item hheld =>
          obtain ⟨x, hx, -⟩ := hrest
          cases hx with
          | here => exact Or.inr rfl
          | item hsome => cases hinner.symm.trans hsome
          | member =>
            have hbound : (items.withType entity).items = none := hinner
            exact absurd hheld (not_encloses_member hbound rfl hitem)
  · rw [Definition.boundTo, if_neg hreference] at hfree
    exact absurd hself (hfree path)

/-- For a result that stands for the definition around, the name of the entity is resolved. -/
theorem resolve_boundTo_of_type (site : Site) (hint : String) (hown : IsOwnName entity)
    (hdefined : m.defines entity = true) (hitems : returns.items = none)
    (htype : returns.type = some (.name Definition.selfName)) :
    ∃ notNull u, (m.resolve site (returns.boundTo entity) hint).outcome =
        .ok (.userDefined notNull u) ∧
      ∀ c, (TypeInfo.userDefined notNull u).text c = m.singularFrom site.home entity := by
  have hbound : (returns.withType entity).items = none := hitems
  obtain ⟨u, htext, hu⟩ := resolveWithin_definition hbound rfl hown hdefined
  rw [Definition.boundTo_of_type hitems htype]
  exact ⟨_, u, hu, htext⟩

/-- For the items of a result that stand for the definition around, the name of the entity is
resolved. -/
theorem resolve_boundTo_of_items {items : Definition} (site : Site) (hint : String)
    (hown : IsOwnName entity) (hdefined : m.defines entity = true)
    (hitems : returns.items = some items) (hnone : items.items = none)
    (htype : items.type = some (.name Definition.selfName)) :
    ∃ notNull itemNotNull u, (m.resolve site (returns.boundTo entity) hint).outcome =
        .ok (.array notNull (.userDefined itemNotNull u)) ∧
      ∀ c, (TypeInfo.userDefined itemNotNull u).text c = m.singularFrom site.home entity := by
  have hbound : (items.withType entity).items = none := hnone
  obtain ⟨u, htext, hu⟩ : ∃ u, (∀ c, (TypeInfo.userDefined (items.notNull || items.key) u).text c =
        m.singularFrom site.home entity) ∧
      (m.resolveWithin site maxDepth false (items.withType entity) hint).outcome =
        .ok (.userDefined (items.notNull || items.key) u) :=
    resolveWithin_definition hbound rfl hown hdefined
  rw [Definition.boundTo_of_items hitems htype]
  refine ⟨returns.notNull || returns.key, _, u, ?_, htext⟩
  simp only [resolve, resolveWithin, andThen, hu, found]

/-- In the result itself and in its items, the name of the entity is resolved for the name that
stands for the definition around. -/
theorem resolve_of_isShallow (site : Site) (hint : String) (hown : IsOwnName entity)
    (hdefined : m.defines entity = true) (hself : returns.HasSelf path)
    (hshallow : Inward.IsShallow path) :
    ∃ type, (m.resolve site (returns.boundTo entity) hint).outcome = .ok type ∧
      (∀ c, type.anonymousText c = type.text c) ∧
      ∀ path, returns.HasSelf path → ∃ held, type.Encloses path held ∧
        ∀ c, held.text c = m.singularFrom site.home entity := by
  obtain ⟨x, hx, hnone, htype⟩ := hself
  rcases hshallow with rfl | rfl
  · cases hx with
    | here =>
      obtain ⟨notNull, u, hu, htext⟩ :=
        resolve_boundTo_of_type site hint hown hdefined hnone htype
      refine ⟨_, hu, fun c => rfl, fun path hpath => ?_⟩
      obtain ⟨rfl, -⟩ := (Definition.HasSelf.iff_of_type hnone htype).mp hpath
      exact ⟨_, .here, htext⟩
  · cases hx with
    | item hitems hinner =>
      cases hinner with
      | here =>
        obtain ⟨notNull, itemNotNull, u, hu, htext⟩ :=
          resolve_boundTo_of_items site hint hown hdefined hitems hnone htype
        refine ⟨_, hu, fun c => rfl, fun path hpath => ?_⟩
        obtain ⟨rest, rfl, hrest⟩ := (Definition.HasSelf.iff_of_items hitems).mp hpath
        obtain ⟨rfl, -⟩ := (Definition.HasSelf.iff_of_type hnone htype).mp hrest
        exact ⟨_, .item .here, htext⟩

/-! ## Signatures -/

/-- An element has a type exactly if it is not nested too deep and stands for something. -/
theorem resolve_found_iff {element : Definition} (hint : String) :
    (∃ info, (m.resolve site element hint).outcome = .ok info) ↔
      element.nest ≤ maxDepth ∧ m.Resolvable site element := by
  have hbounded : (m.resolve site element hint).Bounded (maxDepth < element.nest)
      (m.Resolvable site element) := resolveWithin_bounded
  constructor
  · rintro ⟨info, hinfo⟩
    exact (hbounded.found hinfo).imp_left Nat.le_of_not_lt
  · rintro ⟨hnest, hresolvable⟩
    exact hbounded.exists_ok (Nat.not_lt.mpr hnest) hresolvable

/-- Whether an element has a type does not depend on notes about libraries. -/
theorem found_agrees {site' : Site} (h : site.Agrees site') {element : Definition} :
    (element.nest ≤ maxDepth ∧ m.Resolvable site element) ↔
      element.nest ≤ maxDepth ∧ m.Resolvable site' element := by
  rw [← resolve_found_iff "", resolve_agrees h, resolve_found_iff]

end Model

namespace Step

variable {m : Model} {home : Path} {operation entity : String} {d returns : Definition}
  {s t : Session}

/-- The parameters of an operation have types, besides those that stand for the definition around. -/
def TakesParameters (m : Model) (site : Site) (params : Table Definition) : Prop :=
  ∀ entry ∈ params, entry.2.isSelfReference = false →
    entry.2.nest ≤ maxDepth ∧ m.Resolvable site entry.2

theorem TakesParameters.agrees {site site' : Site} {params : Table Definition}
    (h : site.Agrees site') : TakesParameters m site params ↔ TakesParameters m site' params :=
  forall₃_congr fun _ _ _ => Model.found_agrees h

/-- What is resolved in a session with an outcome. -/
theorem resolve_eq_of_ok {α : Type} (find : Site → Resolution α) {a : α}
    (h : (find (s.site home)).outcome = .ok a) :
    resolve home find s = (.ok a, s.note (find (s.site home)).needs) := by
  rw [resolve, h]

theorem agrees_of_resolve {α : Type} {find : Site → Resolution α} {a : α}
    (h : resolve home find s = (.ok a, t)) : (s.site home).Agrees (t.site home) :=
  Session.Grows.agrees (Leaves.kept ⟨a, h⟩ (.resolve Session.grows_frame home find)) home

/-- The types of parameters are found one after the other. -/
theorem parameters_leaves_iff : ∀ {params : Table Definition} {s : Session},
    (∃ t, Leaves (parameters m home operation params) s t) ↔
      TakesParameters m (s.site home) params
  | [], s => iff_of_true ⟨s, .pure _ s⟩ nofun
  | (name, element) :: rest, s => by
    rw [parameters]
    by_cases hself : element.isSelfReference = true
    · rw [if_pos hself, parameters_leaves_iff]
      simp [TakesParameters, hself]
    · rw [if_neg hself]
      constructor
      · rintro ⟨_, _, hrun⟩
        obtain ⟨type, u, htype, hrun⟩ := bind_eq_ok hrun
        obtain ⟨others, u', hothers, -⟩ := bind_eq_ok hrun
        have hfirst := (Model.resolve_found_iff _).mp ⟨type, (Prod.mk.inj htype).1⟩
        have hrest := parameters_leaves_iff.mp ⟨u', others, hothers⟩
        rw [← TakesParameters.agrees (agrees_of_resolve htype)] at hrest
        exact List.forall_mem_cons.mpr ⟨fun _ => hfirst, hrest⟩
      · intro h
        obtain ⟨hfirst, hrest⟩ := List.forall_mem_cons.mp h
        let hint := Naming.sanitize (operation ++ "_" ++ name)
        obtain ⟨type, htype⟩ := (Model.resolve_found_iff hint).mpr (hfirst (by simpa using hself))
        have hrun := resolve_eq_of_ok (fun site => m.resolve site element hint) htype
        obtain ⟨t, ht⟩ := parameters_leaves_iff.mpr
          ((TakesParameters.agrees (agrees_of_resolve hrun)).mp hrest)
        exact ⟨t, .bind hrun ht.andPure⟩

/-- An operation that is bound to an entity has a signature, and wherever a name stands for the
definition around in its result, the qualified name of one of the entity is printed. -/
def BindsSelf (m : Model) (home : Path) (operation entity : String) (d returns : Definition)
    (s : Session) : Prop :=
  ∃ signature t type, Step.signature m home operation (some entity) d s = (.ok signature, t) ∧
    signature.result = some type ∧
    (∀ c, signature.resultText c = nullable type.notNull (type.text c)) ∧
    ∀ path, returns.HasSelf path → ∃ held, type.Encloses path held ∧
      ∀ c, held.text c = m.singularFrom home entity

/-- After the parameters, the result decides about the signature of a bound operation. -/
theorem signature_run {found : List Parameter} (entity : String) (hreturns : d.returns = some returns)
    (hparameters : parameters m home operation (d.params.getD []) s = (.ok found, t)) :
    signature m home operation (some entity) d s =
      let r := m.resolve (t.site home) (returns.boundTo entity) (operation ++ "_return")
      (r.outcome.map fun type => ⟨found, some type, byNameOnly (d.params.getD []),
        d.isKind .function⟩, t.note r.needs) := by
  simp only [signature]
  rw [bind_run, hparameters]
  simp only [result, hreturns, bind_run, resolve, Option.map_some, Option.getD_some]
  cases (m.resolve (t.site home) (returns.boundTo entity) (operation ++ "_return")).outcome <;> rfl

theorem agrees_of_parameters {params : Table Definition}
    (h : Leaves (parameters m home operation params) s t) : (s.site home).Agrees (t.site home) :=
  Session.Grows.agrees (h.kept (.parameters Session.grows_frame operation params)) home

theorem current_of_parameters {params : Table Definition}
    (h : Leaves (parameters m home operation params) s t) (hcontext : s.context = []) :
    (t.site home).current = none := by
  rw [← (agrees_of_parameters h).current, Session.site, Session.current?, hcontext]
  rfl

variable {path : List Inward} (hreturns : d.returns = some returns)
include hreturns

/-- Where the entity is printed, the parameters have types, and the name for the entity occurs in
the result itself or in its items. -/
theorem BindsSelf.isShallow (h : BindsSelf m home operation entity d returns s)
    (hcontext : s.context = []) (hself : returns.HasSelf path) :
    TakesParameters m (s.site home) (d.params.getD []) ∧ Inward.IsShallow path := by
  obtain ⟨signature, t, type, hsignature, hresult, -, hprints⟩ := h
  obtain ⟨found, u, hparameters, -⟩ := bind_eq_ok hsignature
  rw [signature_run entity hreturns hparameters] at hsignature
  have hoperation := (Prod.mk.inj hsignature).1
  have hcurrent := current_of_parameters ⟨found, hparameters⟩ hcontext
  cases hr : (m.resolve (u.site home) (returns.boundTo entity) (operation ++ "_return")).outcome with
  | error e =>
    rw [hr] at hoperation
    cases hoperation
  | ok type' =>
    rw [hr] at hoperation
    cases hoperation
    cases hresult
    obtain ⟨held, hheld, -⟩ := hprints path hself
    exact ⟨parameters_leaves_iff.mp ⟨u, found, hparameters⟩,
      Model.isShallow_of_resolve hcurrent hr hself hheld⟩

/-- Where the name for the entity occurs in the result itself or in its items, the entity is
printed, if its own name is read as a name of its own. -/
theorem bindsSelf_of_isShallow (hparams : TakesParameters m (s.site home) (d.params.getD []))
    (hown : IsOwnName entity) (hdefined : m.defines entity = true) (hself : returns.HasSelf path)
    (hshallow : Inward.IsShallow path) : BindsSelf m home operation entity d returns s := by
  obtain ⟨t, found, hparameters⟩ :
      ∃ t, Leaves (parameters m home operation (d.params.getD [])) s t :=
    parameters_leaves_iff.mpr hparams
  obtain ⟨type, htype, htext, hprints⟩ := Model.resolve_of_isShallow (t.site home)
    (operation ++ "_return") hown hdefined hself hshallow
  have hrun := signature_run entity hreturns hparameters
  simp only [htype, Except.map] at hrun
  refine ⟨_, _, type, hrun, rfl, fun c => ?_, hprints⟩
  simp only [Signature.resultText, htext]

/-- Where the name for the entity occurs deeper, and all else has a type, the operation is refused
for the name. -/
theorem signature_refused (hparams : TakesParameters m (s.site home) (d.params.getD []))
    (hcontext : s.context = []) (hreference : returns.isSelfReference = false)
    (hself : returns.HasSelf path) (hnest : returns.nest ≤ maxDepth)
    (hresolvable : m.Resolvable { s.site home with current := some entity } returns) :
    ∃ hint t, signature m home operation (some entity) d s =
      (.error (.unresolvedType Definition.selfName hint), t) := by
  obtain ⟨t, found, hparameters⟩ :
      ∃ t, Leaves (parameters m home operation (d.params.getD [])) s t :=
    parameters_leaves_iff.mpr hparams
  have hcurrent := current_of_parameters ⟨found, hparameters⟩ hcontext
  have hbound : returns.boundTo entity = returns := by
    rw [Definition.boundTo, if_neg (by simp [hreference])]
  have hsite : ({ s.site home with current := some entity } : Site).Agrees
      { t.site home with current := some entity } :=
    { agrees_of_parameters ⟨found, hparameters⟩ with current := rfl }
  have hinside := ((Model.found_agrees hsite).mp ⟨hnest, hresolvable⟩).2
  have hrun := signature_run entity hreturns hparameters
  rw [hbound] at hrun
  cases hr : (m.resolve (t.site home) returns (operation ++ "_return")).outcome with
  | ok type =>
    have hfound := (Model.resolve_found_iff _).mp ⟨type, hr⟩
    exact absurd hself (hfound.2.no_self hcurrent path)
  | error e =>
    obtain ⟨hint, rfl⟩ :=
      Model.resolveWithin_eq_selfError hcurrent (Nat.lt_succ_of_le hnest) hinside hr
    simp only [hr, Except.map] at hrun
    exact ⟨hint, _, hrun⟩

end Step

/-! ## Runs -/

/-- A visit comes to an operation that is bound to the definition, and makes its signature in a
session. -/
def Step.Signs (m : Model) (name : String) (d : Definition) (s : Session) (operation : String)
    (action : Definition) (t : Session) : Prop :=
  ∃ before after u v w, Begins m name d s u ∧
    Leaves (ancestors m (m.nameParts name).path d.ancestors) u v ∧
    Leaves (within name (bodyOf m (m.owner name d) d.ownElements)) v w ∧
    d.actions.getD [] = before ++ (operation, action) :: after ∧
    Leaves (boundActions m (m.nameParts name).path name before) w t

theorem Step.Signs.context {m : Model} {name operation : String} {d action : Definition}
    {s t : Session} (h : Signs m name d s operation action t) : t.context = s.context := by
  obtain ⟨before, after, u, v, w, hbegins, hancestors, hbody, -, hactions⟩ := h
  rw [hactions.context_eq (.boundActions Session.grows_frame name _),
    hbody.context_eq (.within Session.grows_frame name (bodyOf_grows _ _)),
    hancestors.context_eq (.ancestors Session.grows_frame _), hbegins.context]

/-- No definition is being written where the operations that are bound to one get their signatures.
There, the entity is printed for each name that stands for it in the result exactly if the
parameters have types and the name occurs in the result itself or in its items, where the name of
the entity is a name of its own.  Where the name occurs deeper and all else has a type, the
operation is refused for the name. -/
theorem Step.signature_bindsSelf (m : Model) :
    (∀ name d s operation action t, m.Visits name d s → Signs m name d s operation action t →
      t.context = []) ∧
    ∀ home operation entity d returns s, m.defines entity = true → d.returns = some returns →
      (∃ path, returns.HasSelf path) → s.context = [] →
        (BindsSelf m home operation entity d returns s →
          TakesParameters m (s.site home) (d.params.getD []) ∧
            ∀ path, returns.HasSelf path → Inward.IsShallow path) ∧
        (IsOwnName entity → TakesParameters m (s.site home) (d.params.getD []) →
          (∀ path, returns.HasSelf path → Inward.IsShallow path) →
            BindsSelf m home operation entity d returns s) ∧
        (TakesParameters m (s.site home) (d.params.getD []) → returns.isSelfReference = false →
          returns.nest ≤ maxDepth →
          m.Resolvable { s.site home with current := some entity } returns →
            ∃ hint t, signature m home operation (some entity) d s =
              (.error (.unresolvedType Definition.selfName hint), t)) := by
  refine ⟨fun name d s operation action t hvisits hsigns => ?_, ?_⟩
  · exact hsigns.context.trans hvisits.context
  · rintro home operation entity d returns s hdefined hreturns ⟨path, hself⟩ hcontext
    refine ⟨fun h => ⟨(h.isShallow hreturns hcontext hself).1, fun path hpath => ?_⟩,
      fun hown hparams hshallow => ?_, fun hparams hreference hnest hresolvable => ?_⟩
    · exact (h.isShallow hreturns hcontext hpath).2
    · exact bindsSelf_of_isShallow hreturns hparams hown hdefined hself (hshallow path hself)
    · exact signature_refused hreturns hparams hcontext hreference hself hnest hresolvable

/-- A basket, as the functions of baskets name it. -/
def selfType : Definition where
  type := some (.name Definition.selfName)

/-- A number of baskets. -/
def pieces : Definition where
  items := some selfType

/-- The two halves of a basket. -/
def halves : Definition where
  elements := some [("left", selfType), ("right", selfType)]

/-- A function that splits a basket. -/
def splitBasket : Definition where
  kind := some .function
  params := some
    [("basket", selfType), ("parts", { type := some (.name "cds.Integer"), notNull := true })]
  returns := some pieces

/-- A function that cuts a basket into halves. -/
def halveBasket : Definition where
  kind := some .function
  returns := some halves

/-- Baskets, with their functions. -/
def basket : Definition where
  kind := some .entity
  elements := some [("ID", { type := some (.name "cds.UUID"), key := true })]
  actions := some [("split", splitBasket), ("halve", halveBasket)]

/-- A model of baskets. -/
def baskets : Model where
  definitions := [("shop.Baskets", basket)]

theorem isShallow_pieces {path : List Inward} (h : pieces.HasSelf path) :
    Inward.IsShallow path := by
  obtain ⟨rest, rfl, hrest⟩ := (Definition.HasSelf.iff_of_items rfl).mp h
  obtain ⟨rfl, -⟩ := (Definition.HasSelf.iff_of_type rfl rfl).mp hrest
  exact Or.inr rfl

theorem takesParameters_splitBasket {site : Site} :
    Step.TakesParameters baskets site (splitBasket.params.getD []) := by
  intro entry hentry hother
  simp only [splitBasket, Option.getD_some, List.mem_cons, List.not_mem_nil, or_false] at hentry
  rcases hentry with rfl | rfl
  · cases hother
  · exact ⟨by rw [Definition.nest_of_leaf rfl (Or.inr rfl)]; decide,
      .named rfl rfl rfl (.builtin rfl rfl)⟩

theorem halves_hasSelf : halves.HasSelf [.member "left"] :=
  ⟨_, .member rfl rfl rfl List.mem_cons_self .here, rfl, rfl⟩

/-- The halves have a type where baskets are written. -/
theorem halves_resolvable {site : Site} (h : site.current.isSome = true) :
    halves.nest ≤ maxDepth ∧ baskets.Resolvable site halves := by
  constructor
  · rw [Definition.nest_of_structure rfl rfl rfl]
    simp [Definition.ownElements, halves, Definition.nest_of_leaf (d := selfType) rfl (Or.inr rfl),
      maxDepth]
  · refine .elements rfl rfl rfl fun entry hentry => ?_
    simp only [Definition.ownElements, halves, Option.getD_some, List.mem_cons, List.not_mem_nil,
      or_false] at hentry
    rcases hentry with rfl | rfl <;> exact .named rfl rfl rfl (.self rfl h)

theorem signature_bindsSelf_baskets :
    (∃ s t, baskets.Visits "shop.Baskets" basket s ∧
      Step.Signs baskets "shop.Baskets" basket s "halve" halveBasket t ∧ t.context = []) ∧
    Step.BindsSelf baskets ⟨["shop"]⟩ "split" "shop.Baskets" splitBasket pieces {} ∧
    (Step.signature baskets ⟨["shop"]⟩ "split" (some "shop.Baskets") splitBasket {}).1.toOption.map
      (·.resultText {}) = some "Array<Basket> | null" ∧
    ∃ hint t, Step.signature baskets ⟨["shop"]⟩ "halve" (some "shop.Baskets") halveBasket {} =
      (.error (.unresolvedType "$self" hint), t) := by
  obtain ⟨hruns, hsigns⟩ := Step.signature_bindsSelf baskets
  refine ⟨?_, ?_, by decide +kernel, ?_⟩
  · have hleaves : ∀ {α : Type} (x : Step α) (s : Session), (x s).1.toOption.isSome = true →
        Step.Leaves x s (x s).2 := by
      intro α x s h
      obtain ⟨a, ha⟩ := Except.exists_eq_ok h
      exact ⟨a, Prod.ext ha rfl⟩
    have hdrafts : baskets.collectDrafts.result = .ok [] := rfl
    have hvisits : baskets.Visits "shop.Baskets" basket
        (Plan.sessionFor baskets.collectDrafts []) := ⟨[], [], [], [], hdrafts, rfl, rfl⟩
    obtain ⟨t, hsigned⟩ : ∃ t, Step.Signs baskets "shop.Baskets" basket
        (Plan.sessionFor baskets.collectDrafts []) "halve" halveBasket t :=
      ⟨_, [("split", splitBasket)], [], _, _, _,
        ⟨.entity, by decide, rfl, Or.inl rfl, hleaves _ _ (by decide +kernel)⟩,
        hleaves _ _ (by decide +kernel), hleaves _ _ (by decide +kernel), rfl,
        hleaves _ _ (by decide +kernel)⟩
    exact ⟨_, t, hvisits, hsigned, hruns _ _ _ _ _ _ hvisits hsigned⟩
  · have hself : pieces.HasSelf [.item] := ⟨_, .item rfl .here, rfl, rfl⟩
    exact (hsigns ⟨["shop"]⟩ "split" _ splitBasket _ {} rfl rfl ⟨_, hself⟩ rfl).2.1
      ⟨by decide, by decide, by decide⟩ takesParameters_splitBasket fun _ => isShallow_pieces
  · have hhalves := @halves_resolvable ⟨⟨["shop"]⟩, some "shop.Baskets", .standard⟩ rfl
    exact (hsigns ⟨["shop"]⟩ "halve" _ halveBasket _ {} rfl rfl ⟨_, halves_hasSelf⟩ rfl).2.2 nofun
      rfl hhalves.1 hhalves.2

/-- The function that cuts a basket is refused for the marker in its result, and so are all baskets. -/
theorem halves_refused :
    halveBasket.returns = some halves ∧ halveBasket.params = none ∧
      halves.HasSelf [.member "left"] ∧ IsOwnName "shop.Baskets" ∧ halves.nest ≤ maxDepth ∧
      baskets.Resolvable ⟨⟨["shop"]⟩, some "shop.Baskets", .standard⟩ halves ∧
      ¬ Step.BindsSelf baskets ⟨["shop"]⟩ "halve" "shop.Baskets" halveBasket halves {} ∧
      compile baskets {} = .error (.cause (.unresolvedType "$self" "halve_return_left")) := by
  obtain ⟨hnest, hresolvable⟩ := @halves_resolvable ⟨⟨["shop"]⟩, some "shop.Baskets", .standard⟩ rfl
  refine ⟨rfl, rfl, halves_hasSelf, ⟨by decide, by decide, by decide⟩, hnest, hresolvable,
    fun hbinds => ?_, rfl⟩
  rcases (hbinds.isShallow rfl rfl halves_hasSelf).2 with h | h <;> cases h

end SchemaTypes
