import SchemaTypes.Plan.Session

/-!
# How deep types may be nested

`Definition.nest` counts the arrays and structures around the deepest part of an element.
`Model.Resolvable` says that all names in the element stand for something, however deep
they are nested.  These are the two reasons for which an element has a type or none.

The resolver may find either one first where both are against it.  So an outcome is
compared with the two at once (`Resolution.Bounded`): something is found only where
neither is against it, and a refusal blames the one or the other.  There is one lemma for
each way of putting resolutions together, and the resolver follows by induction on the
levels that are left (`Model.resolveWithin_bounded`).  An element gets a type exactly if
it is resolvable and nested no deeper than `maxDepth` (`Model.resolve_nesting`).
-/

namespace SchemaTypes

/-! ## Nesting -/

namespace Definition

variable {d : Definition} {levels : Nat}

theorem sizeOf_items {items : Definition} (h : d.items = some items) : sizeOf items < sizeOf d := by
  rcases d with ⟨⟩
  cases h
  simp +arith

theorem sizeOf_element {entry : String × Definition} (h : entry ∈ d.ownElements) :
    sizeOf entry.2 < sizeOf d := by
  rcases d with ⟨_, _, _ | elements⟩
  · cases h
  · have hentry : sizeOf entry < sizeOf elements := List.sizeOf_lt_of_mem h
    rcases entry with ⟨name, element⟩
    simp +arith at hentry ⊢
    omega

/-- How deep arrays and structures are nested in an element.  The values of an enum are
written in place, and what has a type of its own is not looked into. -/
def nest (d : Definition) : Nat :=
  match _ : d.items with
  | some items => 1 + items.nest
  | none =>
      if Model.isPlainEnum d then 0
      else if d.type.isSome then 0
      else (d.ownElements.attach.map fun entry => entry.val.2.nest).max?.elim 0 (1 + ·)
termination_by sizeOf d
decreasing_by
  · next h => exact sizeOf_items h
  · exact sizeOf_element entry.property

theorem nest_of_items {items : Definition} (h : d.items = some items) :
    d.nest = 1 + items.nest := by
  rw [nest]
  split
  · next other hother => rw [Option.some.inj (h.symm.trans hother)]
  · next hnone => cases h.symm.trans hnone

theorem nest_of_leaf (hitems : d.items = none)
    (h : Model.isPlainEnum d = true ∨ d.type.isSome = true) : d.nest = 0 := by
  rw [nest]
  split
  · next hsome => cases hitems.symm.trans hsome
  · rcases h with henum | htype
    · rw [if_pos henum]
    · rw [if_pos htype, ite_self]

theorem nest_of_structure (hitems : d.items = none) (henum : Model.isPlainEnum d = false)
    (htype : d.type = none) :
    d.nest = (d.ownElements.map fun entry => entry.2.nest).max?.elim 0 (1 + ·) := by
  rw [nest]
  split
  · next hsome => cases hitems.symm.trans hsome
  · rw [if_neg (by simp [henum]), if_neg (by simp [htype]),
      List.attach_map_val (f := fun entry : String × Definition => entry.2.nest)]

/-- A structure is nested deeper than one of its elements. -/
theorem lt_nest_of_structure (hitems : d.items = none) (henum : Model.isPlainEnum d = false)
    (htype : d.type = none) :
    levels < d.nest ↔ ∃ entry ∈ d.ownElements, levels ≤ entry.2.nest := by
  rw [nest_of_structure hitems henum htype]
  cases hmax : (d.ownElements.map fun entry => entry.2.nest).max? with
  | none =>
    rw [List.max?_eq_none_iff, List.map_eq_nil_iff] at hmax
    simp [hmax]
  | some deepest =>
    obtain ⟨hmem, hle⟩ := List.max?_eq_some_iff.mp hmax
    constructor
    · intro hlevels
      obtain ⟨entry, hentry, rfl⟩ := List.mem_map.mp hmem
      exact ⟨entry, hentry, by simp only [Option.elim_some] at hlevels; omega⟩
    · rintro ⟨entry, hentry, hlevels⟩
      have hentry_le := hle _ (List.mem_map_of_mem hentry)
      simp only [Option.elim_some]
      omega

end Definition

/-! ## Names that stand for something -/

theorem colon_of_isBuiltin {text : String} (h : isBuiltin text = true) :
    text.toList.contains ':' = false := by
  have hall : ∀ name ∈ Table.names builtinTypes, name.toList.contains ':' = false := by decide
  exact hall text ((Table.mem_names_iff _ _).mpr h)

theorem ne_selfName_of_isBuiltin {text : String} (h : isBuiltin text = true) :
    text ≠ Definition.selfName := by
  rintro rfl
  exact absurd h (by decide)

/-- The containers are predefined as well. -/
theorem isBuiltin_of_container {text : String} (h : (Container.ofName? text).isSome = true) :
    isBuiltin text = true := by
  rw [Container.ofName?] at h
  split at h
  · next heq => rw [heq]; decide
  · split at h
    · next heq => rw [heq]; decide
    · cases h

/-- A name that is no reference with a colon, no predefined type and not the one that
stands for the definition around. -/
structure IsOwnName (text : String) : Prop where
  colon : text.toList.contains ':' = false
  builtin : isBuiltin text = false
  self : text ≠ Definition.selfName

namespace Model

/-- The name of a type stands for something. -/
inductive NameResolves (m : Model) (site : Site) (element : Definition) (text : String) : Prop
  | colon {name access : String} : text.toList.contains ':' = true →
      Text.splitOn ':' text = [name, access] → m.defines name = true →
      NameResolves m site element text
  | association {target : String} : (Container.ofName? text).isSome = true →
      element.target = some target → m.defines target = true → NameResolves m site element text
  | builtin : isBuiltin text = true → Container.ofName? text = none →
      NameResolves m site element text
  | self : text = Definition.selfName → site.current.isSome = true →
      NameResolves m site element text
  | definition : IsOwnName text → m.defines text = true → NameResolves m site element text
  | element : IsOwnName text → (m.nameParts text).access ≠ [] →
      m.defines (m.nameParts text).definitionName = true → NameResolves m site element text
  | library : IsOwnName text → (m.nameParts text).access = [] →
      (site.libraries.find? text).isSome = true → NameResolves m site element text

namespace NameResolves

variable {m : Model} {site : Site} {element : Definition} {text : String}

theorem iff_of_colon (hcolon : text.toList.contains ':' = true) :
    m.NameResolves site element text ↔
      ∃ name access, Text.splitOn ':' text = [name, access] ∧ m.defines name = true := by
  refine ⟨fun h => ?_, fun ⟨_, _, hsplit, hdefined⟩ => .colon hcolon hsplit hdefined⟩
  have hbuiltin : isBuiltin text ≠ true := fun h => by
    cases hcolon.symm.trans (colon_of_isBuiltin h)
  cases h with
  | colon _ hsplit hdefined => exact ⟨_, _, hsplit, hdefined⟩
  | association hcontainer => exact absurd (isBuiltin_of_container hcontainer) hbuiltin
  | builtin h => exact absurd h hbuiltin
  | self hself =>
    rw [hself] at hcolon
    exact absurd hcolon (by decide)
  | definition hown | element hown | library hown => cases hcolon.symm.trans hown.colon

theorem iff_of_container (hcolon : text.toList.contains ':' = false)
    (hcontainer : (Container.ofName? text).isSome = true) :
    m.NameResolves site element text ↔
      ∃ target, element.target = some target ∧ m.defines target = true := by
  refine ⟨fun h => ?_, fun ⟨_, htarget, hdefined⟩ => .association hcontainer htarget hdefined⟩
  have hbuiltin := isBuiltin_of_container hcontainer
  cases h with
  | colon h => cases hcolon.symm.trans h
  | association _ htarget hdefined => exact ⟨_, htarget, hdefined⟩
  | builtin _ hnone =>
    rw [hnone] at hcontainer
    cases hcontainer
  | self hself => exact absurd hself (ne_selfName_of_isBuiltin hbuiltin)
  | definition hown | element hown | library hown => cases hbuiltin.symm.trans hown.builtin

theorem iff_of_self (hself : text = Definition.selfName) :
    m.NameResolves site element text ↔ site.current.isSome = true := by
  refine ⟨fun h => ?_, fun hcurrent => .self hself hcurrent⟩
  have hbuiltin : isBuiltin text ≠ true := fun h => ne_selfName_of_isBuiltin h hself
  cases h with
  | colon h =>
    rw [hself] at h
    exact absurd h (by decide)
  | association h => exact absurd (isBuiltin_of_container h) hbuiltin
  | builtin h => exact absurd h hbuiltin
  | self _ hcurrent => exact hcurrent
  | definition hown | element hown | library hown => exact absurd hself hown.self

/-- A name of its own is looked up in the model, and then in the libraries if no
definition is in it. -/
theorem iff_of_own (hown : IsOwnName text) :
    m.NameResolves site element text ↔ m.defines text = true ∨
      (m.nameParts text).access ≠ [] ∧ m.defines (m.nameParts text).definitionName = true ∨
      (m.nameParts text).access = [] ∧ (site.libraries.find? text).isSome = true := by
  constructor
  · intro h
    cases h with
    | colon h => cases hown.colon.symm.trans h
    | association h => cases hown.builtin.symm.trans (isBuiltin_of_container h)
    | builtin h => cases hown.builtin.symm.trans h
    | self h => exact absurd h hown.self
    | definition _ hdefined => exact Or.inl hdefined
    | element _ haccess hdefined => exact Or.inr (Or.inl ⟨haccess, hdefined⟩)
    | library _ haccess hlibrary => exact Or.inr (Or.inr ⟨haccess, hlibrary⟩)
  · rintro (hdefined | ⟨haccess, hdefined⟩ | ⟨haccess, hlibrary⟩)
    · exact .definition hown hdefined
    · exact .element hown haccess hdefined
    · exact .library hown haccess hlibrary

end NameResolves

/-- The names of types, targets and references in an element stand for something. -/
inductive Resolvable (m : Model) (site : Site) : Definition → Prop
  | array {d items : Definition} : d.items = some items → Resolvable m site items →
      Resolvable m site d
  | enum {d : Definition} : d.items = none → isPlainEnum d = true → Resolvable m site d
  | elements {d : Definition} : d.items = none → isPlainEnum d = false → d.type = none →
      (∀ entry ∈ d.ownElements, Resolvable m site entry.2) → Resolvable m site d
  | reference {d : Definition} {head : String} {access : List String} : d.items = none →
      isPlainEnum d = false → d.type = some (.path (head :: access)) → m.defines head = true →
      Resolvable m site d
  | named {d : Definition} {text : String} : d.items = none → isPlainEnum d = false →
      d.type = some (.name text) → m.NameResolves site d text → Resolvable m site d

namespace Resolvable

variable {m : Model} {site : Site} {d : Definition}

theorem iff_of_items {items : Definition} (hitems : d.items = some items) :
    m.Resolvable site d ↔ m.Resolvable site items := by
  refine ⟨fun h => ?_, .array hitems⟩
  cases h with
  | array hitems' hresolvable =>
    rw [hitems] at hitems'
    cases hitems'
    exact hresolvable
  | enum hnone | elements hnone | reference hnone | named hnone => cases hitems.symm.trans hnone

/-- What is neither an array nor an enum is as its type says. -/
theorem iff_of_type (hitems : d.items = none) (henum : isPlainEnum d = false) :
    m.Resolvable site d ↔
      match d.type with
      | none => ∀ entry ∈ d.ownElements, m.Resolvable site entry.2
      | some (.path []) => False
      | some (.path (head :: _)) => m.defines head = true
      | some (.name text) => m.NameResolves site d text := by
  constructor
  · intro h
    cases h with
    | array hsome => cases hitems.symm.trans hsome
    | enum _ hplain => cases henum.symm.trans hplain
    | elements _ _ htype helements =>
      rw [htype]
      exact helements
    | reference _ _ htype hdefined =>
      rw [htype]
      exact hdefined
    | named _ _ htype hname =>
      rw [htype]
      exact hname
  · intro h
    split at h
    · next htype => exact .elements hitems henum htype h
    · exact h.elim
    · next htype => exact .reference hitems henum htype h
    · next htype => exact .named hitems henum htype h

end Resolvable

end Model

/-! ## Outcomes -/

namespace Resolution

variable {α β : Type} {deep deep' resolves resolves' : Prop}

/-- What an outcome says about two things that can be against it: what is resolved is
nested too deep, and not all of it stands for something. -/
structure Bounded (r : Resolution α) (deep resolves : Prop) : Prop where
  found : ∀ {a}, r.outcome = .ok a → ¬ deep ∧ resolves
  limit : ∀ {name limit}, r.outcome = .error (.recursionLimit name limit) → deep
  refused : ∀ {e}, r.outcome = .error e → resolves → ∃ name, e = .recursionLimit name maxDepth

namespace Bounded

theorem congr {r : Resolution α} (h : r.Bounded deep resolves) (hdeep : deep ↔ deep')
    (hresolves : resolves ↔ resolves') : r.Bounded deep' resolves' := by
  rwa [← propext hdeep, ← propext hresolves]

theorem of_ok {r : Resolution α} {a : α} (h : r.outcome = .ok a) : r.Bounded False True where
  found := fun _ => ⟨not_false, trivial⟩
  limit := fun heq => by cases h.symm.trans heq
  refused := fun heq => by cases h.symm.trans heq

theorem of_found (a : α) : (Resolution.found a).Bounded False True := of_ok rfl

theorem of_refuse {e : CompileError} (h : ∀ name limit, e ≠ .recursionLimit name limit) :
    (Resolution.refuse e : Resolution α).Bounded False False where
  found := by intro a h; cases h
  limit := fun heq => h _ _ (Except.error.inj heq)
  refused := fun _ hfalse => hfalse.elim

/-- Something is found where neither is against it. -/
theorem exists_ok {r : Resolution α} (h : r.Bounded deep resolves) (hdeep : ¬ deep)
    (hresolves : resolves) : ∃ a, r.outcome = .ok a := by
  cases hr : r.outcome with
  | ok a => exact ⟨a, rfl⟩
  | error e =>
    obtain ⟨name, rfl⟩ := h.refused hr hresolves
    exact absurd (h.limit hr) hdeep

/-- One thing after another is refused where either of them is. -/
theorem andThen {r : Resolution α} {next : α → Resolution β} (h : r.Bounded deep resolves)
    (hnext : ∀ a, (next a).Bounded deep' resolves') :
    (r.andThen next).Bounded (deep ∨ deep') (resolves ∧ resolves') := by
  rcases r with ⟨_ | a, needs⟩
  · constructor
    · exact nofun
    · intro name limit heq
      cases heq
      exact Or.inl (h.limit rfl)
    · intro e heq hboth
      cases heq
      exact h.refused rfl hboth.1
  · obtain ⟨hshallow, hresolves⟩ := h.found rfl
    refine ⟨fun heq => ?_, fun heq => Or.inr ((hnext a).limit heq),
      fun heq hboth => (hnext a).refused heq hboth.2⟩
    obtain ⟨hshallow', hresolves'⟩ := (hnext a).found heq
    exact ⟨not_or.mpr ⟨hshallow, hshallow'⟩, hresolves, hresolves'⟩

/-- What is done with something that was found does not count. -/
theorem map {r : Resolution α} (h : r.Bounded deep resolves) (form : α → β) :
    (r.andThen fun a => Resolution.found (form a)).Bounded deep resolves :=
  (h.andThen fun a => of_found (form a)).congr (by simp) (by simp)

/-- Of entries that are resolved one after the other, one is too deep, or all have to
stand for something. -/
theorem forEntries {resolve : String → α → Resolution β} {deep resolves : String × α → Prop} :
    ∀ {entries : List (String × α)},
      (∀ entry ∈ entries, (resolve entry.1 entry.2).Bounded (deep entry) (resolves entry)) →
      (Resolution.forEntries resolve entries).Bounded (∃ entry ∈ entries, deep entry)
        (∀ entry ∈ entries, resolves entry)
  | [], _ => (of_found []).congr (by simp) (by simp)
  | (name, a) :: rest, h => by
    have hrest := forEntries fun entry hentry => h entry (List.mem_cons_of_mem (name, a) hentry)
    have hboth := (h (name, a) List.mem_cons_self).andThen fun b => hrest.map ((name, b) :: ·)
    exact hboth.congr (by simp) (by simp)

end Bounded

end Resolution

namespace Model

open Resolution

variable {m : Model} {site : Site} {name hint : String} {access : List String}
  {reference notNull : Bool} {element : Definition}

/-! ## Types by name -/

/-- A definition can always be placed. -/
theorem place_bounded (n : NameParts) : (site.place n).Bounded False True := by
  rw [Site.place]
  split
  · exact Bounded.of_ok rfl
  · exact Bounded.of_found _

theorem resolveUserDefined_bounded :
    (m.resolveUserDefined site name access reference hint).Bounded False
      (m.defines name = true) := by
  rw [resolveUserDefined, defines]
  cases m.find? name with
  | none => exact (Bounded.of_refuse (by simp)).congr Iff.rfl (by simp)
  | some d => exact ((place_bounded _).map _).congr Iff.rfl (by simp)

theorem resolveAccess_bounded :
    (m.resolveAccess site name access reference hint notNull).Bounded False
      (m.defines name = true) :=
  resolveUserDefined_bounded.map _

theorem resolveColon_bounded {text : String} :
    (m.resolveColon site text hint notNull).Bounded False
      (∃ name access, Text.splitOn ':' text = [name, access] ∧ m.defines name = true) := by
  rw [resolveColon]
  split
  · next name access hsplit =>
    exact resolveAccess_bounded.congr Iff.rfl (by simp [hsplit])
  · next hsplit =>
    refine (Bounded.of_refuse (by simp)).congr Iff.rfl ?_
    rw [false_iff]
    rintro ⟨name, access, heq, -⟩
    exact hsplit name access heq

theorem resolveAssociation_bounded {container : Container} :
    (m.resolveAssociation site container element hint notNull).Bounded False
      (∃ target, element.target = some target ∧ m.defines target = true) := by
  rw [resolveAssociation]
  cases element.target with
  | none => exact (Bounded.of_refuse (by simp)).congr Iff.rfl (by simp)
  | some target => exact (resolveUserDefined_bounded.map _).congr Iff.rfl (by simp)

theorem resolveSelf_bounded :
    (m.resolveSelf site hint notNull).Bounded False (site.current.isSome = true) := by
  rw [resolveSelf]
  cases site.current with
  | none => exact (Bounded.of_refuse (by simp)).congr Iff.rfl (by simp)
  | some name => exact ((place_bounded _).map _).congr Iff.rfl (by simp)

theorem resolveLibrary_bounded :
    (resolveLibrary site name hint notNull).Bounded False
      ((site.libraries.find? name).isSome = true) := by
  rw [resolveLibrary]
  cases site.libraries.find? name with
  | none => exact (Bounded.of_refuse (by simp)).congr Iff.rfl (by simp)
  | some type => exact (Bounded.of_ok rfl).congr Iff.rfl (by simp)

/-- A name that stands for something is found, whatever it is. -/
theorem resolveName_bounded {text : String} :
    (m.resolveName site text element hint notNull).Bounded False
      (m.NameResolves site element text) := by
  rw [resolveName]
  by_cases hcolon : text.toList.contains ':' = true
  · rw [if_pos hcolon]
    exact resolveColon_bounded.congr Iff.rfl (NameResolves.iff_of_colon hcolon).symm
  rw [if_neg hcolon]
  rw [Bool.not_eq_true] at hcolon
  cases hc : Container.ofName? text with
  | some container =>
    exact resolveAssociation_bounded.congr Iff.rfl
      (NameResolves.iff_of_container hcolon (by rw [hc]; rfl)).symm
  | none =>
    cases hb : builtin? text with
    | some type =>
      have hbuiltin : isBuiltin text = true := by rw [isBuiltin, hb]; rfl
      exact (Bounded.of_found _).congr Iff.rfl (iff_of_true trivial (.builtin hbuiltin hc))
    | none =>
      by_cases hself : text = Definition.selfName
      · simp only [if_pos hself]
        exact resolveSelf_bounded.congr Iff.rfl (NameResolves.iff_of_self hself).symm
      · have hown : IsOwnName text := ⟨hcolon, by rw [isBuiltin, hb]; rfl, hself⟩
        simp only [if_neg hself]
        rw [NameResolves.iff_of_own hown]
        by_cases hdefined : m.defines text = true
        · rw [if_pos hdefined]
          exact resolveAccess_bounded.congr Iff.rfl (by simp [hdefined])
        rw [if_neg hdefined]
        by_cases haccess : (m.nameParts text).access = []
        · rw [if_pos (by rw [haccess]; rfl)]
          exact resolveLibrary_bounded.congr Iff.rfl (by simp [hdefined, haccess])
        · rw [if_neg (by simpa using haccess)]
          exact resolveAccess_bounded.congr Iff.rfl (by simp [hdefined, haccess])

/-! ## Elements -/

/-- Resolving with a number of levels left.  The induction is on the levels: an array and
a structure hand one level less to what is in them. -/
theorem resolveWithin_bounded : ∀ {levels : Nat} {outermost : Bool} {element : Definition}
    {hint : String}, (m.resolveWithin site levels outermost element hint).Bounded
      (levels ≤ element.nest) (m.Resolvable site element)
  | 0, _, element, hint =>
    { found := nofun
      limit := fun _ => Nat.zero_le _
      refused := fun heq _ => ⟨hint, (Except.error.inj heq).symm⟩ }
  | levels + 1, outermost, element, hint => by
    rw [resolveWithin]
    cases hitems : element.items with
    | some items =>
      have hnest : levels ≤ items.nest ↔ levels + 1 ≤ element.nest := by
        rw [Definition.nest_of_items hitems]
        omega
      exact (resolveWithin_bounded.map _).congr hnest (Resolvable.iff_of_items hitems).symm
    | none =>
      by_cases henum : isPlainEnum element = true
      · have hnest : element.nest = 0 := Definition.nest_of_leaf hitems (Or.inl henum)
        simp only [if_pos henum]
        exact (Bounded.of_found _).congr (by simp [hnest])
          (iff_of_true trivial (.enum hitems henum))
      · rw [Bool.not_eq_true] at henum
        simp only [henum, Bool.false_eq_true, if_false]
        rw [Resolvable.iff_of_type hitems henum]
        cases htype : element.type with
        | none =>
          have hmembers : (forEntries (fun name member =>
                m.resolveWithin site levels false member (hint ++ "_" ++ name))
                element.ownElements).Bounded
              (∃ entry ∈ element.ownElements, levels ≤ entry.2.nest)
              (∀ entry ∈ element.ownElements, m.Resolvable site entry.2) :=
            Bounded.forEntries fun entry _ => resolveWithin_bounded
          exact (hmembers.map _).congr
            (Definition.lt_nest_of_structure hitems henum htype).symm Iff.rfl
        | some type =>
          have hnest : element.nest = 0 :=
            Definition.nest_of_leaf hitems (Or.inr (by rw [htype]; rfl))
          match type with
          | .path [] => exact (Bounded.of_refuse (by simp)).congr (by simp [hnest]) Iff.rfl
          | .path (head :: access) => exact resolveAccess_bounded.congr (by simp [hnest]) Iff.rfl
          | .name text => exact resolveName_bounded.congr (by simp [hnest]) Iff.rfl

/-- The bound on nesting is exact.  An element has a type if and only if it is nested no
deeper than `maxDepth` and its names stand for something.  The bound is given as a cause
only for what is nested deeper, and it is the cause for all of this that could be resolved
otherwise. -/
theorem resolve_nesting (m : Model) (s : Session) (home : Path) (element : Definition)
    (hint : String) :
    ((∃ info, (m.resolve (s.site home) element hint).outcome = .ok info) ↔
      element.nest ≤ maxDepth ∧ m.Resolvable (s.site home) element) ∧
    (∀ name limit, (m.resolve (s.site home) element hint).outcome =
      .error (.recursionLimit name limit) → maxDepth < element.nest) ∧
    (maxDepth < element.nest → m.Resolvable (s.site home) element →
      ∃ name, (m.resolve (s.site home) element hint).outcome =
        .error (.recursionLimit name maxDepth)) := by
  have hbounded : (m.resolve (s.site home) element hint).Bounded (maxDepth < element.nest)
      (m.Resolvable (s.site home) element) := resolveWithin_bounded
  refine ⟨⟨?_, ?_⟩, fun name limit => hbounded.limit, ?_⟩
  · rintro ⟨info, hok⟩
    obtain ⟨hshallow, hresolvable⟩ := hbounded.found hok
    exact ⟨Nat.le_of_not_lt hshallow, hresolvable⟩
  · rintro ⟨hnest, hresolvable⟩
    cases hr : (m.resolve (s.site home) element hint).outcome with
    | ok info => exact ⟨info, rfl⟩
    | error e =>
      obtain ⟨name, rfl⟩ := hbounded.refused hr hresolvable
      exact absurd (hbounded.limit hr) (Nat.not_lt.mpr hnest)
  · intro hdeep hresolvable
    cases hr : (m.resolve (s.site home) element hint).outcome with
    | ok info => exact absurd hdeep (hbounded.found hr).1
    | error e =>
      obtain ⟨name, rfl⟩ := hbounded.refused hr hresolvable
      exact ⟨name, rfl⟩

/-- Texts in arrays. -/
def arraysOfTexts : Nat → Definition
  | 0 => { type := some (.name "cds.String") }
  | n + 1 => { items := some (arraysOfTexts n) }

/-- A structure whose last element is an array of arrays. -/
def tower (height : Nat) : Definition :=
  { elements := some [("flat", arraysOfTexts 0), ("tall", arraysOfTexts height)] }

theorem nest_arraysOfTexts : ∀ n, (arraysOfTexts n).nest = n
  | 0 => Definition.nest_of_leaf rfl (Or.inr rfl)
  | n + 1 => by
    have hitems : (arraysOfTexts (n + 1)).items = some (arraysOfTexts n) := rfl
    rw [Definition.nest_of_items hitems, nest_arraysOfTexts n, Nat.add_comm]

theorem resolvable_arraysOfTexts {m : Model} {site : Site} : ∀ n, m.Resolvable site (arraysOfTexts n)
  | 0 => .named rfl rfl rfl (.builtin rfl rfl)
  | n + 1 => .array rfl (resolvable_arraysOfTexts n)

theorem nest_tower (height : Nat) : (tower height).nest = height + 1 := by
  rw [Definition.nest_of_structure rfl rfl rfl]
  have hnests : (tower height).ownElements.map (fun entry => entry.2.nest) = [0, height] := by
    simp [Definition.ownElements, tower, nest_arraysOfTexts]
  simp [hnests, List.max?, Nat.add_comm]

theorem resolve_nesting_tower :
    (∃ info, ((default : Model).resolve (Session.site {} (Path.ofDotted "shop")) (tower 9)
      "name").outcome = .ok info) ∧
    ∃ name, ((default : Model).resolve (Session.site {} (Path.ofDotted "shop")) (tower 10)
      "name").outcome = .error (.recursionLimit name maxDepth) := by
  have hresolvable : ∀ height, (default : Model).Resolvable
      (Session.site {} (Path.ofDotted "shop")) (tower height) := by
    intro height
    refine .elements rfl rfl rfl fun entry hentry => ?_
    simp only [Definition.ownElements, tower, Option.getD_some, List.mem_cons, List.not_mem_nil,
      or_false] at hentry
    rcases hentry with rfl | rfl
    · exact resolvable_arraysOfTexts 0
    · exact resolvable_arraysOfTexts height
  obtain ⟨hok, -, -⟩ := resolve_nesting default {} (Path.ofDotted "shop") (tower 9) "name"
  obtain ⟨-, -, hlimit⟩ := resolve_nesting default {} (Path.ofDotted "shop") (tower 10) "name"
  exact ⟨hok.mpr ⟨by rw [nest_tower]; decide, hresolvable 9⟩,
    hlimit (by rw [nest_tower]; decide) (hresolvable 10)⟩

end Model

end SchemaTypes
