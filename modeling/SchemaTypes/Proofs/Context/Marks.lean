import SchemaTypes.Proofs.Access.References
import SchemaTypes.Proofs.Context.Moments

/-!
# What is written for associations

An association stands in a type at any depth of arrays and structures
(`TypeInfo.Holds`).  It was resolved from an association of the model that stands in the
element of the type (`Definition.Nests`), and it is written with a marker if its target is
the definition being written, and with the qualified name of the target if not
(`Model.resolveWithin_marks`).
-/

namespace SchemaTypes

/-! ## Associations in a type -/

/-- An element stands in another one, as an item of an array or as an element of a
structure, at any depth. -/
inductive Definition.Nests : Definition → Definition → Prop
  | self {d : Definition} : Nests d d
  | item {d item x : Definition} : d.items = some item → Nests item x → Nests d x
  | member {d x : Definition} {entry : String × Definition} : d.items = none → d.type = none →
      entry ∈ d.ownElements → Nests entry.2 x → Nests d x

/-- An element is an association, or a composition, to a definition. -/
def Definition.IsAssociationTo (d : Definition) (container : Container) (target : String) : Prop :=
  (∃ name, d.type = some (.name name) ∧ Container.ofName? name = some container) ∧
    d.target = some target

namespace TypeInfo

/-- Whether it is an association or a composition. -/
def isAssociation : TypeInfo → Bool
  | .association .. => true
  | _ => false

theorem Holds.not_simple {info held : TypeInfo} (h : info.Holds held)
    (hheld : held.isAssociation = true) : info.isSimple = false := by
  cases h with
  | self => cases info <;> first | rfl | cases hheld
  | item | member => rfl

end TypeInfo

namespace Model

/-- What is printed for the target of an association while a definition may be being
written. -/
def targetText (m : Model) (home : Path) (current : Option String) (many : Bool)
    (target : String) : String :=
  if current = some target then if many then "this[]" else "this"
  else (m.placeFrom home target).qualifier ++
    if many then (m.inflection (m.nameParts target)).plural
    else (m.inflection (m.nameParts target)).singular

/-- The text of an association while a definition may be being written. -/
def associationText (m : Model) (home : Path) (current : Option String) (container : Container)
    (many : Bool) (target : String) : String :=
  container.wrapper many ++ "<" ++ m.targetText home current many target ++ ">"

/-- A type is that of an association which stands in an element, and is written as that. -/
structure Marks (m : Model) (home : Path) (current : Option String) (element : Definition)
    (container : Container) (x : Definition) (target : String) (held : TypeInfo) : Prop where
  nests : element.Nests x
  association : x.IsAssociationTo container target
  defined : m.defines target = true
  text : ∀ c, held.text c = m.associationText home current container x.isToMany target

variable {m : Model} {site : Site}

open Resolution

theorem argument_eq_targetText {target hint : String} {many : Bool} {u : UserDefined}
    (h : (m.resolveUserDefined site target [] false hint).outcome = .ok u) :
    associationArgument many (site.isCurrent target) u =
      m.targetText site.home site.current many target := by
  obtain ⟨d, -, rfl⟩ := resolveUserDefined_eq_ok h
  rw [targetText]
  by_cases hcurrent : site.current = some target
  · rw [if_pos hcurrent, Site.isCurrent, hcurrent]
    cases many <;> simp [associationArgument]
  · rw [if_neg hcurrent, Site.isCurrent, beq_eq_false_iff_ne.mpr hcurrent]
    cases many <;> rfl

theorem of_mem_forEntries {α : Type} {resolve : String → α → Resolution TypeInfo}
    {name : String} {info : TypeInfo} :
    ∀ {entries : List (String × α)} {members : List (String × TypeInfo)},
      (forEntries resolve entries).outcome = .ok members → (name, info) ∈ members →
        ∃ a, (name, a) ∈ entries ∧ (resolve name a).outcome = .ok info
  | [], members, h, hmem => by
    cases h
    cases hmem
  | (other, b) :: rest, members, h, hmem => by
    obtain ⟨first, hfirst, hrest, -⟩ := andThen_eq_ok h
    obtain ⟨infos, hinfos, rfl, -⟩ := andThen_found_eq_ok hrest
    rcases List.mem_cons.mp hmem with heq | hmem
    · cases heq
      exact ⟨b, List.mem_cons_self, hfirst⟩
    · obtain ⟨a, ha, hresolved⟩ := of_mem_forEntries hinfos hmem
      exact ⟨a, List.mem_cons_of_mem _ ha, hresolved⟩

theorem Marks.nested {home : Path} {current : Option String} {element inner x : Definition}
    {container : Container} {target : String} {held : TypeInfo}
    (h : m.Marks home current inner container x target held)
    (hnests : inner.Nests x → element.Nests x) :
    m.Marks home current element container x target held :=
  { h with nests := hnests h.nests }

/-- The associations in the type of an element are those in the element.  One to the
definition being written has a marker for its target. -/
theorem resolveWithin_marks :
    ∀ {levels : Nat} {outermost : Bool} {element : Definition} {hint : String}
      {info held : TypeInfo},
      (m.resolveWithin site levels outermost element hint).outcome = .ok info →
      info.Holds held → held.isAssociation = true →
      ∃ container x target, m.Marks site.home site.current element container x target held
  | 0, _, _, _, _, _, h, _, _ => by cases h
  | levels + 1, outermost, element, hint, info, held, h, hholds, hheld => by
    rw [resolveWithin] at h
    cases hitems : element.items with
    | some items =>
      simp only [hitems] at h
      obtain ⟨item, hitem, rfl, -⟩ := andThen_found_eq_ok h
      cases hholds with
      | self => cases hheld
      | item hholds =>
        obtain ⟨container, x, target, hmarks⟩ := resolveWithin_marks hitem hholds hheld
        exact ⟨container, x, target, hmarks.nested (.item hitems)⟩
    | none =>
      simp only [hitems] at h
      split at h
      · cases h
        cases hholds with
        | self => cases hheld
      · split at h
        · next htype =>
          obtain ⟨members, hmembers, rfl, -⟩ := andThen_found_eq_ok h
          cases hholds with
          | self => cases hheld
          | member hmem hholds =>
            obtain ⟨member, hmember, hresolved⟩ := of_mem_forEntries hmembers hmem
            obtain ⟨container, x, target, hmarks⟩ := resolveWithin_marks hresolved hholds hheld
            exact ⟨container, x, target, hmarks.nested (.member hitems htype hmember)⟩
        · cases h
        · obtain ⟨d, -, rfl⟩ := resolveAccess_eq_ok h
          cases hholds with
          | self => cases hheld
        · next name htype =>
          rcases resolveName_eq_ok h with
              ⟨container, target, u, hcontainer, htarget, hu, rfl⟩ | ⟨hsimple, -⟩
          · cases hholds with
            | self =>
              obtain ⟨d, hd, -⟩ := resolveUserDefined_eq_ok hu
              refine ⟨container, element, target, .self, ⟨⟨name, htype, hcontainer⟩, htarget⟩,
                by simp [defines, hd], fun c => ?_⟩
              rw [TypeInfo.text, argument_eq_targetText hu, associationText]
          · rw [hholds.not_simple hheld] at hsimple
            cases hsimple

end Model

end SchemaTypes
