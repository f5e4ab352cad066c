import SchemaTypes.Model.Draft
import SchemaTypes.Proofs.Table
import Mathlib.Data.List.Perm.Subperm

/-!
# Walking a draft tree

`Model.InDraftTree` says which entities belong to the tree of a root: the least
set that holds the root and follows compositions to targets in a service that
carry no mark of their own.  `visitDraft` walks this set depth first.

The walk is described by three lists.  It adds names to the tree, it adds
names to the reported roots, and it meets elements in some order.  `Walked`
says how the tree after the walk comes from the tree before it, given these
lists: what is reported and what is warned of is read off the elements that
were met.  Walks are put together by `Walked.trans`.

The walk from an entity meets every element of every entity it adds, and
exactly once (`visitsWell`).  Its bound on the levels is never felt,
since each level adds a defined name, and a larger bound changes nothing
(`visitDraft_succ`).
-/

namespace SchemaTypes

/-! ## Draft trees as sets -/

namespace Model

/-- An entity has a composition, its own or an inherited one, to a defined
target. -/
def Composes (m : Model) (owner element target : String) (d : Definition) : Prop :=
  ∃ o e, m.find? owner = some o ∧ (element, e) ∈ m.allElements o ∧
    e.isComposition = true ∧ e.target = some target ∧ m.find? target = some d

/-- An entity in a service that is marked as the root of a draft tree. -/
def RootsDraft (m : Model) (root : String) : Prop :=
  ∃ d, m.find? root = some d ∧ d.kind = some .entity ∧ draftMark? d = some true ∧
    m.inService root = true

/-- The entities of the draft tree of a root. -/
inductive InDraftTree (m : Model) (root : String) : String → Prop
  | root : InDraftTree m root root
  | compose {owner element target : String} {d : Definition} :
      InDraftTree m root owner → m.Composes owner element target d →
      m.inService target = true → draftMark? d = none → InDraftTree m root target

/-- An entity of a tree that is not its root lies in a service and is not
marked. -/
theorem InDraftTree.eq_root_or {m : Model} {root name : String} (h : m.InDraftTree root name) :
    name = root ∨
      ∃ d, m.find? name = some d ∧ m.inService name = true ∧ draftMark? d = none := by
  cases h with
  | root => exact Or.inl rfl
  | compose _ hc hs hm =>
    obtain ⟨_, _, _, _, _, _, hd⟩ := hc
    exact Or.inr ⟨_, hd, hs, hm⟩

theorem InDraftTree.inService {m : Model} {root name : String} (hr : m.RootsDraft root)
    (h : m.InDraftTree root name) : m.inService name = true := by
  rcases h.eq_root_or with rfl | ⟨_, _, hs, _⟩
  · obtain ⟨_, _, _, _, hs⟩ := hr
    exact hs
  · exact hs

theorem InDraftTree.defined {m : Model} {root name : String} (hr : m.RootsDraft root)
    (h : m.InDraftTree root name) : ∃ d, m.find? name = some d := by
  rcases h.eq_root_or with rfl | ⟨d, hd, _, _⟩
  · obtain ⟨d, hd, _⟩ := hr
    exact ⟨d, hd⟩
  · exact ⟨d, hd⟩

/-- The only marked entity of a tree is its root. -/
theorem InDraftTree.eq_root {m : Model} {root name : String} {d : Definition}
    (h : m.InDraftTree root name) (hd : m.find? name = some d) (hm : draftMark? d = some true) :
    name = root := by
  rcases h.eq_root_or with rfl | ⟨d', hd', _, hm'⟩
  · rfl
  · rw [hd] at hd'
    cases hd'
    rw [hm] at hm'
    cases hm'

end Model

/-! ## Where an element leads -/

/-- An element that a walk meets, with the entity it belongs to. -/
structure Occurrence where
  /-- The entity. -/
  owner : String
  /-- The name of the element. -/
  name : String
  /-- The element. -/
  element : Definition

/-- Where the walk goes from an element. -/
inductive Heading
  | nowhere
  | outside (target : String)
  | marked (target : String)
  | onward (target : String)

namespace Model

/-- The elements of an entity, inherited ones included. -/
def occurrences (m : Model) (owner : String) : List Occurrence :=
  match m.find? owner with
  | none => []
  | some d => (m.allElements d).map fun entry => ⟨owner, entry.1, entry.2⟩

/-- Where the walk goes from an element. -/
def heading (m : Model) (element : Definition) : Heading :=
  match compositionTarget? element with
  | none => .nowhere
  | some target =>
      match m.find? target with
      | none => .nowhere
      | some d =>
          if !m.inService target then .outside target
          else
            match draftMark? d with
            | some true => .marked target
            | some false => .nowhere
            | none => .onward target

theorem mem_occurrences_iff {m : Model} {owner : String} {o : Occurrence} :
    o ∈ m.occurrences owner ↔
      o.owner = owner ∧ ∃ d, m.find? owner = some d ∧ (o.name, o.element) ∈ m.allElements d := by
  simp only [occurrences]
  cases m.find? owner with
  | none => simp
  | some d =>
    simp only [List.mem_map, Option.some.injEq, exists_eq_left']
    constructor
    · rintro ⟨entry, h, rfl⟩
      exact ⟨rfl, h⟩
    · rintro ⟨rfl, h⟩
      exact ⟨_, h, rfl⟩

theorem compositionTarget?_eq_some {e : Definition} {target : String} :
    compositionTarget? e = some target ↔ e.isComposition = true ∧ e.target = some target := by
  simp only [compositionTarget?]
  split
  · next h => simp [h]
  · next h => simp [h]

/-- The heading of a composition to a defined target. -/
theorem heading_of_target {m : Model} {e : Definition} {target : String} {d : Definition}
    (hc : compositionTarget? e = some target) (hd : m.find? target = some d) :
    m.heading e =
      if !m.inService target then .outside target
      else
        match draftMark? d with
        | some true => .marked target
        | some false => .nowhere
        | none => .onward target := by
  simp only [heading, hc, hd]

/-- An element that leads somewhere is a composition to a defined target. -/
theorem exists_target_of_heading {m : Model} {e : Definition} (h : m.heading e ≠ .nowhere) :
    ∃ target d, compositionTarget? e = some target ∧ m.find? target = some d := by
  simp only [heading] at h
  cases hc : compositionTarget? e with
  | none => simp [hc] at h
  | some target =>
    cases hd : m.find? target with
    | none => simp [hc, hd] at h
    | some d => exact ⟨target, d, rfl, hd⟩

theorem heading_eq_outside {m : Model} {e : Definition} {target : String} :
    m.heading e = .outside target ↔
      ∃ d, compositionTarget? e = some target ∧ m.find? target = some d ∧
        m.inService target = false := by
  constructor
  · intro h
    obtain ⟨target', d, hc, hd⟩ := exists_target_of_heading (m := m) (e := e) (by simp [h])
    rw [heading_of_target hc hd] at h
    split at h
    · next hs =>
      cases h
      exact ⟨d, hc, hd, by simpa using hs⟩
    · split at h <;> cases h
  · rintro ⟨d, hc, hd, hs⟩
    simp [heading_of_target hc hd, hs]

theorem heading_eq_marked {m : Model} {e : Definition} {target : String} :
    m.heading e = .marked target ↔
      ∃ d, compositionTarget? e = some target ∧ m.find? target = some d ∧
        m.inService target = true ∧ draftMark? d = some true := by
  constructor
  · intro h
    obtain ⟨target', d, hc, hd⟩ := exists_target_of_heading (m := m) (e := e) (by simp [h])
    rw [heading_of_target hc hd] at h
    split at h
    · cases h
    · next hs =>
      split at h
      · next hm =>
        cases h
        exact ⟨d, hc, hd, by simpa using hs, hm⟩
      · cases h
      · cases h
  · rintro ⟨d, hc, hd, hs, hm⟩
    simp [heading_of_target hc hd, hs, hm]

theorem heading_eq_onward {m : Model} {e : Definition} {target : String} :
    m.heading e = .onward target ↔
      ∃ d, compositionTarget? e = some target ∧ m.find? target = some d ∧
        m.inService target = true ∧ draftMark? d = none := by
  constructor
  · intro h
    obtain ⟨target', d, hc, hd⟩ := exists_target_of_heading (m := m) (e := e) (by simp [h])
    rw [heading_of_target hc hd] at h
    split at h
    · cases h
    · next hs =>
      split at h
      · cases h
      · cases h
      · next hm =>
        cases h
        exact ⟨d, hc, hd, by simpa using hs, hm⟩
  · rintro ⟨d, hc, hd, hs, hm⟩
    simp [heading_of_target hc hd, hs, hm]

/-- The elements of an entity that lead to a defined target are its
compositions. -/
theorem composes_iff {m : Model} {owner element target : String} {d : Definition} :
    m.Composes owner element target d ↔
      ∃ o ∈ m.occurrences owner, o.name = element ∧
        compositionTarget? o.element = some target ∧ m.find? target = some d := by
  constructor
  · rintro ⟨p, e, hp, he, hc, ht, hd⟩
    exact ⟨⟨owner, element, e⟩, mem_occurrences_iff.mpr ⟨rfl, p, hp, he⟩, rfl,
      compositionTarget?_eq_some.mpr ⟨hc, ht⟩, hd⟩
  · rintro ⟨o, ho, rfl, hc, hd⟩
    obtain ⟨_, p, hp, he⟩ := mem_occurrences_iff.mp ho
    obtain ⟨hc, ht⟩ := compositionTarget?_eq_some.mp hc
    exact ⟨p, o.element, hp, he, hc, ht, hd⟩

/-! ## One step of the walk -/

/-- What the walk does when it meets an element. -/
def meet (m : Model) (levels : Nat) (t : DraftTree) (o : Occurrence) : DraftTree :=
  match m.heading o.element with
  | .nowhere => t
  | .outside target =>
      if t.visited.contains target then t else t.warnOutside o.owner o.name target
  | .marked target => if t.visited.contains target then t else t.reportConflict target
  | .onward target => m.visitDraft levels target t

theorem visitDraft_of_mem (m : Model) (levels : Nat) {name : String} {t : DraftTree}
    (h : name ∈ t.visited) : m.visitDraft levels name t = t := by
  cases levels with
  | zero => rfl
  | succ levels => simp [visitDraft, h]

/-- The walk from a new entity adds the entity and meets its elements. -/
theorem visitDraft_of_notMem (m : Model) (levels : Nat) {name : String} {t : DraftTree}
    (h : name ∉ t.visited) :
    m.visitDraft (levels + 1) name t =
      (m.occurrences name).foldl (m.meet levels) (t.enter name) := by
  rw [visitDraft, if_neg (by simpa using h)]
  cases hd : m.find? name with
  | none => simp [occurrences, hd]
  | some d =>
    simp only [occurrences, hd, List.foldl_map]
    congr 1
    funext t entry
    cases hc : compositionTarget? entry.2 with
    | none => simp [meet, heading, hc]
    | some target =>
      cases hf : m.find? target with
      | none => simp [meet, heading, hc, hf]
      | some d =>
        rw [meet, heading_of_target hc hf]
        by_cases ht : target ∈ t.visited
        · have hstay := visitDraft_of_mem m levels ht
          cases hs : m.inService target with
          | false => simp [ht]
          | true => rcases hm : draftMark? d with _ | _ | _ <;> simp [ht, hstay]
        · cases hs : m.inService target with
          | false => simp [ht, hf, hs]
          | true => rcases hm : draftMark? d with _ | _ | _ <;> simp [ht, hf, hs, hm]

end Model

/-! ## What a walk leaves behind -/

/-- The warnings among findings. -/
def Diagnostic.warnings (findings : List Diagnostic) : List Diagnostic :=
  findings.filter (·.severity == .warning)

/-- A composition that leaves every service, met in the tree of a root. -/
structure Crossing where
  /-- The root of the tree. -/
  root : String
  /-- The entity of the tree. -/
  owner : String
  /-- Its composition. -/
  element : String
  /-- The target. -/
  target : String

/-- What is reported of a composition that leaves every service. -/
def Crossing.warning (c : Crossing) : Diagnostic :=
  .warn c.target (DraftTree.outsideMessage c.root c.owner c.element)

/-- An element as a composition that leaves every service, if it is one. -/
def Model.crossing? (m : Model) (root : String) (o : Occurrence) : Option Crossing :=
  match m.heading o.element with
  | .outside target => some ⟨root, o.owner, o.name, target⟩
  | _ => none

theorem Model.crossing?_eq_some {m : Model} {root : String} {o : Occurrence} {c : Crossing} :
    m.crossing? root o = some c ↔
      c.root = root ∧ c.owner = o.owner ∧ c.element = o.name ∧
        m.heading o.element = .outside c.target := by
  obtain ⟨croot, cowner, celement, ctarget⟩ := c
  simp only [crossing?]
  cases m.heading o.element with
  | nowhere => simp
  | outside target => simp [eq_comm]
  | marked target => simp
  | onward target => simp

/-- What holds of a tree throughout a walk, once the root is in it. -/
structure DraftTree.Sound (m : Model) (t : DraftTree) : Prop where
  root : m.RootsDraft t.root
  root_mem : t.root ∈ t.visited
  members : ∀ name ∈ t.visited, m.InDraftTree t.root name
  visited_nodup : t.visited.Nodup
  reported_nodup : t.reported.Nodup

/-- The tree `t'` comes from the tree `t` by adding the names `new`, reporting
the roots `more` and meeting the elements `log`. -/
structure Walked (m : Model) (t : DraftTree) (new more : List String) (log : List Occurrence)
    (t' : DraftTree) : Prop where
  root : t'.root = t.root
  visited : t'.visited = new ++ t.visited
  reported : t'.reported = more ++ t.reported
  conflicts : t'.findings.conflicts =
    t.findings.conflicts ++ more.reverse.map (DraftTree.conflictMessage t.root)
  conflicting : t'.findings.conflicting = more ++ t.findings.conflicting
  warnings : Diagnostic.warnings t'.findings.diagnostics =
    Diagnostic.warnings t.findings.diagnostics ++
      (log.filterMap (m.crossing? t.root)).map Crossing.warning
  /-- The reported roots are those that the elements lead to. -/
  reports : ∀ target, target ∈ t'.reported ↔
    target ∈ t.reported ∨ target ≠ t.root ∧ ∃ o ∈ log, m.heading o.element = .marked target
  /-- The walk went wherever the elements lead. -/
  closed : ∀ o ∈ log, ∀ target, m.heading o.element = .onward target → target ∈ t'.visited

namespace Walked

variable {m : Model} {t t₁ t₂ : DraftTree} {new new' more more' : List String}
  {log log' : List Occurrence}

theorem refl (m : Model) (t : DraftTree) : Walked m t [] [] [] t where
  root := rfl
  visited := rfl
  reported := rfl
  conflicts := by simp
  conflicting := rfl
  warnings := by simp
  reports := by simp
  closed := by simp

/-- One walk and then another. -/
theorem trans (h : Walked m t new more log t₁) (h' : Walked m t₁ new' more' log' t₂) :
    Walked m t (new' ++ new) (more' ++ more) (log ++ log') t₂ where
  root := h'.root.trans h.root
  visited := by rw [h'.visited, h.visited, List.append_assoc]
  reported := by rw [h'.reported, h.reported, List.append_assoc]
  conflicts := by
    rw [h'.conflicts, h.conflicts, h.root, List.reverse_append, List.map_append, List.append_assoc]
  conflicting := by rw [h'.conflicting, h.conflicting, List.append_assoc]
  warnings := by
    rw [h'.warnings, h.warnings, h.root, List.filterMap_append, List.map_append,
      List.append_assoc]
  reports := by
    intro target
    rw [h'.reports, h.reports, h.root]
    constructor
    · rintro ((hr | ⟨hne, o, ho, hm⟩) | ⟨hne, o, ho, hm⟩)
      · exact Or.inl hr
      · exact Or.inr ⟨hne, o, List.mem_append_left _ ho, hm⟩
      · exact Or.inr ⟨hne, o, List.mem_append_right _ ho, hm⟩
    · rintro (hr | ⟨hne, o, ho, hm⟩)
      · exact Or.inl (Or.inl hr)
      · rcases List.mem_append.mp ho with ho | ho
        · exact Or.inl (Or.inr ⟨hne, o, ho, hm⟩)
        · exact Or.inr ⟨hne, o, ho, hm⟩
  closed := by
    intro o ho target hm
    rcases List.mem_append.mp ho with ho | ho
    · rw [h'.visited]
      exact List.mem_append_right _ (h.closed o ho target hm)
    · exact h'.closed o ho target hm

theorem mem_visited (h : Walked m t new more log t₁) {name : String} (hn : name ∈ t.visited) :
    name ∈ t₁.visited := by
  rw [h.visited]
  exact List.mem_append_right _ hn

theorem length_visited_le (h : Walked m t new more log t₁) :
    t.visited.length ≤ t₁.visited.length := by
  rw [h.visited, List.length_append]
  omega

/-- Meeting an element that is worth no report changes nothing else. -/
theorem cons_log (h : Walked m t new more log t₁) {o : Occurrence}
    (hw : m.crossing? t.root o = none)
    (hr : ∀ target, m.heading o.element = .marked target → target = t.root)
    (hc : ∀ target, m.heading o.element = .onward target → target ∈ t₁.visited) :
    Walked m t new more (o :: log) t₁ where
  root := h.root
  visited := h.visited
  reported := h.reported
  conflicts := h.conflicts
  conflicting := h.conflicting
  warnings := by rw [h.warnings, List.filterMap_cons_none hw]
  reports := by
    intro target
    rw [h.reports]
    constructor
    · rintro (hm | ⟨hne, o', ho', hm⟩)
      · exact Or.inl hm
      · exact Or.inr ⟨hne, o', List.mem_cons_of_mem _ ho', hm⟩
    · rintro (hm | ⟨hne, o', ho', hm⟩)
      · exact Or.inl hm
      · rcases List.mem_cons.mp ho' with rfl | ho'
        · exact absurd (hr target hm) hne
        · exact Or.inr ⟨hne, o', ho', hm⟩
  closed := by
    intro o' ho' target hm
    rcases List.mem_cons.mp ho' with rfl | ho'
    · exact hc target hm
    · exact h.closed o' ho' target hm

theorem enter (m : Model) (t : DraftTree) (name : String) :
    Walked m t [name] [] [] (t.enter name) where
  root := rfl
  visited := rfl
  reported := rfl
  conflicts := by simp [DraftTree.enter]
  conflicting := rfl
  warnings := by simp [DraftTree.enter]
  reports := by simp [DraftTree.enter]
  closed := by simp

theorem warnOutside {o : Occurrence} {target : String}
    (ho : m.heading o.element = .outside target) :
    Walked m t [] [] [o] (t.warnOutside o.owner o.name target) where
  root := rfl
  visited := rfl
  reported := rfl
  conflicts := by simp [DraftTree.warnOutside]
  conflicting := rfl
  warnings := by
    simp [DraftTree.warnOutside, Model.crossing?, ho, Crossing.warning, Diagnostic.warnings,
      Diagnostic.warn]
  reports := by simp [DraftTree.warnOutside, ho]
  closed := by simp [ho]

/-- Another root is reported when it is met for the first time. -/
theorem reportConflict {o : Occurrence} {target : String}
    (ho : m.heading o.element = .marked target) (hne : target ≠ t.root)
    (hn : target ∉ t.reported) : Walked m t [] [target] [o] (t.reportConflict target) := by
  have ht : t.reportConflict target =
      { t with
        reported := target :: t.reported
        findings :=
          { conflicts := t.findings.conflicts ++ [DraftTree.conflictMessage t.root target]
            conflicting := target :: t.findings.conflicting
            diagnostics := t.findings.diagnostics ++
              [.fail target (DraftTree.conflictMessage t.root target)] } } := by
    simp [DraftTree.reportConflict, hn]
  rw [ht]
  exact {
    root := rfl
    visited := rfl
    reported := rfl
    conflicts := rfl
    conflicting := rfl
    warnings := by simp [Model.crossing?, ho, Diagnostic.warnings, Diagnostic.fail]
    reports := by
      intro other
      simp only [List.mem_cons, List.not_mem_nil, or_false, exists_eq_left, ho,
        Heading.marked.injEq]
      constructor
      · rintro (rfl | hr)
        · exact Or.inr ⟨hne, rfl⟩
        · exact Or.inl hr
      · rintro (hr | ⟨_, rfl⟩)
        · exact Or.inr hr
        · exact Or.inl rfl
    closed := by simp [ho] }

/-- Another root that was reported before is not reported again. -/
theorem reportConflict_again {o : Occurrence} {target : String}
    (ho : m.heading o.element = .marked target) (hn : target ∈ t.reported) :
    Walked m t [] [] [o] (t.reportConflict target) := by
  have ht : t.reportConflict target = t := by simp [DraftTree.reportConflict, hn]
  rw [ht]
  exact {
    root := rfl
    visited := rfl
    reported := rfl
    conflicts := by simp
    conflicting := rfl
    warnings := by simp [Model.crossing?, ho]
    reports := by
      intro other
      simp only [List.mem_singleton, exists_eq_left, ho, Heading.marked.injEq]
      constructor
      · exact Or.inl
      · rintro (hr | ⟨_, rfl⟩)
        · exact hr
        · exact hn
    closed := by simp [ho] }

end Walked

/-- A walk that meets the given elements, and every element of the entities it
adds on the way, each of them once. -/
def WalksThrough (m : Model) (t : DraftTree) (os : List Occurrence) (t' : DraftTree) : Prop :=
  ∃ new more log, Walked m t new more log t' ∧ t'.Sound m ∧
    log.Perm (os ++ new.flatMap m.occurrences)

namespace WalksThrough

variable {m : Model} {t t₁ t₂ : DraftTree} {os os' : List Occurrence}

theorem sound (h : WalksThrough m t os t₁) : t₁.Sound m := by
  obtain ⟨_, _, _, _, hs, _⟩ := h
  exact hs

theorem root (h : WalksThrough m t os t₁) : t₁.root = t.root := by
  obtain ⟨_, _, _, hw, _, _⟩ := h
  exact hw.root

theorem length_visited_le (h : WalksThrough m t os t₁) :
    t.visited.length ≤ t₁.visited.length := by
  obtain ⟨_, _, _, hw, _, _⟩ := h
  exact hw.length_visited_le

theorem refl (hs : t.Sound m) : WalksThrough m t [] t :=
  ⟨[], [], [], Walked.refl m t, hs, List.Perm.refl _⟩

theorem trans (h : WalksThrough m t os t₁) (h' : WalksThrough m t₁ os' t₂) :
    WalksThrough m t (os ++ os') t₂ := by
  obtain ⟨new, more, log, hw, _, hp⟩ := h
  obtain ⟨new', more', log', hw', hs', hp'⟩ := h'
  refine ⟨new' ++ new, more' ++ more, log ++ log', hw.trans hw', hs', ?_⟩
  rw [List.flatMap_append, List.append_assoc]
  refine (hp.append hp').trans ?_
  rw [List.append_assoc]
  refine List.Perm.append_left os ?_
  rw [← List.append_assoc os']
  exact List.perm_append_comm

end WalksThrough

/-! ## The walk from an entity -/

namespace DraftTree.Sound

variable {m : Model} {t : DraftTree}

/-- While a defined name is missing from the tree, a level is left. -/
theorem length_visited_lt (hs : t.Sound m) {name : String} (hm : m.InDraftTree t.root name)
    (hn : name ∉ t.visited) : t.visited.length < m.definitions.length := by
  have hnodup : (name :: t.visited).Nodup := List.nodup_cons.mpr ⟨hn, hs.visited_nodup⟩
  have hsub : name :: t.visited ⊆ Table.names m.definitions := by
    intro other ho
    have hin : m.InDraftTree t.root other := by
      rcases List.mem_cons.mp ho with rfl | ho
      · exact hm
      · exact hs.members other ho
    obtain ⟨d, hd⟩ := hin.defined hs.root
    exact Model.mem_names_of_find? hd
  have hlen := (List.subperm_of_subset hnodup hsub).length_le
  rw [Table.names, List.length_map, List.length_cons] at hlen
  omega

theorem enter (hs : t.Sound m) {name : String} (hm : m.InDraftTree t.root name)
    (hn : name ∉ t.visited) : (t.enter name).Sound m where
  root := hs.root
  root_mem := List.mem_cons_of_mem _ hs.root_mem
  members := by
    intro other ho
    rcases List.mem_cons.mp ho with rfl | ho
    · exact hm
    · exact hs.members other ho
  visited_nodup := List.nodup_cons.mpr ⟨hn, hs.visited_nodup⟩
  reported_nodup := hs.reported_nodup

theorem warnOutside (hs : t.Sound m) (owner element target : String) :
    (t.warnOutside owner element target).Sound m :=
  ⟨hs.root, hs.root_mem, hs.members, hs.visited_nodup, hs.reported_nodup⟩

theorem reportConflict (hs : t.Sound m) (target : String) :
    (t.reportConflict target).Sound m := by
  simp only [DraftTree.reportConflict]
  split
  · exact hs
  · next hn =>
    exact ⟨hs.root, hs.root_mem, hs.members, hs.visited_nodup,
      List.nodup_cons.mpr ⟨by simpa using hn, hs.reported_nodup⟩⟩

end DraftTree.Sound

namespace Model

/-- The walk from an entity is as it should be when some levels are left. -/
def VisitsWell (m : Model) (levels : Nat) : Prop :=
  ∀ (t : DraftTree) (name : String), t.Sound m → m.InDraftTree t.root name →
    m.definitions.length ≤ levels + t.visited.length →
    WalksThrough m t [] (m.visitDraft levels name t) ∧
      name ∈ (m.visitDraft levels name t).visited

/-- Meeting one element of an entity in the tree. -/
theorem meet_walksThrough {m : Model} {levels : Nat} (hv : m.VisitsWell levels) {t : DraftTree}
    {o : Occurrence} (hs : t.Sound m) (ho : o ∈ m.occurrences o.owner)
    (hm : m.InDraftTree t.root o.owner) (hl : m.definitions.length ≤ levels + t.visited.length) :
    WalksThrough m t [o] (m.meet levels t o) := by
  simp only [meet]
  cases hh : m.heading o.element with
  | nowhere =>
    have hw := (Walked.refl m t).cons_log (o := o) (by simp [crossing?, hh]) (by simp [hh])
      (by simp [hh])
    exact ⟨[], [], [o], hw, hs, List.Perm.refl _⟩
  | outside target =>
    obtain ⟨d, _, _, hout⟩ := heading_eq_outside.mp hh
    have hn : target ∉ t.visited := by
      intro ht
      rw [(hs.members target ht).inService hs.root] at hout
      cases hout
    simp only [List.contains_eq_mem, hn, decide_false]
    exact ⟨[], [], [o], Walked.warnOutside hh, hs.warnOutside _ _ _, List.Perm.refl _⟩
  | marked target =>
    obtain ⟨d, _, hd, _, hmark⟩ := heading_eq_marked.mp hh
    by_cases ht : target ∈ t.visited
    · -- The root itself is the one marked entity the tree can hold.
      have hroot : target = t.root := (hs.members target ht).eq_root hd hmark
      have hw := (Walked.refl m t).cons_log (o := o) (by simp [crossing?, hh])
        (by simpa [hh] using hroot) (by simp [hh])
      simp only [List.contains_eq_mem, ht, decide_true, if_true]
      exact ⟨[], [], [o], hw, hs, List.Perm.refl _⟩
    · have hne : target ≠ t.root := by
        rintro rfl
        exact ht hs.root_mem
      simp only [List.contains_eq_mem, ht, decide_false]
      by_cases hr : target ∈ t.reported
      · exact ⟨[], [], [o], Walked.reportConflict_again hh hr, hs.reportConflict _,
          List.Perm.refl _⟩
      · exact ⟨[], [target], [o], Walked.reportConflict hh hne hr, hs.reportConflict _,
          List.Perm.refl _⟩
  | onward target =>
    obtain ⟨d, hc, hd, hin, hmark⟩ := heading_eq_onward.mp hh
    have hcomp : m.Composes o.owner o.name target d :=
      composes_iff.mpr ⟨o, ho, rfl, hc, hd⟩
    obtain ⟨⟨new, more, log, hw, hs', hp⟩, hmem⟩ :=
      hv t target hs (hm.compose hcomp hin hmark) hl
    have hw' := hw.cons_log (o := o) (by simp [crossing?, hh]) (by simp [hh])
      (by simpa [hh] using hmem)
    exact ⟨new, more, o :: log, hw', hs', hp.cons o⟩

/-- Meeting elements of entities in the tree, one after the other. -/
theorem foldl_meet_walksThrough {m : Model} {levels : Nat} (hv : m.VisitsWell levels) :
    ∀ (os : List Occurrence) {t : DraftTree}, t.Sound m →
      (∀ o ∈ os, o ∈ m.occurrences o.owner ∧ m.InDraftTree t.root o.owner) →
      m.definitions.length ≤ levels + t.visited.length →
      WalksThrough m t os (os.foldl (m.meet levels) t)
  | [], t, hs, _, _ => WalksThrough.refl hs
  | o :: os, t, hs, hos, hl => by
    obtain ⟨ho, hm⟩ := hos o List.mem_cons_self
    have h := meet_walksThrough hv hs ho hm hl
    have hl' := h.length_visited_le
    refine h.trans (foldl_meet_walksThrough hv os h.sound ?_ (by omega))
    intro o' ho'
    rw [h.root]
    exact hos o' (List.mem_cons_of_mem _ ho')

/-- The elements of an entity in the tree, met one after the other. -/
theorem occurrences_walksThrough {m : Model} {levels : Nat} (hv : m.VisitsWell levels)
    {t : DraftTree} {name : String} (hs : t.Sound m) (hm : m.InDraftTree t.root name)
    (hl : m.definitions.length ≤ levels + t.visited.length) :
    WalksThrough m t (m.occurrences name) ((m.occurrences name).foldl (m.meet levels) t) := by
  refine foldl_meet_walksThrough hv (m.occurrences name) hs ?_ hl
  intro o ho
  have howner := (mem_occurrences_iff.mp ho).1
  rw [howner]
  exact ⟨ho, hm⟩

/-- The walk from an entity of the tree: the levels that are left suffice. -/
theorem visitsWell (m : Model) : ∀ levels, m.VisitsWell levels
  | 0, t, name, hs, hm, hl => by
    have hn : name ∈ t.visited := by
      by_contra hn
      have := hs.length_visited_lt hm hn
      omega
    exact ⟨WalksThrough.refl hs, hn⟩
  | levels + 1, t, name, hs, hm, hl => by
    by_cases hn : name ∈ t.visited
    · rw [visitDraft_of_mem m _ hn]
      exact ⟨WalksThrough.refl hs, hn⟩
    · rw [visitDraft_of_notMem m levels hn]
      have hl' : m.definitions.length ≤ levels + (t.enter name).visited.length := by
        simp only [DraftTree.enter, List.length_cons]
        omega
      obtain ⟨new, more, log, hw, hs', hp⟩ :=
        occurrences_walksThrough (m.visitsWell levels) (hs.enter hm hn) hm hl'
      refine ⟨⟨new ++ [name], more ++ [], [] ++ log, (Walked.enter m t name).trans hw, hs', ?_⟩,
        hw.mem_visited List.mem_cons_self⟩
      rw [List.flatMap_append, List.flatMap_singleton]
      exact hp.trans List.perm_append_comm

/-! ## More levels change nothing -/

theorem meet_succ {m : Model} {levels : Nat}
    (hv : ∀ t name, t.Sound m → m.InDraftTree t.root name →
      m.definitions.length ≤ levels + t.visited.length →
      m.visitDraft (levels + 1) name t = m.visitDraft levels name t)
    {t : DraftTree} {o : Occurrence} (hs : t.Sound m) (ho : o ∈ m.occurrences o.owner)
    (hm : m.InDraftTree t.root o.owner) (hl : m.definitions.length ≤ levels + t.visited.length) :
    m.meet (levels + 1) t o = m.meet levels t o := by
  simp only [meet]
  cases hh : m.heading o.element with
  | nowhere => rfl
  | outside target => rfl
  | marked target => rfl
  | onward target =>
    obtain ⟨d, hc, hd, hin, hmark⟩ := heading_eq_onward.mp hh
    have hcomp : m.Composes o.owner o.name target d :=
      composes_iff.mpr ⟨o, ho, rfl, hc, hd⟩
    exact hv t target hs (hm.compose hcomp hin hmark) hl

theorem foldl_meet_succ {m : Model} {levels : Nat}
    (hv : ∀ t name, t.Sound m → m.InDraftTree t.root name →
      m.definitions.length ≤ levels + t.visited.length →
      m.visitDraft (levels + 1) name t = m.visitDraft levels name t) :
    ∀ (os : List Occurrence) {t : DraftTree}, t.Sound m →
      (∀ o ∈ os, o ∈ m.occurrences o.owner ∧ m.InDraftTree t.root o.owner) →
      m.definitions.length ≤ levels + t.visited.length →
      os.foldl (m.meet (levels + 1)) t = os.foldl (m.meet levels) t
  | [], _, _, _, _ => rfl
  | o :: os, t, hs, hos, hl => by
    obtain ⟨ho, hm⟩ := hos o List.mem_cons_self
    have h := meet_walksThrough (m.visitsWell levels) hs ho hm hl
    have hl' := h.length_visited_le
    rw [List.foldl_cons, List.foldl_cons, meet_succ hv hs ho hm hl]
    refine foldl_meet_succ hv os h.sound ?_ (by omega)
    intro o' ho'
    rw [h.root]
    exact hos o' (List.mem_cons_of_mem _ ho')

theorem visitDraft_succ (m : Model) : ∀ (levels : Nat) (t : DraftTree) (name : String),
    t.Sound m → m.InDraftTree t.root name →
    m.definitions.length ≤ levels + t.visited.length →
    m.visitDraft (levels + 1) name t = m.visitDraft levels name t
  | 0, t, name, hs, hm, hl => by
    have hn : name ∈ t.visited := by
      by_contra hn
      have := hs.length_visited_lt hm hn
      omega
    rw [visitDraft_of_mem m _ hn, visitDraft_of_mem m _ hn]
  | levels + 1, t, name, hs, hm, hl => by
    by_cases hn : name ∈ t.visited
    · rw [visitDraft_of_mem m _ hn, visitDraft_of_mem m _ hn]
    · rw [visitDraft_of_notMem m _ hn, visitDraft_of_notMem m _ hn]
      refine foldl_meet_succ (m.visitDraft_succ levels) _ (hs.enter hm hn) ?_ ?_
      · intro o ho
        have howner := (mem_occurrences_iff.mp ho).1
        rw [howner]
        exact ⟨ho, hm⟩
      · simp only [DraftTree.enter, List.length_cons]
        omega

/-! ## The walk from a root -/

/-- The tree that holds just its root. -/
theorem sound_enter_root {m : Model} {root : String} (hr : m.RootsDraft root)
    (findings : DraftFindings) :
    (({ root, findings } : DraftTree).enter root).Sound m where
  root := hr
  root_mem := List.mem_cons_self
  members := by
    intro name hn
    rw [List.mem_singleton.mp hn]
    exact .root
  visited_nodup := List.nodup_singleton root
  reported_nodup := List.nodup_nil

theorem definitions_length_pos {m : Model} {root : String} (hr : m.RootsDraft root) :
    0 < m.definitions.length := by
  obtain ⟨d, hd, _⟩ := hr
  exact List.length_pos_of_mem (find?_eq_some_iff.mp hd)

/-- Any number of levels that is not below the number of definitions gives the
same tree. -/
theorem visitDraft_root_eq {m : Model} {root : String} (hr : m.RootsDraft root)
    (findings : DraftFindings) :
    ∀ {levels : Nat}, m.definitions.length ≤ levels →
      m.visitDraft levels root { root, findings } =
        m.visitDraft m.definitions.length root { root, findings } := by
  intro levels hl
  induction levels with
  | zero =>
    have := definitions_length_pos hr
    omega
  | succ levels ih =>
    by_cases h : m.definitions.length = levels + 1
    · rw [h]
    · have hl' : m.definitions.length ≤ levels := by omega
      have hpos := definitions_length_pos hr
      rw [← ih hl']
      obtain ⟨rest, rfl⟩ := Nat.exists_eq_add_of_lt (Nat.lt_of_lt_of_le hpos hl')
      rw [Nat.zero_add, visitDraft_of_notMem m _ List.not_mem_nil,
        visitDraft_of_notMem m _ List.not_mem_nil]
      refine foldl_meet_succ (m.visitDraft_succ rest) _ (sound_enter_root hr findings) ?_ ?_
      · intro o ho
        have howner := (mem_occurrences_iff.mp ho).1
        rw [howner]
        exact ⟨ho, .root⟩
      · simp only [DraftTree.enter, List.length_cons]
        omega

/-- The walk from a root adds exactly the entities of its tree, and meets each
of their elements once. -/
theorem visitDraft_root {m : Model} {root : String} (hr : m.RootsDraft root)
    (findings : DraftFindings) :
    ∃ new more log,
      Walked m { root, findings } new more log
        (m.visitDraft m.definitions.length root { root, findings }) ∧
      new.Nodup ∧ more.Nodup ∧ (∀ name, name ∈ new ↔ m.InDraftTree root name) ∧
      log.Perm (new.flatMap m.occurrences) := by
  have hpos := definitions_length_pos hr
  obtain ⟨levels, hlevels⟩ := Nat.exists_eq_add_of_lt hpos
  rw [Nat.zero_add] at hlevels
  have hl : m.definitions.length ≤
      levels + (({ root, findings } : DraftTree).enter root).visited.length := by
    simp only [DraftTree.enter, List.length_cons]
    omega
  obtain ⟨new, more, log, hw, hs, hp⟩ :=
    occurrences_walksThrough (m.visitsWell levels) (sound_enter_root hr findings) .root hl
  rw [hlevels, visitDraft_of_notMem m _ List.not_mem_nil]
  have hall := (Walked.enter m { root, findings } root).trans hw
  have hvisited := hall.visited
  have hreported := hall.reported
  rw [List.append_nil] at hvisited hreported
  have hperm : log.Perm ((new ++ [root]).flatMap m.occurrences) := by
    rw [List.flatMap_append, List.flatMap_singleton]
    exact hp.trans List.perm_append_comm
  refine ⟨new ++ [root], more ++ [], [] ++ log, hall, ?_, ?_, ?_, hperm⟩
  · rw [← hvisited]
    exact hs.visited_nodup
  · rw [← hreported]
    exact hs.reported_nodup
  · intro name
    rw [← hvisited]
    constructor
    · intro hn
      have hin := hs.members name hn
      rw [hw.root] at hin
      exact hin
    · intro hin
      induction hin with
      | root => exact hw.mem_visited List.mem_cons_self
      | compose _ hcomp hser hmark ih =>
        obtain ⟨o, ho, _, hc, hd⟩ := composes_iff.mp hcomp
        have hlog : o ∈ [] ++ log := by
          rw [List.nil_append, hperm.mem_iff, List.mem_flatMap]
          rw [hvisited] at ih
          exact ⟨_, ih, ho⟩
        exact hall.closed o hlog _ (heading_eq_onward.mpr ⟨_, hc, hd, hser, hmark⟩)

end Model

end SchemaTypes
