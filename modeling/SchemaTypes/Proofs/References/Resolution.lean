import SchemaTypes.Proofs.References.Basic

/-!
# Resolved types point to definitions

Resolving an element finds a type whose references point to definitions, and
asks for the import of namespaces that hold such definitions or are those of a
library that was used (`Model.resolve_finds`).  The proof follows the resolver:
one lemma for each way in which a type is stated, and an induction on the
levels that are left for arrays and structures.
-/

namespace SchemaTypes

theorem Needs.append_nothing (needs : Needs) : needs ++ ({} : Needs) = needs := by
  obtain ⟨imports, libraryTypes⟩ := needs
  change Needs.mk (imports ++ []) (libraryTypes ++ []) = _
  rw [List.append_nil, List.append_nil]

namespace Resolution

variable {α β : Type}

theorem andThen_eq_ok {r : Resolution α} {next : α → Resolution β} {b : β}
    (h : (r.andThen next).outcome = .ok b) :
    ∃ a, r.outcome = .ok a ∧ (next a).outcome = .ok b ∧
      (r.andThen next).needs = r.needs ++ (next a).needs := by
  simp only [andThen] at h ⊢
  cases hr : r.outcome with
  | error e =>
    rw [hr] at h
    cases h
  | ok a =>
    rw [hr] at h
    exact ⟨a, rfl, h, rfl⟩

theorem andThen_found_eq_ok {r : Resolution α} {form : α → β} {b : β}
    (h : (r.andThen fun a => found (form a)).outcome = .ok b) :
    ∃ a, r.outcome = .ok a ∧ form a = b ∧ (r.andThen fun a => found (form a)).needs = r.needs := by
  obtain ⟨a, ha, hb, hneeds⟩ := andThen_eq_ok h
  exact ⟨a, ha, Except.ok.inj hb, hneeds.trans (Needs.append_nothing r.needs)⟩

end Resolution

namespace Model

variable {m : Model} {site : Site}

/-- The needs of a resolution are met by definitions and libraries, and what was
found points to definitions. -/
structure Finds (m : Model) (site : Site) (refs : List Reference) (needs : Needs) : Prop where
  points : ∀ ref ∈ refs, m.Points site.home needs.imports ref
  imports : ∀ p ∈ needs.imports, m.TypeSpace p ∨
    ∃ q ∈ needs.libraryTypes, ∃ t, site.libraries.find? q = some t ∧ t.path = p

theorem Finds.nothing : m.Finds site [] {} :=
  ⟨by simp, by simp⟩

theorem Finds.append {refs refs' : List Reference} {needs needs' : Needs}
    (h : m.Finds site refs needs) (h' : m.Finds site refs' needs') :
    m.Finds site (refs ++ refs') (needs ++ needs') where
  points := by
    intro ref href
    rcases List.mem_append.mp href with href | href
    · exact (h.points ref href).mono (List.subset_append_left _ _)
    · exact (h'.points ref href).mono (List.subset_append_right _ _)
  imports := by
    intro p hp
    rcases List.mem_append.mp hp with hp | hp
    · refine (h.imports p hp).imp_right ?_
      rintro ⟨q, hq, hlib⟩
      exact ⟨q, List.mem_append_left _ hq, hlib⟩
    · refine (h'.imports p hp).imp_right ?_
      rintro ⟨q, hq, hlib⟩
      exact ⟨q, List.mem_append_right _ hq, hlib⟩

/-! ## Definitions -/

theorem place_eq_ok {n : String} {place : Place}
    (h : (site.place (m.nameParts n)).outcome = .ok place) :
    place = m.placeFrom site.home n ∧
      (site.place (m.nameParts n)).needs =
        ⟨if place.imported then [(m.nameParts n).path] else [], []⟩ := by
  simp only [Site.place] at h ⊢
  by_cases himported : (m.nameParts n).path.isHere site.home = true
  · simp only [himported, Bool.not_true, Bool.false_eq_true, if_false] at h ⊢
    cases h
    exact ⟨by simp [placeFrom, himported], rfl⟩
  · simp only [himported, Bool.not_false, if_true] at h ⊢
    cases h
    exact ⟨by simp [placeFrom, himported], rfl⟩

/-- A definition that is used as a type has its place and its names. -/
theorem resolveUserDefined_eq_ok {name hint : String} {access : List String} {reference : Bool}
    {u : UserDefined} (h : (m.resolveUserDefined site name access reference hint).outcome = .ok u) :
    ∃ d, m.find? name = some d ∧
      u = ⟨name, m.placeFrom site.home name, m.inflection (m.nameParts name), d.kind, access,
        reference⟩ := by
  rw [resolveUserDefined] at h
  split at h
  · cases h
  · next d hd =>
    obtain ⟨place, hplace, rfl, -⟩ := Resolution.andThen_found_eq_ok h
    exact ⟨d, hd, by rw [(place_eq_ok hplace).1]⟩

/-- A definition itself, as seen from the file. -/
theorem resolveDefinition_eq_ok {name : String} {u : UserDefined}
    (h : (m.resolveDefinition site name).outcome = .ok u) :
    m.defines name = true ∧ u.full = name ∧ u.place = m.placeFrom site.home name ∧
      u.names = m.inflection (m.nameParts name) := by
  obtain ⟨d, hd, rfl⟩ := resolveUserDefined_eq_ok h
  exact ⟨by simp [defines, hd], rfl, rfl, rfl⟩

end Model

end SchemaTypes
