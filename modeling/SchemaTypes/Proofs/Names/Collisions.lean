import SchemaTypes.Proofs.Frame
import SchemaTypes.Proofs.Name

/-!
# Names that are checked

An entity is visited only if its singular is not the full name of another
definition, and a run without errors gives every entity its plural: the plural is
taken by the entity, and stays so (`Plan.checks`).  So no two entities of one place
have one plural, and no singular is the name of another definition of its place.

These are the two checks there are.  What else the names of two definitions may have
in common goes unnoticed.
-/

namespace SchemaTypes

/-! ## Plurals that are taken -/

namespace Session

variable {s s' : Session} {space key owner : String}

theorem anyError_append (found more : List Diagnostic) :
    Diagnostic.anyError (found ++ more) =
      (Diagnostic.anyError found || Diagnostic.anyError more) :=
  List.any_append

/-- Without an error now there was none before. -/
theorem Grows.noError (h : s.Grows s') (hnone : Diagnostic.anyError s'.diagnostics = false) :
    Diagnostic.anyError s.diagnostics = false := by
  obtain ⟨more, hmore⟩ := h.diagnostics
  rw [← hmore, anyError_append, Bool.or_eq_false_iff] at hnone
  exact hnone.1

/-- A plural stays with the entity that took it. -/
theorem Grows.ownerOf? (h : s.Grows s') (howner : s.ownerOf? space key = some owner) :
    s'.ownerOf? space key = some owner := by
  obtain ⟨more, hmore⟩ := h.plurals
  obtain ⟨taken, htaken, rfl⟩ := Option.map_eq_some_iff.mp howner
  rw [Session.ownerOf?, ← hmore, List.find?_append, htaken]
  rfl

end Session

namespace Step

variable {m : Model} {name : String} {d : Definition} {s s' : Session}

/-- What is checked of the names of an entity. -/
structure Checked (m : Model) (name : String) (s : Session) : Prop where
  singular : m.defines (nameIn (m.nameParts name) (m.inflection (m.nameParts name)).singular) =
      true →
    nameIn (m.nameParts name) (m.inflection (m.nameParts name)).singular = name
  plural : s.ownerOf? (m.nameParts name).path.dotted
      (Text.join "." ((m.nameParts name).scope ++ [(m.inflection (m.nameParts name)).plural])) =
    some name

theorem Checked.grows (h : Checked m name s) (hgrows : s.Grows s') : Checked m name s' :=
  ⟨h.singular, hgrows.ownerOf? h.plural⟩

theorem checkCollisions_checked {u : Unit}
    (h : checkCollisions m name (m.nameParts name) (m.inflection (m.nameParts name)) s =
      (.ok u, s'))
    (hnone : Diagnostic.anyError s'.diagnostics = false) : Checked m name s' := by
  obtain ⟨hsingular, hplural⟩ := checkCollisions_eq_ok h
  refine ⟨hsingular, ?_⟩
  cases hplural with
  | free hfree =>
    rw [Session.ownerOf?, Option.map_eq_none_iff] at hfree
    rw [Session.ownerOf?, List.find?_append, hfree]
    simp
  | own howner => exact howner
  | taken =>
    -- The plural had been taken by another entity, which is an error.
    rw [Session.report, Session.anyError_append] at hnone
    simp [Diagnostic.anyError, pluralFinding, Diagnostic.fail] at hnone

/-- The names of an entity are checked when it is visited. -/
theorem emission_checked {e? : Option Emission} (h : emission m name d s = (.ok e?, s'))
    (hlocal : isLocalized name = false) (hkind : d.kind = some .entity)
    (hnone : Diagnostic.anyError s'.diagnostics = false) : Checked m name s' := by
  rcases emission_eq_ok h with ⟨hleft, -, -⟩ | ⟨kind, made?, -, hkind', hmade, -⟩
  · simp [hlocal, hkind] at hleft
  obtain rfl : Kind.entity = kind := Option.some.inj (hkind.symm.trans hkind')
  cases hmade with
  | structured _ he =>
    obtain ⟨_, t, -, t', hcheck, a, enums, haspect, -⟩ := structured_eq_ok he
    have hgrows := Keeps.aspect Session.grows_frame (m := m)
      ⟨name, (m.inflection (m.nameParts name)).singular, (m.nameParts name).path, d⟩
      (fun _ _ => trivial) .entity t'
    rw [haspect] at hgrows
    rcases hcheck with ⟨-, hcheck⟩ | ⟨hother, -⟩
    · exact (checkCollisions_checked hcheck (hgrows.noError hnone)).grows hgrows
    · exact absurd rfl hother
  | operation hkinds => cases hkinds
  | nothing hkinds => simp at hkinds

end Step

/-- In a plan without errors the names of all entities were checked. -/
theorem Plan.checks {m : Model} {plan : Plan} (hplan : Plan.ofModel m = .ok plan)
    (hnone : Diagnostic.anyError plan.diagnostics = false) :
    ∃ s : Session, ∀ name d, m.find? name = some d → Step.isLocalized name = false →
      d.kind = some .entity → Step.Checked m name s := by
  obtain ⟨_, s, -, hrun, -, hdiagnostics⟩ := ofModel_eq_ok hplan
  rw [hdiagnostics] at hnone
  refine ⟨s, fun name d hd hlocal hkind => ?_⟩
  obtain ⟨e?, t, t', hemission, hgrows⟩ :=
    Step.emission_of_mem_grows hrun (Model.find?_eq_some_iff.mp hd)
  exact (Step.emission_checked hemission hlocal hkind (hgrows.noError hnone)).grows hgrows

end SchemaTypes
