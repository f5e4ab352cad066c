import SchemaTypes.Proofs.Code.Declared
import SchemaTypes.Proofs.References.Step

/-!
# What an emission declares

The emission of a definition refers to definitions that give types, and it
declares, in the section of its scope, the names under which others refer to
the definition (`Emitted`).  There is one lemma for each way in which an
emission is made.

A plan makes an emission for every definition that gives a type
(`Plan.ofModel_covers`).
-/

namespace SchemaTypes

/-! ## Declared names -/

/-- What is exported can be used as a type. -/
def ExportSort.IsType (sort : ExportSort) : Prop := sort = .classType ∨ sort = .typeAlias

/-- An emission exports a name in a scope. -/
def Emission.Exports (e : Emission) (scope : List String) (sort : ExportSort) (name : String) :
    Prop :=
  ∃ p ∈ e.placements, p.target.IsAt scope ∧ ∃ d ∈ p.declarations, (sort, name) ∈ d.exports

namespace Model

/-- An emission declares the names under which others refer to a definition. -/
def DeclaresType (m : Model) (name : String) (e : Emission) : Prop :=
  e.path = (m.nameParts name).path ∧
    ∀ written, written = (m.inflection (m.nameParts name)).singular ∨
        written = (m.inflection (m.nameParts name)).plural →
      ∃ sort : ExportSort, sort.IsType ∧ e.Exports (m.nameParts name).scope sort written

/-- An emission declares the function that adds the properties of a definition. -/
def DeclaresAspect (m : Model) (name : String) (e : Emission) : Prop :=
  e.path = (m.nameParts name).path ∧
    e.Exports (m.nameParts name).scope .function
      (aspectName (m.inflection (m.nameParts name)).singular)

end Model

/-- From a session to a later one the emission of a definition is made. -/
structure Emitted (m : Model) (name : String) (s s' : Session) (e : Emission) : Prop where
  tracked : Tracked m e.path s s' e.references
  mixins : ∀ ref ∈ e.mixins, m.PointsToAspect e.path ref
  plain : e.path.Plain
  type : m.GivesType name → m.DeclaresType name e
  aspect : m.GivesAspect name → m.DeclaresAspect name e

namespace Model

variable {m : Model} {name : String} {d : Definition}

end Model

namespace Step

variable {m : Model} {name : String} {d : Definition} {kind : Kind} {s s' : Session} {e : Emission}

/-! ## Classes -/

end Step

/-! ## All definitions -/

/-- The references of an emission point to definitions, and its imports are
namespaces of such definitions or of libraries that are referred to. -/
structure Model.Written (m : Model) (r : Registry) (e : Emission) : Prop where
  plain : e.path.Plain
  points : ∀ ref ∈ e.references, m.Points e.path e.imports ref
  mixins : ∀ ref ∈ e.mixins, m.PointsToAspect e.path ref
  known : ∀ p ∈ e.imports, m.TypeSpace p ∨ r.Refers p

theorem Model.Written.mono {m : Model} {r r' : Registry} {e : Emission} (h : m.Written r e)
    (hnoted : ∀ p, r.Refers p → r'.Refers p) : m.Written r' e :=
  ⟨h.plain, h.points, h.mixins, fun p hp => (h.known p hp).imp_right (hnoted p)⟩

/-- From a session to a later one emissions are made that declare what some
definitions give. -/
structure Covers (m : Model) (names : List String) (s s' : Session) (es : List Emission) : Prop
    extends s.Later m s' where
  written : ∀ e ∈ es, m.Written s'.registry e
  types : ∀ n ∈ names, m.GivesType n → ∃ e ∈ es, m.DeclaresType n e
  aspects : ∀ n ∈ names, m.GivesAspect n → ∃ e ∈ es, m.DeclaresAspect n e

namespace Covers

variable {m : Model} {names names' : List String} {s s' s'' : Session} {es es' : List Emission}

theorem nothing (m : Model) (s : Session) : Covers m [] s s [] :=
  ⟨.refl m s, by simp, by simp, by simp⟩

theorem without (h : s.Later m s') (hnames : ∀ n ∈ names, ¬ m.GivesType n) :
    Covers m names s s' [] :=
  ⟨h, by simp, fun n hn hg => absurd hg (hnames n hn),
    fun n hn hg => absurd hg.givesType (hnames n hn)⟩

theorem append (h : Covers m names s s' es) (h' : Covers m names' s' s'' es') :
    Covers m (names ++ names') s s'' (es ++ es') where
  toLater := h.toLater.trans h'.toLater
  written := by
    intro e he
    rcases List.mem_append.mp he with he | he
    · exact (h.written e he).mono h'.noted
    · exact h'.written e he
  types := by
    intro n hn hg
    rcases List.mem_append.mp hn with hn | hn
    · obtain ⟨e, he, hdeclares⟩ := h.types n hn hg
      exact ⟨e, List.mem_append_left _ he, hdeclares⟩
    · obtain ⟨e, he, hdeclares⟩ := h'.types n hn hg
      exact ⟨e, List.mem_append_right _ he, hdeclares⟩
  aspects := by
    intro n hn hg
    rcases List.mem_append.mp hn with hn | hn
    · obtain ⟨e, he, hdeclares⟩ := h.aspects n hn hg
      exact ⟨e, List.mem_append_left _ he, hdeclares⟩
    · obtain ⟨e, he, hdeclares⟩ := h'.aspects n hn hg
      exact ⟨e, List.mem_append_right _ he, hdeclares⟩

end Covers

/-- An emission with the imports that were listed since it was begun. -/
theorem Emitted.covers {m : Model} {name : String} {s s' : Session} {e : Emission}
    (h : Emitted m name { s with imports := [] } s' e) :
    Covers m [name] s s' [{ e with imports := s'.imports }] where
  toLater := ⟨h.tracked.context, h.tracked.keys, h.tracked.libraries, h.tracked.noted⟩
  written := by
    intro e' he'
    obtain rfl := List.mem_singleton.mp he'
    refine ⟨h.plain, h.tracked.points, h.mixins, fun p hp => ?_⟩
    exact (h.tracked.known p hp).resolve_left List.not_mem_nil
  types := by
    intro n hn hg
    obtain rfl := List.mem_singleton.mp hn
    exact ⟨_, List.mem_singleton.mpr rfl, h.type hg⟩
  aspects := by
    intro n hn hg
    obtain rfl := List.mem_singleton.mp hn
    exact ⟨_, List.mem_singleton.mpr rfl, h.aspect hg⟩

namespace Step

variable {m : Model} {name : String} {d : Definition} {s s' : Session}

end Step

end SchemaTypes
