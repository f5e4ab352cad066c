import SchemaTypes.Proofs.Context.Moments
import SchemaTypes.Proofs.Draft.Walk

/-!
# What findings are about

The findings of a compilation come from the draft trees, from the names of classes and
from the foreign keys of class bodies.  A finding about a foreign key of a definition
(`Diagnostic.IsForeignKey`) is told apart from all others by its wording and its subject.
It is not made for draft trees (`Model.collectDrafts_noForeignKey`), not while other
definitions are visited (`Step.emissions_noForeignKey`), and not for the names of the
definition itself (`Step.checkNames_noForeignKey`).
-/

namespace SchemaTypes

namespace Diagnostic

variable {name : String} {x : Diagnostic}

/-- A finding about a foreign key of a definition. -/
def IsForeignKey (name : String) (x : Diagnostic) : Prop :=
  ∃ (o : ClassOwner) (property key : String), o.full = name ∧
    x = Step.foreignKeyFinding o property key

theorem IsForeignKey.subject (h : x.IsForeignKey name) : x.subject = name := by
  obtain ⟨o, _, _, rfl, rfl⟩ := h
  rfl

theorem IsForeignKey.severity (h : x.IsForeignKey name) : x.severity = .error := by
  obtain ⟨o, _, _, -, rfl⟩ := h
  rfl

theorem IsForeignKey.head?_message (h : x.IsForeignKey name) :
    x.message.toList.head? = some 'f' := by
  obtain ⟨o, property, key, -, rfl⟩ := h
  simp [Step.foreignKeyFinding, Diagnostic.fail]

theorem not_isForeignKey_warn (subject message : String) :
    ¬ (warn subject message).IsForeignKey name :=
  fun h => nomatch h.severity

theorem not_isForeignKey_plural (subject plural owner : String) :
    ¬ (Step.pluralFinding subject plural owner).IsForeignKey name := by
  intro h
  have hhead := h.head?_message
  simp [Step.pluralFinding, fail] at hhead

theorem not_isForeignKey_conflict (root target : String) :
    ¬ (fail target (DraftTree.conflictMessage root target)).IsForeignKey name := by
  intro h
  have hhead := h.head?_message
  simp [DraftTree.conflictMessage, fail] at hhead

end Diagnostic

/-! ## Draft trees -/

/-- What was found is not about foreign keys of a definition. -/
def DraftFindings.NoForeignKey (findings : DraftFindings) (name : String) : Prop :=
  ∀ x ∈ findings.diagnostics, ¬ x.IsForeignKey name

namespace DraftTree

variable {t : DraftTree} {name : String}

theorem warnOutside_noForeignKey (h : t.findings.NoForeignKey name)
    (owner element target : String) :
    (t.warnOutside owner element target).findings.NoForeignKey name := by
  intro x hx
  rcases List.mem_append.mp hx with hx | hx
  · exact h x hx
  · rw [List.mem_singleton.mp hx]
    exact Diagnostic.not_isForeignKey_warn _ _

theorem reportConflict_noForeignKey (h : t.findings.NoForeignKey name) (target : String) :
    (t.reportConflict target).findings.NoForeignKey name := by
  rw [reportConflict]
  split
  · exact h
  · intro x hx
    rcases List.mem_append.mp hx with hx | hx
    · exact h x hx
    · rw [List.mem_singleton.mp hx]
      exact Diagnostic.not_isForeignKey_conflict _ _

end DraftTree

namespace Model

variable {m : Model} {name : String}

theorem visitDraft_noForeignKey :
    ∀ (levels : Nat) (root : String) {t : DraftTree}, t.findings.NoForeignKey name →
      (m.visitDraft levels root t).findings.NoForeignKey name
  | 0, _, _, h => h
  | levels + 1, root, t, h => by
    by_cases hmem : root ∈ t.visited
    · rwa [visitDraft_of_mem m _ hmem]
    rw [visitDraft_of_notMem m _ hmem]
    refine List.foldlRecOn (motive := fun t : DraftTree => t.findings.NoForeignKey name) _ _ h
      fun t ht o _ => ?_
    rw [meet]
    cases m.heading o.element with
    | nowhere => exact ht
    | outside target =>
      dsimp only
      split
      · exact ht
      · exact DraftTree.warnOutside_noForeignKey ht _ _ _
    | marked target =>
      dsimp only
      split
      · exact ht
      · exact DraftTree.reportConflict_noForeignKey ht _
    | onward target => exact visitDraft_noForeignKey levels target ht

theorem draftTrees_noForeignKey :
    ∀ (roots : List String) {findings : DraftFindings}, findings.NoForeignKey name →
      (m.draftTrees roots findings).2.NoForeignKey name
  | [], _, h => h
  | root :: rest, _, h =>
    draftTrees_noForeignKey rest (visitDraft_noForeignKey m.definitions.length root h)

theorem collectDrafts_noForeignKey (m : Model) (name : String) :
    ∀ x ∈ m.collectDrafts.diagnostics, ¬ x.IsForeignKey name :=
  draftTrees_noForeignKey m.draftRoots fun _ hx => nomatch hx

end Model

/-! ## Visits -/

namespace Step

variable {m : Model} {name : String}

/-- The names of a definition are not checked against its foreign keys. -/
theorem checkNames_noForeignKey (kind : Kind) :
    Keeps (Session.Reports (¬ ·.IsForeignKey name)) (checkNames m name kind) := by
  have hR := Session.reports_frame (¬ ·.IsForeignKey name)
  refine .bind hR (.warnings hR name (fun _ => Diagnostic.not_isForeignKey_warn _ _) _) fun _ => ?_
  split
  · exact checkCollisions_reports Diagnostic.not_isForeignKey_plural _ _ _
  · exact .pure hR _

/-- The visits of other definitions find nothing about foreign keys of a definition. -/
theorem emissions_noForeignKey {definitions : Table Definition} (h : name ∉ definitions.names) :
    Keeps (Session.Reports (¬ ·.IsForeignKey name)) (emissions m definitions) := by
  refine emissions_reports Diagnostic.not_isForeignKey_plural definitions fun n hn x hx hkey => ?_
  rw [← hkey.subject, hx] at h
  exact h hn

end Step

end SchemaTypes
