import SchemaTypes.Proofs.Keys.Query
import Mathlib.Data.List.Perm.Subperm

/-!
# The bounds of a query

A query is bounded in its steps and in its depth.  The bound on the steps is
never felt where stated keys do not lead back to themselves, since the
associations on a chain of stated keys are different nodes of the model.  So
what stops a query is the depth, at an entity that its question leads to
(`Model.refused_eq`).
-/

namespace SchemaTypes

open Relation

namespace Model

variable {m : Model}

/-- Enough steps for a question at a depth.  Below the bound on the depth each
step goes deeper.  Beyond it only stated keys are followed, and the ones that
were followed are different nodes. -/
def EnoughSteps (m : Model) (steps depth : Nat) (q : KeyQuestion) : Prop :=
  if depth ≤ maxDepth then m.size + 3 + (maxDepth + 1 - depth) ≤ steps
  else
    match q with
    | .entity _ => True
    | .association a =>
        ∃ passed : List Definition, passed.Nodup ∧ passed ⊆ m.nodes ∧
          (∀ b ∈ passed, ReflTransGen m.StatesKey b a) ∧ m.size + 2 ≤ steps + passed.length

theorem EnoughSteps.association {steps depth : Nat} {q : KeyQuestion} {a : Definition}
    (h : m.EnoughSteps (steps + 1) depth q) (hdepth : depth ≤ maxDepth) :
    m.EnoughSteps steps (depth + 1) (.association a) := by
  simp only [EnoughSteps] at h ⊢
  rw [if_pos hdepth] at h
  split
  · omega
  · refine ⟨[], List.nodup_nil, List.nil_subset _, by simp, ?_⟩
    simp only [List.length_nil]
    omega

theorem EnoughSteps.entity {steps depth : Nat} {q : KeyQuestion} {e : String}
    (h : m.EnoughSteps (steps + 1) depth q) : m.EnoughSteps steps (depth + 1) (.entity e) := by
  simp only [EnoughSteps] at h ⊢
  split
  · next hdepth =>
    rw [if_pos (by omega)] at h
    omega
  · trivial

/-- Following a stated key passes a node that was not passed before. -/
theorem EnoughSteps.stated {steps depth : Nat} {a b : Definition}
    (hloop : ∀ a, ¬ TransGen m.StatesKey a a) (hb : m.StatesKey a b)
    (h : m.EnoughSteps (steps + 1) depth (.association a)) :
    m.EnoughSteps steps (depth + 1) (.association b) := by
  by_cases hdepth : depth ≤ maxDepth
  · exact h.association hdepth
  · rw [EnoughSteps, if_neg hdepth] at h
    obtain ⟨passed, hnodup, hnodes, hpath, hsteps⟩ := h
    rw [EnoughSteps, if_neg (by omega)]
    refine ⟨b :: passed, List.nodup_cons.mpr ⟨?_, hnodup⟩,
      List.cons_subset.mpr ⟨mem_nodes_of_statesKey hb, hnodes⟩, ?_, ?_⟩
    · intro hmem
      exact hloop b (.tail' (hpath b hmem) hb)
    · intro c hc
      rcases List.mem_cons.mp hc with rfl | hc
      · exact .refl
      · exact (hpath c hc).tail hb
    · simp only [List.length_cons]
      omega

theorem EnoughSteps.pos {steps depth : Nat} {a : Definition}
    (h : m.EnoughSteps steps depth (.association a)) : 0 < steps := by
  simp only [EnoughSteps] at h
  split at h
  · omega
  · obtain ⟨passed, hnodup, hnodes, _, hsteps⟩ := h
    have hlength := (hnodup.subperm hnodes).length_le
    rw [m.length_nodes] at hlength
    omega

/-- With enough steps only the bound on the depth is felt, at an entity that the
question leads to. -/
theorem refused_eq (hloop : ∀ a, ¬ TransGen m.StatesKey a a) {steps depth : Nat}
    {q : KeyQuestion} {err : CompileError} (h : m.Refused steps q depth err)
    (hsteps : m.EnoughSteps steps depth q) :
    ∃ e, m.LeadsTo q e ∧ err = .recursionLimit e maxDepth := by
  induction h with
  | @steps e depth => exact ⟨e, ⟨e, rfl, .refl⟩, rfl⟩
  | stepsAssociation => exact absurd hsteps.pos (Nat.lt_irrefl 0)
  | @depth steps e depth _ => exact ⟨e, ⟨e, rfl, .refl⟩, rfl⟩
  | @key steps e depth d a err hdepth hd ha _ ih =>
    obtain ⟨f, ⟨g, hg, hgf⟩, rfl⟩ := ih (hsteps.association hdepth)
    exact ⟨f, ⟨e, rfl, .head ⟨d, a, hd, ha, hg⟩ hgf⟩, rfl⟩
  | @target steps a e depth err ht hk _ ih =>
    obtain ⟨f, ⟨g, rfl, hgf⟩, rfl⟩ := ih hsteps.entity
    exact ⟨f, ⟨g, (asks_of_target ht hk).mpr rfl, hgf⟩, rfl⟩
  | @stated steps a b depth err hb _ ih =>
    obtain ⟨f, ⟨g, hg, hgf⟩, rfl⟩ := ih (hsteps.stated hloop hb)
    exact ⟨f, ⟨g, .stated hb hg, hgf⟩, rfl⟩

theorem enoughSteps_keySteps (m : Model) (q : KeyQuestion) : m.EnoughSteps m.keySteps 0 q := by
  simp only [EnoughSteps, keySteps]
  rw [if_pos (Nat.zero_le _)]
  simp only [maxDepth]
  omega

end Model

end SchemaTypes
