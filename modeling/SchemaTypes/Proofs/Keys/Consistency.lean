import SchemaTypes.Proofs.Keys.Memo
import Mathlib.Data.List.Induction

/-!
# What a query leaves behind

Queries share a memo and the list of the entities that are being collected.  A
query may end early: on a cycle, at a chain that is too long, or at a type that
cannot be followed.  However it ends, it leaves as many entities in the list as
it found there, and the memo has what it had (`KeyState.Settles`).

An entity that is being collected is not remembered by the queries that are
part of this.  So where the query for an entity fails, nothing is remembered
under its name, and the next query starts over
(`Model.keyState_consistent`).
-/

namespace SchemaTypes

/-- What is the same in a state, and what was added to it. -/
structure KeyState.Settles (s t : KeyState) : Prop where
  /-- The same entities are being collected. -/
  inProgress : t.inProgress = s.inProgress
  /-- What was remembered is remembered as it was. -/
  kept : ∀ {e keys}, s.memo.get? e = some keys → t.memo.get? e = some keys
  /-- What is being collected was not remembered. -/
  pending : ∀ {e}, e ∈ s.inProgress → s.memo.get? e = none → t.memo.get? e = none

namespace KeyState.Settles

variable {s t u : KeyState} {e : String}

theorem refl (s : KeyState) : s.Settles s where
  inProgress := rfl
  kept h := h
  pending _ h := h

theorem trans (h : s.Settles t) (h' : t.Settles u) : s.Settles u where
  inProgress := h'.inProgress.trans h.inProgress
  kept hkeys := h'.kept (h.kept hkeys)
  pending hmem hnone := h'.pending (h.inProgress ▸ hmem) (h.pending hmem hnone)

/-- An entity was collected, with success or without. -/
theorem leave (hout : e ∉ s.inProgress) (h : (s.enter e).Settles t) : s.Settles (t.leave e) where
  inProgress := KeyRegion.leave_enter hout h.inProgress
  kept hkeys := h.kept hkeys
  pending hmem hnone := h.pending (List.mem_cons_of_mem e hmem) hnone

/-- An entity that was not being collected is remembered for the first time. -/
theorem remember (hout : e ∉ s.inProgress) (hunknown : s.memo.get? e = none)
    (h : s.Settles t) (keys : KeyElements) : s.Settles (t.remember e keys) where
  inProgress := h.inProgress
  kept := by
    intro f keys' hkeys'
    have hne : f ≠ e := by
      rintro rfl
      rw [hunknown] at hkeys'
      cases hkeys'
    rw [KeyState.remember, Table.get?_put, if_neg hne.symm]
    exact h.kept hkeys'
  pending := by
    intro f hmem hnone
    have hne : f ≠ e := by
      rintro rfl
      exact hout hmem
    rw [KeyState.remember, Table.get?_put, if_neg hne.symm]
    exact h.pending hmem hnone

end KeyState.Settles

/-- A query leaves a state as it found it, apart from what it remembers. -/
def KeyQuery.Settled (q : KeyQuery KeyElements) : Prop := ∀ s : KeyState, s.Settles (q s).2

namespace KeyQuery

variable {q : KeyQuery KeyElements}

theorem Settled.answer (keys : KeyElements) : Settled (KeyQuery.answer keys) := .refl

theorem Settled.refuse (e : CompileError) : Settled (KeyQuery.refuse e) := .refl

theorem Settled.andThen {next : KeyElements → KeyQuery KeyElements} (h : Settled q)
    (hnext : ∀ keys, Settled (next keys)) : Settled (q.andThen next) := by
  intro s
  have hs := h s
  simp only [KeyQuery.andThen]
  rcases hq : q s with ⟨answer, t⟩
  rw [hq] at hs
  cases answer with
  | error e => exact hs
  | ok keys => exact hs.trans (hnext keys t)

theorem Settled.collect {α : Type} {ask : α → KeyQuery KeyElements}
    (h : ∀ x, Settled (ask x)) :
    ∀ (xs : List α) (found : KeyElements), Settled (KeyQuery.collect ask xs found)
  | [], found => answer found
  | x :: xs, _ => (h x).andThen fun _ => collect h xs _

/-- Collects an entity that is neither known nor being collected. -/
theorem Settled.finish (h : Settled q) {e : String} {s : KeyState}
    (hunknown : s.memo.get? e = none) (hout : e ∉ s.inProgress) :
    s.Settles (KeyQuery.remembering e (KeyQuery.within e q) s).2 := by
  have hleave := (h (s.enter e)).leave hout
  simp only [KeyQuery.remembering, KeyQuery.within, KeyQuery.andThen]
  rcases hq : q (s.enter e) with ⟨answer, t⟩
  rw [hq] at hleave
  cases answer with
  | error err => exact hleave
  | ok keys => exact hleave.remember hout hunknown keys

/-- An entity whose keys could not be collected is not remembered: while it is
being collected no part of the query remembers it, and afterwards there is
nothing to remember. -/
theorem Settled.get?_eq_none_of_error (h : Settled q) {e : String} {s : KeyState}
    {err : CompileError} (hunknown : s.memo.get? e = none)
    (herr : (KeyQuery.remembering e (KeyQuery.within e q) s).1 = .error err) :
    (KeyQuery.remembering e (KeyQuery.within e q) s).2.memo.get? e = none := by
  have hs := h (s.enter e)
  simp only [KeyQuery.remembering, KeyQuery.within, KeyQuery.andThen] at herr ⊢
  rcases hq : q (s.enter e) with ⟨answer, t⟩
  rw [hq] at hs herr
  cases answer with
  | error err' => exact hs.pending List.mem_cons_self hunknown
  | ok keys => cases herr

end KeyQuery

namespace Model

open KeyQuery

variable {m : Model} {foreign : Definition → KeyQuery KeyElements}

theorem expandBy_settled {form : KeyElements → KeyElements} {plain : Definition → KeyElements}
    {element : Definition} (hforeign : ∀ a, Settled (foreign a)) :
    Settled (m.expandBy foreign form plain element) := by
  simp only [expandBy]
  split
  · exact .refuse _
  · next a _ =>
    split
    · exact (hforeign a).andThen fun keys => .answer (form keys)
    · exact .answer (plain a)

theorem collectKeys_settled (d : Definition) (hforeign : ∀ a, Settled (foreign a)) :
    Settled (m.collectKeys foreign d) := by
  refine .collect (fun entry => ?_) _ []
  rw [expand_eq]
  exact expandBy_settled hforeign

theorem collectStated_settled (d : Definition) (stated : List ForeignKey)
    (hforeign : ∀ a, Settled (foreign a)) : Settled (m.collectStated foreign d stated) := by
  refine .collect (fun k => ?_) stated []
  rw [expandStated_eq]
  split
  · exact .answer []
  · exact expandBy_settled hforeign

/-- Every question leaves the state settled, at whatever depth it is asked. -/
theorem ask_settled (m : Model) :
    ∀ (steps depth : Nat) (question : KeyQuestion), Settled (m.ask steps depth question)
  | 0, _, .entity _ => .refuse _
  | 0, _, .association _ => .refuse _
  | steps + 1, depth, .entity e => by
    intro s
    have hanswer := m.ask_entity steps depth e s
    generalize m.ask (steps + 1) depth (.entity e) s = result at hanswer ⊢
    cases hanswer with
    | known | deep | undefined | pending => exact .refl s
    | collect hmemo _ _ hmem =>
      exact (collectKeys_settled _
        fun a => ask_settled m steps _ (.association a)).finish hmemo hmem
  | steps + 1, depth, .association a => by
    have hquery := m.ask_association steps depth a
    generalize m.ask (steps + 1) depth (.association a) = query at hquery ⊢
    cases hquery with
    | untargeted | unstated => exact .answer []
    | target => exact ask_settled m steps _ (.entity _)
    | stated =>
      exact collectStated_settled _ _ fun b => ask_settled m steps _ (.association b)

/-- Where the keys of an entity are not answered, it was not remembered before,
and it is not remembered now. -/
theorem ask_entity_error {steps depth : Nat} {e : String} {s : KeyState} {err : CompileError}
    (h : (m.ask (steps + 1) depth (.entity e) s).1 = .error err) :
    s.memo.get? e = none ∧ (m.ask (steps + 1) depth (.entity e) s).2.memo.get? e = none := by
  have hanswer := m.ask_entity steps depth e s
  generalize m.ask (steps + 1) depth (.entity e) s = result at hanswer h ⊢
  cases hanswer with
  | known | undefined | pending => cases h
  | deep hmemo _ => exact ⟨hmemo, hmemo⟩
  | collect hmemo _ _ _ =>
    exact ⟨hmemo, (collectKeys_settled _
      fun a => ask_settled m steps _ (.association a)).get?_eq_none_of_error hmemo h⟩

/-- The state after one more request. -/
theorem keyState_concat (m : Model) (history : List KeyRequest) (request : KeyRequest) :
    m.keyState (history ++ [request]) = (request.query m (m.keyState history)).2 := by
  simp only [keyState, List.foldl_append, List.foldl_cons, List.foldl_nil]

theorem keyState_inProgress (m : Model) (history : List KeyRequest) :
    (m.keyState history).inProgress = [] := by
  induction history using List.reverseRecOn with
  | nil => rfl
  | append_singleton history request ih =>
    rw [keyState_concat, request.query_eq_ask]
    exact (m.ask_settled _ _ _ _).inProgress.trans ih

/-- Queries leave a consistent state behind.  Between requests nothing is being
collected.  Every question, at whatever depth it is asked and in whatever state,
ends with the entities it found being collected, and with all that was
remembered.  An entity whose keys a question does not answer is remembered
neither before nor after it. -/
theorem keyState_consistent (m : Model) :
    (∀ history, (m.keyState history).inProgress = []) ∧
      (∀ history request e keys, (m.keyState history).memo.get? e = some keys →
        (m.keyState (history ++ [request])).memo.get? e = some keys) ∧
      (∀ history e err, (m.keysOf e (m.keyState history)).1 = .error err →
        (m.keyState history).memo.get? e = none ∧
          (m.keyState (history ++ [.keysOf e])).memo.get? e = none) ∧
      ∀ steps depth question s,
        (m.ask steps depth question s).2.inProgress = s.inProgress ∧
          (∀ e keys, s.memo.get? e = some keys →
            (m.ask steps depth question s).2.memo.get? e = some keys) ∧
          ∀ e err, question = .entity e → (m.ask steps depth question s).1 = .error err →
            (m.ask steps depth question s).2.memo.get? e = s.memo.get? e := by
  refine ⟨m.keyState_inProgress, ?_, ?_, fun steps depth question s => ⟨?_, ?_, ?_⟩⟩
  · intro history request e keys hkeys
    rw [keyState_concat, request.query_eq_ask]
    exact (m.ask_settled _ _ _ _).kept hkeys
  · intro history e err herr
    rw [keyState_concat]
    exact ask_entity_error herr
  · exact (m.ask_settled steps depth question s).inProgress
  · intro e keys hkeys
    exact (m.ask_settled steps depth question s).kept hkeys
  · rintro e err rfl herr
    cases steps with
    | zero => rfl
    | succ steps =>
      obtain ⟨hbefore, hafter⟩ := ask_entity_error herr
      exact hafter.trans hbefore.symm

/-- The query for the start of the chain ends too deep in it, with all of the
chain being collected. -/
theorem keyState_consistent_chain :
    (chain.keysOf "E0" (chain.keyState [])).1 = .error (.recursionLimit "E6" maxDepth) ∧
      (chain.keyState [.keysOf "E0"]).inProgress = [] ∧
      (chain.keyState [.keysOf "E0"]).memo.get? "E0" = none :=
  ⟨rfl, chain.keyState_consistent.1 [.keysOf "E0"],
    (chain.keyState_consistent.2.2.1 [] "E0" _ rfl).2⟩

end Model

end SchemaTypes
