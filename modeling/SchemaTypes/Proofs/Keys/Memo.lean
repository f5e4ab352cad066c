import SchemaTypes.Proofs.Keys.Bounds
import SchemaTypes.Proofs.Keys.History

/-!
# What the memo changes

The memo makes a query succeed that would otherwise be stopped by the bound on
the depth, and it changes nothing else (`Model.keysOf_after`).  The reason is
that two valid states, one of which knows more, answer a question alike unless
the one that knows less is stopped by a bound (`KeyRegion.agree`).

Two models show that more cannot be said.  In `chain` a query is stopped by the
depth unless its middle is known.  In `ring` two entities ask for each other,
and what is remembered of the second one is cut short by the first.
-/

namespace SchemaTypes

open Relation

namespace KeyRegion

variable {m : Model} {r : KeyRegion m}

/-- Two outcomes of a query, in a state and in one that knows more, agree
unless the first is a refusal. -/
inductive Alike (refused : CompileError → Prop) :
    Except CompileError KeyElements × KeyState → Except CompileError KeyElements × KeyState → Prop
  | refused {err : CompileError} {t : KeyState}
      {out : Except CompileError KeyElements × KeyState} :
      refused err → Alike refused (.error err, t) out
  | error {err : CompileError} {t t' : KeyState} : Alike refused (.error err, t) (.error err, t')
  | ok {keys : KeyElements} {t t' : KeyState} :
      (∀ e, t.Knows e → t'.Knows e) → Alike refused (.ok keys, t) (.ok keys, t')

/-- A query answers alike in a state and in one that knows more. -/
def Agrees (r : KeyRegion m) (entities : List String) (refused : CompileError → Prop)
    (q : KeyQuery KeyElements) : Prop :=
  ∀ s s', r.Valid s → r.Valid s' → s.inProgress = entities → s'.inProgress = entities →
    (∀ e, s.Knows e → s'.Knows e) → Alike refused (q s) (q s')

theorem Alike.imp {refused refused' : CompileError → Prop}
    {out out' : Except CompileError KeyElements × KeyState} (h : Alike refused out out')
    (hr : ∀ e, refused e → refused' e) : Alike refused' out out' := by
  cases h with
  | refused herr => exact .refused (hr _ herr)
  | error => exact .error
  | ok hknows => exact .ok hknows

/-- What a known entity leads to is known. -/
theorem Valid.knows_of_path {s : KeyState} (hs : r.Valid s) {e f : String} (he : r.inside e)
    (hknown : s.Knows e) (hpath : ReflTransGen m.KeysDependOn e f) :
    r.inside f ∧ (s.Knows f ∨ m.find? f = none) := by
  induction hpath with
  | refl => exact ⟨he, Or.inl hknown⟩
  | tail _ hdep ih =>
    obtain ⟨hin, hf | hnone⟩ := ih
    · exact ⟨r.closed hin hdep, hs.settled hin hf hdep⟩
    · obtain ⟨d, _, hd, _⟩ := hdep
      rw [hnone] at hd
      cases hd

namespace Agrees

variable {entities : List String} {refused : CompileError → Prop} {q : KeyQuery KeyElements}

theorem imp {refused' : CompileError → Prop} (h : r.Agrees entities refused q)
    (hr : ∀ e, refused e → refused' e) : r.Agrees entities refused' q :=
  fun s s' hs hs' hp hp' hmore => (h s s' hs hs' hp hp' hmore).imp hr

theorem answer (keys : KeyElements) : r.Agrees entities refused (KeyQuery.answer keys) :=
  fun _ _ _ _ _ _ hmore => .ok hmore

theorem refuse (e : CompileError) : r.Agrees entities refused (KeyQuery.refuse e) :=
  fun _ _ _ _ _ _ _ => .error

theorem map (h : r.Agrees entities refused q) (form : KeyElements → KeyElements) :
    r.Agrees entities refused (q.andThen fun keys => KeyQuery.answer (form keys)) := by
  intro s s' hs hs' hp hp' hmore
  have ha := h s s' hs hs' hp hp' hmore
  simp only [KeyQuery.andThen]
  generalize q s = out, q s' = out' at ha ⊢
  cases ha with
  | refused herr => exact .refused herr
  | error => exact .error
  | ok hknows => exact .ok hknows

theorem andThen {wanted : String → Prop} {closure : KeyElements → Prop}
    {next : KeyElements → KeyQuery KeyElements}
    (hsound : r.Sound entities wanted closure refused q) (h : r.Agrees entities refused q)
    (hnext : ∀ more, r.Agrees entities refused (next more)) :
    r.Agrees entities refused (q.andThen next) := by
  intro s s' hs hs' hp hp' hmore
  have hq := hsound s hs hp
  have hq' := hsound s' hs' hp'
  have ha := h s s' hs hs' hp hp' hmore
  simp only [KeyQuery.andThen]
  generalize q s = out, q s' = out' at ha hq hq' ⊢
  cases ha with
  | refused herr => exact .refused herr
  | error => exact .error
  | ok hknows =>
    exact hnext _ _ _ hq.valid hq'.valid (hq.inProgress.trans hp) (hq'.inProgress.trans hp') hknows

theorem collect {α : Type} (wants : α → String → Prop) (contributes : α → KeyElements → Prop)
    {ask : α → KeyQuery KeyElements} :
    ∀ {xs : List α} {found : KeyElements},
      (∀ x ∈ xs, r.Sound entities (wants x) (contributes x) refused (ask x)) →
      (∀ x ∈ xs, r.Agrees entities refused (ask x)) →
      r.Agrees entities refused (KeyQuery.collect ask xs found)
  | [], found, _, _ => answer found
  | x :: xs, found, hsound, h => by
    refine .andThen (hsound x List.mem_cons_self) (h x List.mem_cons_self) fun more => ?_
    exact collect wants contributes (fun y hy => hsound y (List.mem_cons_of_mem _ hy))
      fun y hy => h y (List.mem_cons_of_mem _ hy)

theorem finish {e : String} {s s' : KeyState} {collected : KeyQuery KeyElements}
    (hs : r.Valid s) (hs' : r.Valid s') (hp : s'.inProgress = s.inProgress)
    (hunknown : ¬ s.Knows e) (hunknown' : ¬ s'.Knows e) (hmore : ∀ e, s.Knows e → s'.Knows e)
    (h : r.Agrees (e :: s.inProgress) refused collected) :
    Alike refused (KeyQuery.remembering e (KeyQuery.within e collected) s)
      (KeyQuery.remembering e (KeyQuery.within e collected) s') := by
  have ha := h (s.enter e) (s'.enter e) (hs.enter hunknown) (hs'.enter hunknown') rfl
    (congrArg (e :: ·) hp) hmore
  simp only [KeyQuery.remembering, KeyQuery.within, KeyQuery.andThen]
  generalize collected (s.enter e) = out, collected (s'.enter e) = out' at ha ⊢
  cases ha with
  | refused herr => exact .refused herr
  | error => exact .error
  | ok hknows =>
    refine .ok fun f hf => ?_
    rcases knows_remember.mp hf with rfl | hf
    · exact knows_remember.mpr (Or.inl rfl)
    · exact knows_remember.mpr (Or.inr (hknows f hf))

section Elements

variable {foreign : Definition → KeyQuery KeyElements}

theorem expandBy {form : KeyElements → KeyElements} {plain : Definition → KeyElements}
    {element : Definition}
    (h : ∀ a, m.EndsIn element a → r.Agrees entities refused (foreign a)) :
    r.Agrees entities refused (m.expandBy foreign form plain element) := by
  simp only [Model.expandBy]
  cases hc : m.chase element with
  | error err => exact refuse err
  | ok a =>
    by_cases hm : a.isManagedToOne = true
    · simp only [hm, if_true]
      exact (h a ⟨hc, hm⟩).map form
    · simp only [hm, if_false, Bool.false_eq_true]
      exact answer _

theorem expandStated {d : Definition} {stated : ForeignKey}
    (h : ∀ element a, m.statedElement? d stated = some element → m.EndsIn element a →
      r.Agrees entities refused (foreign a)) :
    r.Agrees entities refused (m.expandStated foreign (m.allElements d) stated) := by
  rw [Model.expandStated_eq]
  cases he : m.statedElement? d stated with
  | none => exact answer []
  | some element => exact expandBy fun a => h element a he

theorem collectKeys {d : Definition} (foreignClosure : Definition → KeyElements → Prop)
    (hsound : ∀ a, m.KeyAssociation d a →
      r.Sound entities (m.Asks a) (foreignClosure a) refused (foreign a))
    (h : ∀ a, m.KeyAssociation d a → r.Agrees entities refused (foreign a)) :
    r.Agrees entities refused (m.collectKeys foreign d) := by
  refine collect (fun entry f => ∃ a, m.EndsIn entry.2 a ∧ m.Asks a f)
    (m.Contributes foreignClosure) (fun entry hentry => ?_) fun entry hentry => ?_
  · rw [Model.expand_eq]
    exact Sound.expandBy fun a ha => hsound a ⟨entry, hentry, ha⟩
  · rw [Model.expand_eq]
    exact expandBy fun a ha => h a ⟨entry, hentry, ha⟩

theorem collectStated {d : Definition} {stated : List ForeignKey}
    (foreignClosure : Definition → KeyElements → Prop)
    (hsound : ∀ a, m.StatedAssociation d stated a →
      r.Sound entities (m.Asks a) (foreignClosure a) refused (foreign a))
    (h : ∀ a, m.StatedAssociation d stated a → r.Agrees entities refused (foreign a)) :
    r.Agrees entities refused (m.collectStated foreign d stated) := by
  refine collect (fun k f => ∃ a,
      (∃ element, m.statedElement? d k = some element ∧ m.EndsIn element a) ∧ m.Asks a f)
    (m.ContributesStated foreignClosure d) (fun k hk => ?_) fun k hk => ?_
  · exact Sound.expandStated fun element a he ha => hsound a ⟨k, hk, element, he, ha⟩
  · exact expandStated fun element a he ha => h a ⟨k, hk, element, he, ha⟩

end Elements

end Agrees

/-- An entity that is known in the second state only: its keys are those that
the first state collects. -/
theorem Alike.of_known {e : String} {owner : Option String} {refused : CompileError → Prop}
    {s s' : KeyState} {keys : KeyElements}
    {out : Except CompileError KeyElements × KeyState} (hs' : r.Valid s')
    (he : r.inside e) (hmore : ∀ f, s.Knows f → s'.Knows f)
    (hmemo : s'.memo.get? e = some keys)
    (hclosure : m.KeyClosure r.leftOut owner (.entity e) keys)
    (ha : r.Answered (fun f => f = e) (m.KeyClosure r.leftOut owner (.entity e)) refused s out) :
    Alike refused out (.ok keys, s') := by
  have hin : ∀ f, f = e → r.inside f := by
    rintro f rfl
    exact he
  rcases out with ⟨answer, t⟩
  cases answer with
  | error err =>
    rcases ha.error hin rfl with href | hnone
    · exact .refused href
    · exact absurd hclosure (hnone keys)
  | ok keys' =>
    obtain ⟨hclosure', _⟩ := ha.ok hin rfl
    obtain rfl := hclosure'.unique hclosure
    refine .ok fun f hf => ?_
    rcases ha.added hf with hf' | ⟨g, rfl, hpath⟩
    · exact hmore f hf'
    · exact (hs'.knows_of_path he ⟨_, hmemo⟩ hpath).2.resolve_right (ha.valid.defined hf)

/-- Queries about a region answer alike in a state and in one that knows
more. -/
theorem agree (r : KeyRegion m) :
    ∀ (steps depth : Nat) (q : KeyQuestion) {owner : Option String} {entities : List String},
      m.Pending owner entities → m.OnBehalf owner q → (∀ f, m.Wants q f → r.inside f) →
      r.Agrees entities (m.Refused steps q depth) (m.ask steps depth q)
  | 0, depth, .entity e, owner, entities, hp, hq, hin => Agrees.refuse _
  | 0, depth, .association a, owner, entities, hp, hq, hin => Agrees.refuse _
  | steps + 1, depth, .entity e, owner, entities, hp, hq, hin => by
    intro s s' hs hs' hprogress hprogress' hmore
    subst hprogress
    have he : r.inside e := hin e rfl
    have hunknown : s'.memo.get? e = none → s.memo.get? e = none := by
      intro hmemo'
      cases hknown : s.memo.get? e with
      | none => rfl
      | some keys => exact absurd (hmore e ⟨keys, hknown⟩) (not_knows hmemo')
    have hanswer' := m.ask_entity steps depth e s'
    generalize m.ask (steps + 1) depth (.entity e) s' = out' at hanswer' ⊢
    cases hanswer' with
    | known hmemo' =>
      have hout : ¬ r.leftOut owner e := fun h =>
        hs'.idle ⟨_, hmemo'⟩ (hprogress' ▸ (leftOut_iff_mem hp hq he).mp h)
      have ha := r.sound (steps + 1) depth (.entity e) hp hq s hs rfl
      exact .of_known hs' he hmore hmemo' ((hs'.closure he hmemo').of_none r.leftOut_none hout) ha
    | deep hmemo' hdepth =>
      rw [Model.ask_deep (hunknown hmemo') hdepth]
      exact .refused (.depth hdepth)
    | undefined hmemo' hdepth hd =>
      rw [Model.ask_undefined (hunknown hmemo') hdepth hd]
      exact .ok hmore
    | pending hmemo' hdepth hd hmem' =>
      rw [Model.ask_pending (hunknown hmemo') hdepth hd (hprogress' ▸ hmem')]
      exact .ok hmore
    | @collect d hmemo' hdepth hd hmem' =>
      rw [Model.ask_collect (hunknown hmemo') hdepth hd (hprogress' ▸ hmem')]
      refine Agrees.finish hs hs' hprogress' (not_knows (hunknown hmemo')) (not_knows hmemo') hmore
        (.collectKeys (fun a => m.KeyClosure r.leftOut (some e) (.association a)) ?_ ?_)
      · intro a ha
        exact (r.sound steps (depth + 1) (.association a) (hp.enter hq) (.key hd ha)).imp
          (fun _ => .rfl) (fun _ => .rfl) (fun err => .key (Nat.le_of_not_lt hdepth) hd ha)
      · intro a ha
        refine (agree r steps (depth + 1) (.association a) (hp.enter hq) (.key hd ha) ?_).imp
          fun err => .key (Nat.le_of_not_lt hdepth) hd ha
        exact fun f hf => r.closed he ⟨d, a, hd, ha, hf⟩
  | steps + 1, depth, .association a, owner, entities, hp, hq, hin => by
    have hquery := m.ask_association steps depth a
    generalize m.ask (steps + 1) depth (.association a) = query at hquery ⊢
    cases hquery with
    | untargeted | unstated => exact Agrees.answer []
    | @target target ht hk =>
      refine (agree r steps (depth + 1) (.entity target) hp (hq.target ht hk) ?_).imp
        fun err => .target ht hk
      exact fun f hf => hin f ((Model.asks_of_target ht hk).mpr hf)
    | @stated target d stated ht hk hd =>
      have hstates : ∀ b, m.StatedAssociation d stated b → m.StatesKey a b :=
        fun b => (Model.statesKey_iff ht hk hd).mpr
      refine .collectStated (fun b => m.KeyClosure r.leftOut owner (.association b)) ?_ ?_
      · intro b hb
        exact (r.sound steps (depth + 1) (.association b) hp (hq.stated (hstates b hb))).imp
          (fun _ => .rfl) (fun _ => .rfl) (fun err => .stated (hstates b hb))
      · intro b hb
        refine (agree r steps (depth + 1) (.association b) hp (hq.stated (hstates b hb)) ?_).imp
          fun err => .stated (hstates b hb)
        exact fun f hf => hin f (.stated (hstates b hb) hf)

/-- What an entity leads to, as a region where an entity is left out on its own
behalf: no two different entities of it lead to each other. -/
def below (m : Model) (e : String)
    (hapart : ∀ x y, ReflTransGen m.KeysDependOn e x → TransGen m.KeysDependOn x y →
      TransGen m.KeysDependOn y x → x = y) : KeyRegion m where
  inside := ReflTransGen m.KeysDependOn e
  leftOut := Model.itself
  closed hin hdep := hin.tail hdep
  leftOut_none h := nomatch h
  leftOut_self h := (Option.some.inj h).symm
  leftOut_back := by
    intro o f hin hdep hback
    rcases reflTransGen_iff_eq_or_transGen.mp hback with rfl | hback
    · rfl
    · exact congrArg some (hapart f o hin hback (.single hdep)).symm

end KeyRegion

namespace Model

/-- The memo only helps against the bound on the depth.  An answer that is not
such a refusal is the answer after any requests.  Every list of keys that is
answered is the closure, and where there is one, the query answers it or is
refused for its depth. -/
theorem keysOf_after {m : Model} {e : String} (hloop : ∀ a, ¬ TransGen m.StatesKey a a)
    (hapart : ∀ x y, ReflTransGen m.KeysDependOn e x → TransGen m.KeysDependOn x y →
      TransGen m.KeysDependOn y x → x = y) (history : List KeyRequest) :
    ((∀ x, ReflTransGen m.KeysDependOn e x →
        (m.keysOf e {}).1 ≠ .error (.recursionLimit x maxDepth)) →
      (m.keysOf e (m.keyState history)).1 = (m.keysOf e {}).1) ∧
    (∀ keys, (m.keysOf e (m.keyState history)).1 = .ok keys →
      ∀ keys', m.KeyClosure itself none (.entity e) keys' ↔ keys' = keys) ∧
    (∀ keys, m.KeyClosure itself none (.entity e) keys →
      (m.keysOf e (m.keyState history)).1 = .ok keys ∨
        ∃ x, ReflTransGen m.KeysDependOn e x ∧
          (m.keysOf e (m.keyState history)).1 = .error (.recursionLimit x maxDepth)) := by
  let r := KeyRegion.below m e hapart
  obtain ⟨hs, hidle⟩ := r.valid_keyState history
  have hin : ∀ f, m.Wants (.entity e) f → r.inside f := by
    rintro f rfl
    exact .refl
  have hpending : m.Pending none [] := rfl
  have hbehalf : m.OnBehalf none (.entity e) := fun o ho => nomatch ho
  have hlimit : ∀ {err}, m.Refused m.keySteps (.entity e) 0 err →
      ∃ x, ReflTransGen m.KeysDependOn e x ∧ err = .recursionLimit x maxDepth := by
    intro err herr
    obtain ⟨x, ⟨f, rfl, hpath⟩, hx⟩ := refused_eq hloop herr (m.enoughSteps_keySteps (.entity e))
    exact ⟨x, hpath, hx⟩
  have ha := r.answered hs hidle (.keysOf e)
  have hagree := r.agree m.keySteps 0 (.entity e) hpending hbehalf hin {} (m.keyState history)
    r.valid_empty hs rfl hidle (fun f hf => by obtain ⟨_, h⟩ := hf; cases h)
  refine ⟨?_, ?_, ?_⟩
  · intro hfresh
    change KeyRegion.Alike _ (m.keysOf e {}) (m.keysOf e (m.keyState history)) at hagree
    generalize m.keysOf e {} = out, m.keysOf e (m.keyState history) = out' at hagree hfresh ⊢
    cases hagree with
    | refused herr =>
      obtain ⟨x, hpath, rfl⟩ := hlimit herr
      exact absurd rfl (hfresh x hpath)
    | error => rfl
    | ok => rfl
  · intro keys hkeys keys'
    obtain ⟨hclosure, _⟩ := ha.ok hin hkeys
    constructor
    · exact fun hkeys' => hkeys'.unique hclosure
    · rintro rfl
      exact hclosure
  · intro keys hclosure
    cases hanswer : (m.keysOf e (m.keyState history)).1 with
    | ok keys' =>
      obtain ⟨hclosure', _⟩ := ha.ok hin hanswer
      exact Or.inl (congrArg _ (hclosure'.unique hclosure))
    | error err =>
      right
      rcases ha.error hin hanswer with herr | hnone
      · obtain ⟨x, hpath, rfl⟩ := hlimit herr
        exact ⟨x, hpath, rfl⟩
      · exact absurd hclosure (hnone keys)

/-- A chain of entities, each of which has the next one for its key. -/
def chain : Model where
  definitions := [
    ("E0", keyed [("next", keyTo "E1")]),
    ("E1", keyed [("next", keyTo "E2")]),
    ("E2", keyed [("next", keyTo "E3")]),
    ("E3", keyed [("next", keyTo "E4")]),
    ("E4", keyed [("next", keyTo "E5")]),
    ("E5", keyed [("next", keyTo "E6")]),
    ("E6", keyed [("ID", plainKey)])]

theorem chain_acyclic : ∀ e, ¬ TransGen chain.KeysDependOn e e :=
  not_transGen_keysDependOn (fun e => (Table.names chain.definitions).reverse.idxOf e)
    (by decide) (by decide)

/-- The end of the chain is too deep for a query about its start, unless it is
known. -/
theorem keysOf_chain :
    (chain.keysOf "E0" {}).1 = .error (.recursionLimit "E6" maxDepth) ∧
      (chain.keysOf "E0" (chain.keyState [.keysOf "E6"])).1 =
        .ok [("next_next_next_next_next_next_ID", plainKey)] ∧
      (∀ keys, chain.KeyClosure itself none (.entity "E0") keys ↔
        keys = [("next_next_next_next_next_next_ID", plainKey)]) ∧
      (chain.keysOf "E1" (chain.keyState [.keysOf "E0", .keysOf "E6"])).1 =
        .ok [("next_next_next_next_next_ID", plainKey)] := by
  have hloop := not_transGen_statesKey (m := chain) (by decide)
  have hapart : ∀ {e : String} x y, ReflTransGen chain.KeysDependOn e x →
      TransGen chain.KeysDependOn x y → TransGen chain.KeysDependOn y x → x = y :=
    fun x y _ hxy hyx => absurd (hxy.trans hyx) (chain_acyclic x)
  refine ⟨rfl, rfl, ?_, ?_⟩
  · exact (keysOf_after hloop hapart [.keysOf "E6"]).2.1 _ rfl
  · refine ((keysOf_after hloop hapart [.keysOf "E0", .keysOf "E6"]).1 ?_).trans rfl
    intro x _ h
    cases h

/-- Two entities, each of which has the other one in its key. -/
def ring : Model where
  definitions := [
    ("A", keyed [("b", keyTo "B"), ("ID", plainKey)]),
    ("B", keyed [("a", keyTo "A"), ("ID", plainKey)])]

/-- What is remembered changes answers: at the end of the chain it helps against
the bound on the depth, and in the ring the keys of the second entity are cut
short by the first. -/
theorem memo_changes_answers :
    ((∀ a, ¬ TransGen chain.StatesKey a a) ∧
      (chain.keysOf "E0" {}).1 = .error (.recursionLimit "E6" maxDepth) ∧
      (chain.keysOf "E0" (chain.keyState [.keysOf "E6"])).1 =
        .ok [("next_next_next_next_next_next_ID", plainKey)]) ∧
    (∀ a, ¬ TransGen ring.StatesKey a a) ∧
      (ring.keysOf "B" {}).1 = .ok [("a_ID", plainKey), ("ID", plainKey)] ∧
      (ring.keysOf "B" (ring.keyState [.keysOf "A"])).1 = .ok [("ID", plainKey)] :=
  ⟨⟨not_transGen_statesKey (by decide), rfl, rfl⟩, not_transGen_statesKey (by decide), rfl, rfl⟩

end Model

end SchemaTypes
