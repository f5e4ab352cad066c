import SchemaTypes.Proofs.Keys.Closure

/-!
# Queries find the closure

A query about keys uses a memo, a list of the entities whose keys are being
collected, and bounds on its steps and its depth.  `KeyRegion.sound` says what
these do to the answers.  A list of keys that a query answers is the closure of
its question, whatever was asked before.  A query that is refused was either
stopped by a bound (`Refused`), or its question has no closure.

This holds for the entities of a region in which an entity that is being
collected is asked for again only where the closure leaves it out too.  So the
statements are about a region, and the memo is right for the entities inside it
(`KeyRegion.Valid`).  What was asked about other entities does not matter.

Queries are built from `answer`, `refuse`, `andThen`, `collect`, `within` and
`remembering`, and each of these has one lemma.  What a question does is said once,
for an entity (`EntityAnswer`) and for an association (`AssociationQuery`).
-/

namespace SchemaTypes

open Relation

/-- The keys of an entity were finished. -/
def KeyState.Knows (s : KeyState) (e : String) : Prop := ∃ keys, s.memo.get? e = some keys

/-- A part of a model where what a closure leaves out are exactly the entities
that are being collected. -/
structure KeyRegion (m : Model) where
  /-- The entities of the region. -/
  inside : String → Prop
  /-- What the closures leave out. -/
  leftOut : Option String → String → Prop
  closed : ∀ {e f}, inside e → m.KeysDependOn e f → inside f
  leftOut_none : ∀ {e}, ¬ leftOut none e
  leftOut_self : ∀ {o e}, leftOut (some o) e → e = o
  leftOut_back : ∀ {o e}, inside e → m.KeysDependOn o e → ReflTransGen m.KeysDependOn e o →
    leftOut (some o) e

namespace Model

/-- The entities whose keys are being collected when a question is asked on
behalf of one of them: each of them leads to it. -/
def Pending (m : Model) : Option String → List String → Prop
  | none, entities => entities = []
  | some o, entities => o ∈ entities ∧ ∀ x ∈ entities, ReflTransGen m.KeysDependOn x o

/-- An entity depends on all that a question asks for. -/
def OnBehalf (m : Model) (owner : Option String) (q : KeyQuestion) : Prop :=
  ∀ o, owner = some o → ∀ f, m.Wants q f → m.KeysDependOn o f

theorem OnBehalf.key {m : Model} {e : String} {d a : Definition} (hd : m.find? e = some d)
    (ha : m.KeyAssociation d a) : m.OnBehalf (some e) (.association a) := by
  rintro o ho f hf
  cases ho
  exact ⟨d, a, hd, ha, hf⟩

theorem OnBehalf.target {m : Model} {owner : Option String} {a : Definition} {e : String}
    (h : m.OnBehalf owner (.association a)) (ht : a.target = some e) (hk : a.keys = none) :
    m.OnBehalf owner (.entity e) :=
  fun o ho f hf => h o ho f ((asks_of_target ht hk).mpr hf)

theorem OnBehalf.stated {m : Model} {owner : Option String} {a b : Definition}
    (h : m.OnBehalf owner (.association a)) (hb : m.StatesKey a b) :
    m.OnBehalf owner (.association b) :=
  fun o ho f hf => h o ho f (.stated hb hf)

/-- The refusals that the bounds on steps and depth bring about. -/
inductive Refused (m : Model) : Nat → KeyQuestion → Nat → CompileError → Prop
  | steps {e : String} {depth : Nat} :
      Refused m 0 (.entity e) depth (.recursionLimit e maxDepth)
  | stepsAssociation {a : Definition} {depth : Nat} :
      Refused m 0 (.association a) depth (.recursionLimit (a.target.getD "") maxDepth)
  | depth {steps : Nat} {e : String} {depth : Nat} : maxDepth < depth →
      Refused m (steps + 1) (.entity e) depth (.recursionLimit e maxDepth)
  | key {steps : Nat} {e : String} {depth : Nat} {d a : Definition} {err : CompileError} :
      depth ≤ maxDepth → m.find? e = some d → m.KeyAssociation d a →
      Refused m steps (.association a) (depth + 1) err →
      Refused m (steps + 1) (.entity e) depth err
  | target {steps : Nat} {a : Definition} {e : String} {depth : Nat} {err : CompileError} :
      a.target = some e → a.keys = none → Refused m steps (.entity e) (depth + 1) err →
      Refused m (steps + 1) (.association a) depth err
  | stated {steps : Nat} {a b : Definition} {depth : Nat} {err : CompileError} :
      m.StatesKey a b → Refused m steps (.association b) (depth + 1) err →
      Refused m (steps + 1) (.association a) depth err

theorem Pending.enter {m : Model} {owner : Option String} {entities : List String} {e : String}
    (h : m.Pending owner entities) (hq : m.OnBehalf owner (.entity e)) :
    m.Pending (some e) (e :: entities) := by
  refine ⟨List.mem_cons_self, ?_⟩
  intro x hx
  rcases List.mem_cons.mp hx with rfl | hx
  · exact .refl
  · cases owner with
    | none =>
      have hnil : entities = [] := h
      rw [hnil] at hx
      cases hx
    | some o => exact (h.2 x hx).tail (hq o rfl e rfl)

/-- Asks what an element contributes by the end of its aliases. -/
def expandBy (m : Model) (foreign : Definition → KeyQuery KeyElements)
    (form : KeyElements → KeyElements) (plain : Definition → KeyElements) (element : Definition) :
    KeyQuery KeyElements :=
  match m.chase element with
  | .error e => KeyQuery.refuse e
  | .ok a =>
      if a.isManagedToOne then (foreign a).andThen fun keys => KeyQuery.answer (form keys)
      else KeyQuery.answer (plain a)

theorem expand_eq (m : Model) (foreign : Definition → KeyQuery KeyElements)
    (entry : String × Definition) :
    m.expand foreign entry.1 entry.2 =
      m.expandBy foreign (named entry.1) (fun a => if a.isAssociation then [] else [entry])
        entry.2 := by
  simp only [expand, expandBy]
  cases m.chase entry.2 with
  | error e => rfl
  | ok a =>
    by_cases hm : a.isManagedToOne = true
    · simp only [hm, if_true]
    · by_cases ha : a.isAssociation = true <;> simp [hm, ha]

theorem expandStated_eq (m : Model) (foreign : Definition → KeyQuery KeyElements)
    (target : Definition) (stated : ForeignKey) :
    m.expandStated foreign (m.allElements target) stated =
      match m.statedElement? target stated with
      | none => KeyQuery.answer []
      | some element =>
          m.expandBy foreign (named stated.suffix) (fun _ => [(stated.suffix, element)])
            element := by
  simp only [expandStated, statedElement?]
  cases stated.path with
  | nil => rfl
  | cons head rest => rfl

/-- A question, asked at a depth. -/
def ask (m : Model) (steps depth : Nat) : KeyQuestion → KeyQuery KeyElements
  | .entity e => m.keysAt steps e depth
  | .association a => m.foreignKeysAt steps a depth

/-! ## One step of a query -/

section Step

variable {m : Model} {steps depth : Nat} {s : KeyState} {e : String}

theorem ask_known {keys : KeyElements} (hmemo : s.memo.get? e = some keys) :
    m.ask (steps + 1) depth (.entity e) s = (.ok keys, s) := by
  simp only [ask, keysAt, hmemo]

theorem ask_deep (hmemo : s.memo.get? e = none) (hdepth : maxDepth < depth) :
    m.ask (steps + 1) depth (.entity e) s = (.error (.recursionLimit e maxDepth), s) := by
  simp only [ask, keysAt, hmemo, if_pos hdepth]

theorem ask_undefined (hmemo : s.memo.get? e = none) (hdepth : ¬ maxDepth < depth)
    (hd : m.find? e = none) : m.ask (steps + 1) depth (.entity e) s = (.ok [], s) := by
  simp only [ask, keysAt, hmemo, if_neg hdepth, hd]

theorem ask_pending {d : Definition} (hmemo : s.memo.get? e = none) (hdepth : ¬ maxDepth < depth)
    (hd : m.find? e = some d) (hmem : e ∈ s.inProgress) :
    m.ask (steps + 1) depth (.entity e) s = (.ok [], s) := by
  simp [ask, keysAt, hmemo, hdepth, hd, hmem]

/-- Collects what the key elements of a definition contribute. -/
def collectKeys (m : Model) (foreign : Definition → KeyQuery KeyElements) (d : Definition) :
    KeyQuery KeyElements :=
  KeyQuery.collect (fun entry => m.expand foreign entry.1 entry.2) (m.keyElements d) []

theorem ask_collect {d : Definition} (hmemo : s.memo.get? e = none) (hdepth : ¬ maxDepth < depth)
    (hd : m.find? e = some d) (hmem : e ∉ s.inProgress) :
    m.ask (steps + 1) depth (.entity e) s =
      KeyQuery.remembering e (KeyQuery.within e
        (m.collectKeys (fun a => m.ask steps (depth + 1) (.association a)) d)) s := by
  simp [ask, keysAt, hmemo, hdepth, hd, hmem, collectKeys, keyElements]

/-- How a question for an entity ends.  Unless its keys are collected, the state is the one
it was asked in. -/
inductive EntityAnswer (m : Model) (steps depth : Nat) (e : String) (s : KeyState) :
    Except CompileError KeyElements × KeyState → Prop
  | known {keys : KeyElements} (hmemo : s.memo.get? e = some keys) :
      EntityAnswer m steps depth e s (.ok keys, s)
  | deep (hmemo : s.memo.get? e = none) (hdepth : maxDepth < depth) :
      EntityAnswer m steps depth e s (.error (.recursionLimit e maxDepth), s)
  | undefined (hmemo : s.memo.get? e = none) (hdepth : ¬ maxDepth < depth)
      (hd : m.find? e = none) : EntityAnswer m steps depth e s (.ok [], s)
  | pending {d : Definition} (hmemo : s.memo.get? e = none) (hdepth : ¬ maxDepth < depth)
      (hd : m.find? e = some d) (hmem : e ∈ s.inProgress) :
      EntityAnswer m steps depth e s (.ok [], s)
  | collect {d : Definition} (hmemo : s.memo.get? e = none) (hdepth : ¬ maxDepth < depth)
      (hd : m.find? e = some d) (hmem : e ∉ s.inProgress) :
      EntityAnswer m steps depth e s (KeyQuery.remembering e (KeyQuery.within e
        (m.collectKeys (fun a => m.ask steps (depth + 1) (.association a)) d)) s)

theorem ask_entity (m : Model) (steps depth : Nat) (e : String) (s : KeyState) :
    EntityAnswer m steps depth e s (m.ask (steps + 1) depth (.entity e) s) := by
  cases hmemo : s.memo.get? e with
  | some keys =>
    rw [ask_known hmemo]
    exact .known hmemo
  | none =>
    by_cases hdepth : maxDepth < depth
    · rw [ask_deep hmemo hdepth]
      exact .deep hmemo hdepth
    · cases hd : m.find? e with
      | none =>
        rw [ask_undefined hmemo hdepth hd]
        exact .undefined hmemo hdepth hd
      | some d =>
        by_cases hmem : e ∈ s.inProgress
        · rw [ask_pending hmemo hdepth hd hmem]
          exact .pending hmemo hdepth hd hmem
        · rw [ask_collect hmemo hdepth hd hmem]
          exact .collect hmemo hdepth hd hmem

variable {a : Definition}

theorem ask_untargeted (ht : a.target = none) :
    m.ask (steps + 1) depth (.association a) = KeyQuery.answer [] := by
  simp only [ask, foreignKeysAt, ht]

theorem ask_target (ht : a.target = some e) (hk : a.keys = none) :
    m.ask (steps + 1) depth (.association a) = m.ask steps (depth + 1) (.entity e) := by
  simp only [ask, foreignKeysAt, ht, hk]

theorem ask_unstated {stated : List ForeignKey} (ht : a.target = some e)
    (hk : a.keys = some stated) (hd : m.find? e = none) :
    m.ask (steps + 1) depth (.association a) = KeyQuery.answer [] := by
  simp only [ask, foreignKeysAt, ht, hk, hd]

/-- Collects what stated keys contribute. -/
def collectStated (m : Model) (foreign : Definition → KeyQuery KeyElements)
    (target : Definition) (stated : List ForeignKey) : KeyQuery KeyElements :=
  KeyQuery.collect (m.expandStated foreign (m.allElements target)) stated []

theorem ask_stated {d : Definition} {stated : List ForeignKey} (ht : a.target = some e)
    (hk : a.keys = some stated) (hd : m.find? e = some d) :
    m.ask (steps + 1) depth (.association a) =
      m.collectStated (fun b => m.ask steps (depth + 1) (.association b)) d stated := by
  simp only [ask, foreignKeysAt, ht, hk, hd, collectStated]

/-- What a question for an association asks instead. -/
inductive AssociationQuery (m : Model) (steps depth : Nat) (a : Definition) :
    KeyQuery KeyElements → Prop
  | untargeted (ht : a.target = none) :
      AssociationQuery m steps depth a (KeyQuery.answer [])
  | target {e : String} (ht : a.target = some e) (hk : a.keys = none) :
      AssociationQuery m steps depth a (m.ask steps (depth + 1) (.entity e))
  | unstated {e : String} {stated : List ForeignKey} (ht : a.target = some e)
      (hk : a.keys = some stated) (hd : m.find? e = none) :
      AssociationQuery m steps depth a (KeyQuery.answer [])
  | stated {e : String} {d : Definition} {stated : List ForeignKey} (ht : a.target = some e)
      (hk : a.keys = some stated) (hd : m.find? e = some d) :
      AssociationQuery m steps depth a
        (m.collectStated (fun b => m.ask steps (depth + 1) (.association b)) d stated)

theorem ask_association (m : Model) (steps depth : Nat) (a : Definition) :
    AssociationQuery m steps depth a (m.ask (steps + 1) depth (.association a)) := by
  cases ht : a.target with
  | none =>
    rw [ask_untargeted ht]
    exact .untargeted ht
  | some target =>
    cases hk : a.keys with
    | none =>
      rw [ask_target ht hk]
      exact .target ht hk
    | some stated =>
      cases hd : m.find? target with
      | none =>
        rw [ask_unstated ht hk hd]
        exact .unstated ht hk hd
      | some d =>
        rw [ask_stated ht hk hd]
        exact .stated ht hk hd

end Step

end Model

namespace KeyRegion

variable {m : Model} {r : KeyRegion m}

/-- In a region the entities that are being collected are left out. -/
theorem leftOut_iff_mem {owner : Option String} {entities : List String} {e : String}
    (h : m.Pending owner entities) (hq : m.OnBehalf owner (.entity e)) (he : r.inside e) :
    r.leftOut owner e ↔ e ∈ entities := by
  cases owner with
  | none =>
    have hnil : entities = [] := h
    rw [hnil]
    exact iff_of_false r.leftOut_none List.not_mem_nil
  | some o =>
    constructor
    · intro hout
      rw [r.leftOut_self hout]
      exact h.1
    · intro hmem
      exact r.leftOut_back he (hq o rfl e rfl) (h.2 e hmem)

/-! ## States and answers -/

/-- The memo of a state is right for the entities of a region. -/
structure Valid (r : KeyRegion m) (s : KeyState) : Prop where
  /-- What is known are closures. -/
  closure : ∀ {e keys}, r.inside e → s.memo.get? e = some keys →
    m.KeyClosure r.leftOut none (.entity e) keys
  /-- What is being collected is not known yet. -/
  idle : ∀ {e}, s.Knows e → e ∉ s.inProgress
  /-- What is known is defined. -/
  defined : ∀ {e}, s.Knows e → m.find? e ≠ none
  /-- What the keys of a known entity ask for is known too. -/
  settled : ∀ {e f}, r.inside e → s.Knows e → m.KeysDependOn e f →
    s.Knows f ∨ m.find? f = none

/-- What a query that asks for the keys of some entities does to a state, and
how its answer relates to the closure of what was asked. -/
structure Answered (r : KeyRegion m) (wanted : String → Prop) (closure : KeyElements → Prop)
    (refused : CompileError → Prop) (s : KeyState)
    (out : Except CompileError KeyElements × KeyState) : Prop where
  inProgress : out.2.inProgress = s.inProgress
  valid : r.Valid out.2
  kept : ∀ {e keys}, s.memo.get? e = some keys → out.2.memo.get? e = some keys
  added : ∀ {e}, out.2.Knows e →
    s.Knows e ∨ ∃ f, wanted f ∧ ReflTransGen m.KeysDependOn f e
  ok : (∀ f, wanted f → r.inside f) → ∀ {keys}, out.1 = .ok keys →
    closure keys ∧ ∀ f, wanted f → out.2.Knows f ∨ m.find? f = none ∨ f ∈ s.inProgress
  error : (∀ f, wanted f → r.inside f) → ∀ {e}, out.1 = .error e →
    refused e ∨ ∀ keys, ¬ closure keys

/-- A query answers as it should in every state in which the given entities are
being collected. -/
def Sound (r : KeyRegion m) (entities : List String) (wanted : String → Prop)
    (closure : KeyElements → Prop) (refused : CompileError → Prop)
    (q : KeyQuery KeyElements) : Prop :=
  ∀ s, r.Valid s → s.inProgress = entities → r.Answered wanted closure refused s (q s)

theorem Answered.knows {wanted : String → Prop} {closure : KeyElements → Prop}
    {refused : CompileError → Prop} {s : KeyState}
    {out : Except CompileError KeyElements × KeyState}
    (h : r.Answered wanted closure refused s out) {e : String} (he : s.Knows e) :
    out.2.Knows e := by
  obtain ⟨keys, hkeys⟩ := he
  exact ⟨keys, h.kept hkeys⟩

theorem Answered.congr {wanted : String → Prop} {closure closure' : KeyElements → Prop}
    {refused : CompileError → Prop} {s : KeyState}
    {out : Except CompileError KeyElements × KeyState}
    (h : r.Answered wanted closure refused s out)
    (hc : (∀ f, wanted f → r.inside f) → ∀ keys, closure keys ↔ closure' keys) :
    r.Answered wanted closure' refused s out := by
  refine { h with ok := ?_, error := ?_ }
  · intro hin keys hkeys
    exact (h.ok hin hkeys).imp_left (hc hin keys).mp
  · intro hin e he
    exact (h.error hin he).imp_right fun hnone keys hkeys => hnone keys ((hc hin keys).mpr hkeys)

namespace Sound

variable {entities : List String} {wanted : String → Prop} {closure : KeyElements → Prop}
  {refused : CompileError → Prop} {q : KeyQuery KeyElements}

/-- An answer that asks for nothing. -/
theorem answer {keys : KeyElements} (hkeys : closure keys) (hw : ∀ f, ¬ wanted f) :
    r.Sound entities wanted closure refused (KeyQuery.answer keys) := by
  intro s hs _
  exact {
    inProgress := rfl
    valid := hs
    kept := id
    added := Or.inl
    ok := by
      intro _ keys' h
      cases h
      exact ⟨hkeys, fun f hf => absurd hf (hw f)⟩
    error := by
      intro _ e h
      cases h }

/-- A refusal. -/
theorem refuse {e : CompileError} (he : refused e ∨ ∀ keys, ¬ closure keys) :
    r.Sound entities wanted closure refused (KeyQuery.refuse e) := by
  intro s hs _
  exact {
    inProgress := rfl
    valid := hs
    kept := id
    added := Or.inl
    ok := by
      intro _ keys h
      cases h
    error := by
      intro _ e' h
      cases h
      exact he }

theorem imp {wanted' : String → Prop} {closure' : KeyElements → Prop}
    {refused' : CompileError → Prop} (h : r.Sound entities wanted closure refused q)
    (hw : ∀ f, wanted f ↔ wanted' f) (hc : ∀ keys, closure keys ↔ closure' keys)
    (hr : ∀ e, refused e → refused' e) : r.Sound entities wanted' closure' refused' q := by
  obtain rfl : wanted = wanted' := funext fun f => propext (hw f)
  obtain rfl : closure = closure' := funext fun keys => propext (hc keys)
  intro s hs hp
  have ha := h s hs hp
  exact { ha with error := fun hin e he => (ha.error hin he).imp_left (hr e) }

/-- An answer that is put into another form. -/
theorem map {closure' : KeyElements → Prop} (h : r.Sound entities wanted closure refused q)
    (form : KeyElements → KeyElements)
    (hc : ∀ keys', closure' keys' ↔ ∃ keys, closure keys ∧ keys' = form keys) :
    r.Sound entities wanted closure' refused
      (q.andThen fun keys => KeyQuery.answer (form keys)) := by
  intro s hs hp
  have ha := h s hs hp
  rcases hq : q s with ⟨answer, t⟩
  rw [hq] at ha
  cases answer with
  | error e =>
    have hout : (q.andThen fun keys => KeyQuery.answer (form keys)) s = (.error e, t) := by
      simp only [KeyQuery.andThen, hq]
    rw [hout]
    refine { ha with ok := ?_, error := ?_ }
    · intro _ keys hkeys
      cases hkeys
    · intro hin e' he
      refine (ha.error hin he).imp_right fun hnone keys' hkeys' => ?_
      obtain ⟨keys, hkeys, _⟩ := (hc keys').mp hkeys'
      exact hnone keys hkeys
  | ok keys =>
    have hout : (q.andThen fun keys => KeyQuery.answer (form keys)) s = (.ok (form keys), t) := by
      simp only [KeyQuery.andThen, hq, KeyQuery.answer]
    rw [hout]
    refine { ha with ok := ?_, error := ?_ }
    · intro hin keys' hkeys'
      cases hkeys'
      obtain ⟨hclosure, hsettled⟩ := ha.ok hin rfl
      exact ⟨(hc _).mpr ⟨keys, hclosure, rfl⟩, hsettled⟩
    · intro _ e he
      cases he

/-- One query after the other asks for what the two of them ask for. -/
theorem andThen {wanted' : String → Prop} {closure' : KeyElements → KeyElements → Prop}
    {next : KeyElements → KeyQuery KeyElements} (h : r.Sound entities wanted closure refused q)
    (hunique : ∀ more more', closure more → closure more' → more = more')
    (hnext : ∀ more, r.Sound entities wanted' (closure' more) refused (next more)) :
    r.Sound entities (fun f => wanted f ∨ wanted' f)
      (fun keys => ∃ more, closure more ∧ closure' more keys) refused (q.andThen next) := by
  intro s hs hp
  have ha := h s hs hp
  rcases hq : q s with ⟨answer, t⟩
  rw [hq] at ha
  have hin : (∀ f, wanted f ∨ wanted' f → r.inside f) → ∀ f, wanted f → r.inside f :=
    fun hboth f hf => hboth f (Or.inl hf)
  have hin' : (∀ f, wanted f ∨ wanted' f → r.inside f) → ∀ f, wanted' f → r.inside f :=
    fun hboth f hf => hboth f (Or.inr hf)
  have hadded : ∀ {e}, t.Knows e →
      s.Knows e ∨ ∃ f, (wanted f ∨ wanted' f) ∧ ReflTransGen m.KeysDependOn f e := by
    intro e he
    refine (ha.added he).imp_right ?_
    rintro ⟨f, hf, hfe⟩
    exact ⟨f, Or.inl hf, hfe⟩
  cases answer with
  | error err =>
    have hout : q.andThen next s = (.error err, t) := by simp only [KeyQuery.andThen, hq]
    rw [hout]
    refine { ha with added := hadded, ok := ?_, error := ?_ }
    · intro _ keys hkeys
      cases hkeys
    · intro hboth e he
      refine (ha.error (hin hboth) he).imp_right ?_
      rintro hnone keys ⟨more, hmore, _⟩
      exact hnone more hmore
  | ok more =>
    have hout : q.andThen next s = next more t := by simp only [KeyQuery.andThen, hq]
    rw [hout]
    have hb := hnext more t ha.valid (ha.inProgress.trans hp)
    exact {
      inProgress := hb.inProgress.trans ha.inProgress
      valid := hb.valid
      kept := fun hk => hb.kept (ha.kept hk)
      added := by
        intro e he
        rcases hb.added he with he | ⟨f, hf, hfe⟩
        · exact hadded he
        · exact Or.inr ⟨f, Or.inr hf, hfe⟩
      ok := by
        intro hboth keys hkeys
        obtain ⟨hmore, hsettled⟩ := ha.ok (hin hboth) rfl
        obtain ⟨hrest, hsettled'⟩ := hb.ok (hin' hboth) hkeys
        refine ⟨⟨more, hmore, hrest⟩, ?_⟩
        rintro f (hf | hf)
        · exact (hsettled f hf).imp_left hb.knows
        · rw [← ha.inProgress]
          exact hsettled' f hf
      error := by
        intro hboth e he
        obtain ⟨hmore, _⟩ := ha.ok (hin hboth) rfl
        refine (hb.error (hin' hboth) he).imp_right ?_
        rintro hnone keys ⟨more', hmore', hrest⟩
        rw [hunique more' more hmore' hmore] at hrest
        exact hnone keys hrest }

/-- Collecting asks for all that the members of the list ask for. -/
theorem collect {α : Type} {wants : α → String → Prop} {contributes : α → KeyElements → Prop}
    {ask : α → KeyQuery KeyElements} :
    ∀ {xs : List α} {found : KeyElements},
      (∀ x ∈ xs, ∀ more more', contributes x more → contributes x more' → more = more') →
      (∀ x ∈ xs, r.Sound entities (wants x) (contributes x) refused (ask x)) →
      r.Sound entities (fun f => ∃ x ∈ xs, wants x f) (Collected contributes xs found) refused
        (KeyQuery.collect ask xs found)
  | [], found, _, _ => answer rfl (by simp)
  | x :: xs, found, hunique, h => by
    have hrest : ∀ more, r.Sound entities (fun f => ∃ y ∈ xs, wants y f)
        (Collected contributes xs (found.putAll more)) refused
        (KeyQuery.collect ask xs (found.putAll more)) := fun more => collect
      (fun y hy => hunique y (List.mem_cons_of_mem _ hy))
      (fun y hy => h y (List.mem_cons_of_mem _ hy))
    have hboth := (h x List.mem_cons_self).andThen (hunique x List.mem_cons_self) hrest
    refine hboth.imp (fun f => ?_) (fun _ => Iff.rfl) fun _ => id
    simp only [List.mem_cons, exists_eq_or_imp]

end Sound

/-! ## Staying in a state -/

/-- What is answered without leaving the state. -/
theorem Answered.stay {s : KeyState} {closure : KeyElements → Prop} {refused : CompileError → Prop}
    {keys : KeyElements} {e : String} (hs : r.Valid s)
    (hsettled : s.Knows e ∨ m.find? e = none ∨ e ∈ s.inProgress)
    (hclosure : r.inside e → closure keys) :
    r.Answered (fun f => f = e) closure refused s (.ok keys, s) where
  inProgress := rfl
  valid := hs
  kept := id
  added := Or.inl
  ok := by
    intro hin keys' h
    cases h
    refine ⟨hclosure (hin e rfl), ?_⟩
    rintro f rfl
    exact hsettled
  error := by
    intro _ err h
    cases h

/-! ## Finishing an entity -/

section Finish

variable {s : KeyState} {e : String}

theorem Valid.enter (hs : r.Valid s) (hunknown : ¬ s.Knows e) : r.Valid (s.enter e) := by
  refine { hs with idle := ?_ }
  intro f hf hmem
  rcases List.mem_cons.mp hmem with rfl | hmem
  · exact hunknown hf
  · exact hs.idle hf hmem

theorem Valid.leave (hs : r.Valid s) : r.Valid (s.leave e) := by
  refine { hs with idle := ?_ }
  intro f hf hmem
  exact hs.idle hf (List.mem_filter.mp hmem).1

theorem not_knows (hmemo : s.memo.get? e = none) : ¬ s.Knows e := by
  rintro ⟨keys, hkeys⟩
  rw [hmemo] at hkeys
  cases hkeys

theorem knows_remember {keys : KeyElements} {f : String} :
    (s.remember e keys).Knows f ↔ f = e ∨ s.Knows f := by
  simp only [KeyState.Knows, KeyState.remember]
  simp only [Table.get?_put]
  by_cases hf : e = f
  · simp [hf]
  · simp [hf, Ne.symm hf]

theorem Valid.remember {keys : KeyElements} (hs : r.Valid s) (hout : e ∉ s.inProgress)
    (hdefined : m.find? e ≠ none)
    (hkeys : r.inside e → m.KeyClosure r.leftOut none (.entity e) keys)
    (hsettled : r.inside e → ∀ f, m.KeysDependOn e f → f = e ∨ s.Knows f ∨ m.find? f = none) :
    r.Valid (s.remember e keys) where
  closure := by
    intro f keys' hf hget
    rw [KeyState.remember, Table.get?_put] at hget
    split at hget
    · next heq =>
      subst heq
      cases hget
      exact hkeys hf
    · exact hs.closure hf hget
  idle := by
    intro f hf
    rcases knows_remember.mp hf with rfl | hf
    · exact hout
    · exact hs.idle hf
  defined := by
    intro f hf
    rcases knows_remember.mp hf with rfl | hf
    · exact hdefined
    · exact hs.defined hf
  settled := by
    intro f g hf hknown hdep
    rw [knows_remember, or_assoc]
    rcases knows_remember.mp hknown with rfl | hknown
    · exact hsettled hf g hdep
    · exact Or.inr (hs.settled hf hknown hdep)

/-- The entities that are being collected are those of before once an entity is
finished. -/
theorem leave_enter (hout : e ∉ s.inProgress) {t : KeyState}
    (ht : t.inProgress = (s.enter e).inProgress) : (t.leave e).inProgress = s.inProgress := by
  have hfilter : s.inProgress.filter (· != e) = s.inProgress := by
    rw [List.filter_eq_self]
    intro f hf
    simp only [bne_iff_ne, ne_eq]
    rintro rfl
    exact hout hf
  simpa [KeyState.leave, KeyState.enter, ht] using hfilter

/-- The state in which an entity is finished is valid, as all that its keys ask for is
finished before. -/
theorem Valid.finish {t : KeyState} {keys : KeyElements} {closure : KeyElements → Prop}
    {refused : CompileError → Prop} (hout : e ∉ s.inProgress) (hdefined : m.find? e ≠ none)
    (hpending : m.Pending (some e) (e :: s.inProgress))
    (hclosure : ∀ keys, closure keys → m.KeyClosure r.leftOut none (.entity e) keys)
    (ha : r.Answered (m.KeysDependOn e) closure refused (s.enter e) (.ok keys, t)) :
    r.Valid ((t.leave e).remember e keys) := by
  have hcollected : r.inside e → closure keys ∧ ∀ f, m.KeysDependOn e f →
      t.Knows f ∨ m.find? f = none ∨ f ∈ e :: s.inProgress :=
    fun he => ha.ok (fun f hf => r.closed he hf) rfl
  refine ha.valid.leave.remember ?_ hdefined ?_ ?_
  · rw [leave_enter hout ha.inProgress]
    exact hout
  · intro he
    exact hclosure keys (hcollected he).1
  · intro he f hf
    rcases (hcollected he).2 f hf with hknown | hnone | hmem
    · exact Or.inr (Or.inl hknown)
    · exact Or.inr (Or.inr hnone)
    · -- an entity that is being collected is asked for here only if it is `e` itself
      have hleft : r.leftOut (some e) f := by
        refine (leftOut_iff_mem hpending ?_ (r.closed he hf)).mpr hmem
        rintro o ho g rfl
        cases ho
        exact hf
      exact Or.inl (r.leftOut_self hleft)

/-- Collecting the keys of an entity that is neither known nor being collected,
and remembering them. -/
theorem Answered.finish {closure : KeyElements → Prop} {refused : CompileError → Prop}
    {collected : KeyQuery KeyElements} (hs : r.Valid s) (hunknown : ¬ s.Knows e)
    (hout : e ∉ s.inProgress) (hdefined : m.find? e ≠ none)
    (hpending : m.Pending (some e) (e :: s.inProgress))
    (hclosure : ∀ keys, closure keys → m.KeyClosure r.leftOut none (.entity e) keys)
    (h : r.Sound (e :: s.inProgress) (m.KeysDependOn e) closure refused collected) :
    r.Answered (fun f => f = e) closure refused s
      (KeyQuery.remembering e (KeyQuery.within e collected) s) := by
  have ha := h (s.enter e) (hs.enter hunknown) rfl
  have hinside : (∀ f, f = e → r.inside f) → ∀ f, m.KeysDependOn e f → r.inside f :=
    fun hin f hf => r.closed (hin e rfl) hf
  rcases hq : collected (s.enter e) with ⟨answer, t⟩
  rw [hq] at ha
  have hprogress := leave_enter hout ha.inProgress
  have hadded : ∀ {f}, t.Knows f → s.Knows f ∨ ∃ g, g = e ∧ ReflTransGen m.KeysDependOn g f := by
    intro f hf
    refine (ha.added hf).imp_right ?_
    rintro ⟨g, hg, hgf⟩
    exact ⟨e, rfl, .head hg hgf⟩
  cases answer with
  | error err =>
    have hrun : KeyQuery.remembering e (KeyQuery.within e collected) s =
        (.error err, t.leave e) := by
      simp only [KeyQuery.remembering, KeyQuery.within, KeyQuery.andThen, hq]
    rw [hrun]
    exact {
      inProgress := hprogress
      valid := ha.valid.leave
      kept := ha.kept
      added := hadded
      ok := by
        intro _ keys hkeys
        cases hkeys
      error := fun hin _ he => ha.error (hinside hin) he }
  | ok keys =>
    have hrun : KeyQuery.remembering e (KeyQuery.within e collected) s =
        (.ok keys, (t.leave e).remember e keys) := by
      simp only [KeyQuery.remembering, KeyQuery.within, KeyQuery.andThen, hq]
    rw [hrun]
    exact {
      inProgress := hprogress
      valid := .finish hout hdefined hpending hclosure ha
      kept := by
        intro f keys' hkeys'
        have hne : e ≠ f := by
          rintro rfl
          exact hunknown ⟨keys', hkeys'⟩
        simpa [KeyState.remember, KeyState.leave, Table.get?_put, hne] using ha.kept hkeys'
      added := by
        intro f hf
        rcases knows_remember.mp hf with rfl | hf
        · exact Or.inr ⟨f, rfl, .refl⟩
        · exact hadded hf
      ok := by
        intro hin keys' hkeys'
        cases hkeys'
        refine ⟨(ha.ok (hinside hin) rfl).1, ?_⟩
        rintro f rfl
        exact Or.inl (knows_remember.mpr (Or.inl rfl))
      error := by
        intro _ err herr
        cases herr }

end Finish

/-! ## Elements -/

section Elements

variable {entities : List String} {refused : CompileError → Prop}
  {foreignClosure : Definition → KeyElements → Prop} {foreign : Definition → KeyQuery KeyElements}

/-- What an element contributes, if the foreign keys of associations are
answered as they should. -/
theorem Sound.expandBy {form : KeyElements → KeyElements} {plain : Definition → KeyElements}
    {element : Definition}
    (h : ∀ a, m.EndsIn element a →
      r.Sound entities (m.Asks a) (foreignClosure a) refused (foreign a)) :
    r.Sound entities (fun f => ∃ a, m.EndsIn element a ∧ m.Asks a f)
      (m.ContributesBy foreignClosure form plain element) refused
      (m.expandBy foreign form plain element) := by
  simp only [Model.expandBy]
  cases hc : m.chase element with
  | error err =>
    refine refuse (Or.inr ?_)
    rintro more ⟨a, ha, _⟩
    rw [hc] at ha
    cases ha
  | ok a =>
    have hends : ∀ b, m.EndsIn element b → b = a := by
      rintro b ⟨hb, _⟩
      rw [hc] at hb
      cases hb
      rfl
    have hcontributes : ∀ more, m.ContributesBy foreignClosure form plain element more ↔
        if a.isManagedToOne then ∃ keys, foreignClosure a keys ∧ more = form keys
        else more = plain a := by
      intro more
      constructor
      · rintro ⟨b, hb, hmore⟩
        rw [hc] at hb
        cases hb
        exact hmore
      · exact fun hmore => ⟨a, hc, hmore⟩
    by_cases hm : a.isManagedToOne = true
    · simp only [hm, if_true]
      refine ((h a ⟨hc, hm⟩).map form ?_).imp ?_ (fun _ => .rfl) (fun _ => id)
      · intro more
        rw [hcontributes, if_pos hm]
      · intro f
        constructor
        · exact fun hf => ⟨a, ⟨hc, hm⟩, hf⟩
        · rintro ⟨b, hb, hf⟩
          rwa [← hends b hb]
    · simp only [hm, if_false, Bool.false_eq_true]
      refine answer ?_ ?_
      · rw [hcontributes, if_neg hm]
      · rintro f ⟨b, hb, _⟩
        obtain rfl := hends b hb
        exact hm hb.2

/-- What a stated key contributes, if the foreign keys of associations are
answered as they should. -/
theorem Sound.expandStated {d : Definition} {stated : ForeignKey}
    (h : ∀ element a, m.statedElement? d stated = some element → m.EndsIn element a →
      r.Sound entities (m.Asks a) (foreignClosure a) refused (foreign a)) :
    r.Sound entities
      (fun f => ∃ a, (∃ element, m.statedElement? d stated = some element ∧ m.EndsIn element a) ∧
        m.Asks a f)
      (m.ContributesStated foreignClosure d stated) refused
      (m.expandStated foreign (m.allElements d) stated) := by
  rw [Model.expandStated_eq]
  unfold Model.ContributesStated
  cases he : m.statedElement? d stated with
  | none =>
    refine answer rfl ?_
    rintro f ⟨a, ⟨element, hnone, _⟩, _⟩
    cases hnone
  | some element =>
    refine (expandBy fun a ha => h element a he ha).imp ?_ (fun _ => .rfl) (fun _ => id)
    intro f
    simp only [Option.some.injEq, exists_eq_left']

/-- Collecting what the key elements of a definition contribute. -/
theorem Sound.collectKeys {d : Definition}
    (hu : ∀ a keys keys', foreignClosure a keys → foreignClosure a keys' → keys = keys')
    (h : ∀ a, m.KeyAssociation d a →
      r.Sound entities (m.Asks a) (foreignClosure a) refused (foreign a)) :
    r.Sound entities (fun f => ∃ a, m.KeyAssociation d a ∧ m.Asks a f)
      (Collected (m.Contributes foreignClosure) (m.keyElements d) []) refused
      (m.collectKeys foreign d) := by
  have hcollect : r.Sound entities
      (fun f => ∃ entry ∈ m.keyElements d, ∃ a, m.EndsIn entry.2 a ∧ m.Asks a f)
      (Collected (m.Contributes foreignClosure) (m.keyElements d) []) refused
      (m.collectKeys foreign d) := by
    refine collect ?_ ?_
    · intro entry _ more more' hmore hmore'
      exact Model.ContributesBy.unique (fun a _ => hu a) hmore hmore'
    · intro entry hentry
      rw [Model.expand_eq]
      exact expandBy fun a ha => h a ⟨entry, hentry, ha⟩
  refine hcollect.imp ?_ (fun _ => .rfl) (fun _ => id)
  intro f
  constructor
  · rintro ⟨entry, hentry, a, ha, hf⟩
    exact ⟨a, ⟨entry, hentry, ha⟩, hf⟩
  · rintro ⟨a, ⟨entry, hentry, ha⟩, hf⟩
    exact ⟨entry, hentry, a, ha, hf⟩

/-- Collecting what stated keys contribute. -/
theorem Sound.collectStated {d : Definition} {stated : List ForeignKey}
    (hu : ∀ a keys keys', foreignClosure a keys → foreignClosure a keys' → keys = keys')
    (h : ∀ a, m.StatedAssociation d stated a →
      r.Sound entities (m.Asks a) (foreignClosure a) refused (foreign a)) :
    r.Sound entities (fun f => ∃ a, m.StatedAssociation d stated a ∧ m.Asks a f)
      (Collected (m.ContributesStated foreignClosure d) stated []) refused
      (m.collectStated foreign d stated) := by
  have hcollect : r.Sound entities
      (fun f => ∃ k ∈ stated, ∃ a,
        (∃ element, m.statedElement? d k = some element ∧ m.EndsIn element a) ∧ m.Asks a f)
      (Collected (m.ContributesStated foreignClosure d) stated []) refused
      (m.collectStated foreign d stated) := by
    refine collect ?_ ?_
    · intro k _ more more' hmore hmore'
      exact hmore.unique (fun _ a _ _ => hu a) hmore'
    · intro k hk
      exact expandStated fun element a he ha => h a ⟨k, hk, element, he, ha⟩
  refine hcollect.imp ?_ (fun _ => .rfl) (fun _ => id)
  intro f
  constructor
  · rintro ⟨k, hk, a, ha, hf⟩
    exact ⟨a, ⟨k, hk, ha⟩, hf⟩
  · rintro ⟨a, ⟨k, hk, ha⟩, hf⟩
    exact ⟨k, hk, a, ha, hf⟩

end Elements

/-! ## Queries -/

/-- Queries answer as they should. -/
theorem sound (r : KeyRegion m) :
    ∀ (steps depth : Nat) (q : KeyQuestion) {owner : Option String} {entities : List String},
      m.Pending owner entities → m.OnBehalf owner q →
      r.Sound entities (m.Wants q) (m.KeyClosure r.leftOut owner q) (m.Refused steps q depth)
        (m.ask steps depth q)
  | 0, depth, .entity e, owner, entities, hp, hq => Sound.refuse (Or.inl .steps)
  | 0, depth, .association a, owner, entities, hp, hq => Sound.refuse (Or.inl .stepsAssociation)
  | steps + 1, depth, .entity e, owner, entities, hp, hq => by
    intro s hs hprogress
    subst hprogress
    have hleft := leftOut_iff_mem hp hq (r := r)
    have hanswer := m.ask_entity steps depth e s
    generalize m.ask (steps + 1) depth (.entity e) s = result at hanswer ⊢
    cases hanswer with
    | known hmemo =>
      exact .stay hs (Or.inl ⟨_, hmemo⟩) fun he => (hs.closure he hmemo).of_none r.leftOut_none
        fun h => hs.idle ⟨_, hmemo⟩ ((hleft he).mp h)
    | deep _ hdepth => exact Sound.refuse (Or.inl (.depth hdepth)) s hs rfl
    | undefined _ _ hd => exact .stay hs (Or.inr (Or.inl hd)) fun _ => .undefined hd
    | pending _ _ _ hmem =>
      exact .stay hs (Or.inr (Or.inr hmem)) fun he => .leftOut ((hleft he).mpr hmem)
    | @collect d hmemo hdepth hd hmem =>
      have hcollect : r.Sound (e :: s.inProgress) (m.KeysDependOn e)
          (Collected (m.Contributes fun a => m.KeyClosure r.leftOut (some e) (.association a))
            (m.keyElements d) []) (m.Refused (steps + 1) (.entity e) depth)
          (m.collectKeys (fun a => m.ask steps (depth + 1) (.association a)) d) := by
        refine (Sound.collectKeys (fun a _ _ h h' => h.unique h') ?_).imp
          (fun f => (Model.keysDependOn_iff hd).symm) (fun _ => .rfl) (fun _ => id)
        intro a ha
        exact (sound r steps (depth + 1) (.association a) (hp.enter hq) (.key hd ha)).imp
          (fun _ => .rfl) (fun _ => .rfl) (fun err => .key (Nat.le_of_not_lt hdepth) hd ha)
      refine (Answered.finish hs (not_knows hmemo) hmem (by simp [hd]) (hp.enter hq)
        (fun keys => (Model.KeyClosure.entity_iff r.leftOut_none hd).mpr) hcollect).congr ?_
      intro hin keys
      exact (Model.KeyClosure.entity_iff (fun h => hmem ((hleft (hin e rfl)).mp h)) hd).symm
  | steps + 1, depth, .association a, owner, entities, hp, hq => by
    have hquery := m.ask_association steps depth a
    generalize m.ask (steps + 1) depth (.association a) = query at hquery ⊢
    cases hquery with
    | untargeted ht => exact Sound.answer (.untargeted ht) fun f => Model.asks_of_untargeted ht
    | @target target ht hk =>
      exact (sound r steps (depth + 1) (.entity target) hp (hq.target ht hk)).imp
        (fun f => (Model.asks_of_target ht hk).symm)
        (fun keys => (Model.KeyClosure.target_iff ht hk).symm) (fun err => .target ht hk)
    | unstated ht hk hd =>
      exact Sound.answer (.unstated ht hk hd) fun f => Model.asks_of_unstated ht hk hd
    | stated ht hk hd =>
      refine (Sound.collectStated (fun b _ _ h h' => h.unique h') ?_).imp
        (fun f => (Model.asks_of_stated ht hk hd).symm)
        (fun keys => (Model.KeyClosure.stated_iff ht hk hd).symm) (fun _ => id)
      intro b hb
      have hstates := (Model.statesKey_iff ht hk hd).mpr hb
      exact (sound r steps (depth + 1) (.association b) hp (hq.stated hstates)).imp
        (fun _ => .rfl) (fun _ => .rfl) (fun err => .stated hstates)

end KeyRegion

end SchemaTypes
