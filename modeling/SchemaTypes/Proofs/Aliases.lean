import SchemaTypes.Model.Alias
import SchemaTypes.Proofs.Table

/-!
# Chains of aliases

An alias names another type, which may be an alias again.  `Model.AliasChain` says where a
number of steps along such names leads.  A chain goes in one way only, and it has an end
where the last definition names no alias.

A chain that is not followed to its end has `maxDepth` steps or more
(`Model.chaseWithin_eq_none_iff`), and one that leads to a cycle has chains of every length
(`Model.AliasChain.exists_of_cycle`).  So `chase` finds the end of every chain that has one
below the bound, and it refuses all others (`Model.chase_exact`).
-/

namespace SchemaTypes

namespace Model

variable {m : Model} {d next last e : Definition} {n k steps : Nat}

/-! ## Chains -/

/-- The type of a definition is an alias: it names a type that has neither elements nor
entries of an enum. -/
inductive NamesAlias (m : Model) (d next : Definition) : Prop
  | intro {name : String} : d.type = some (.name name) → m.find? name = some next →
      next.kind = some .type → next.elements = none → next.values.getD [] = [] →
      NamesAlias m d next

/-- A number of steps, each from a definition to the alias that its type names. -/
inductive AliasChain (m : Model) : Nat → Definition → Definition → Prop
  | here (d : Definition) : AliasChain m 0 d d
  | step {n : Nat} {d next last : Definition} : m.NamesAlias d next →
      AliasChain m n next last → AliasChain m (n + 1) d last

/-- No alias is named, so a chain has its end here. -/
def EndsAliases (m : Model) (d : Definition) : Prop := ∀ next, ¬ m.NamesAlias d next

theorem typeName?_eq_some_iff {name : String} :
    d.typeName? = some name ↔ d.type = some (.name name) := by
  rw [Definition.typeName?]
  split
  · next text htype => simp [htype]
  · next hother => simpa using hother name

theorem isAlias_iff :
    isAlias d = true ↔ d.kind = some .type ∧ d.elements = none ∧ d.values.getD [] = [] := by
  rw [isAlias, Bool.and_eq_true, Bool.and_eq_true, Definition.isKind, Definition.isStructure,
    Definition.isEnum, and_assoc]
  cases d.values <;> simp

theorem aliasStep?_eq_some_iff : m.aliasStep? d = some next ↔ m.NamesAlias d next := by
  constructor
  · intro h
    rw [aliasStep?] at h
    split at h
    · cases h
    · next name htype =>
      obtain ⟨hfind, halias⟩ := Option.filter_eq_some_iff.mp h
      obtain ⟨hkind, helements, hvalues⟩ := isAlias_iff.mp halias
      exact .intro (typeName?_eq_some_iff.mp htype) hfind hkind helements hvalues
  · rintro ⟨htype, hfind, hkind, helements, hvalues⟩
    rw [aliasStep?, typeName?_eq_some_iff.mpr htype]
    exact Option.filter_eq_some_iff.mpr ⟨hfind, isAlias_iff.mpr ⟨hkind, helements, hvalues⟩⟩

theorem aliasStep?_eq_none_iff : m.aliasStep? d = none ↔ m.EndsAliases d := by
  rw [EndsAliases, Option.eq_none_iff_forall_ne_some]
  exact forall_congr' fun next => not_congr aliasStep?_eq_some_iff

/-- Only one alias is named. -/
theorem NamesAlias.unique (h : m.NamesAlias d next) (h' : m.NamesAlias d e) : next = e :=
  Option.some.inj ((aliasStep?_eq_some_iff.mpr h).symm.trans (aliasStep?_eq_some_iff.mpr h'))

namespace AliasChain

theorem snoc (h : m.AliasChain n d last) (hstep : m.NamesAlias last next) :
    m.AliasChain (n + 1) d next := by
  induction h with
  | here d => exact .step hstep (.here next)
  | step hfirst _ ih => exact .step hfirst (ih hstep)

/-- The first steps of a chain are a chain. -/
theorem exists_of_le (h : m.AliasChain n d last) (hk : k ≤ n) : ∃ e, m.AliasChain k d e := by
  induction h generalizing k with
  | here d => exact ⟨d, Nat.le_zero.mp hk ▸ .here d⟩
  | @step n d next last hfirst _ ih =>
    cases k with
    | zero => exact ⟨d, .here d⟩
    | succ k =>
      obtain ⟨e, hrest⟩ := ih (Nat.le_of_succ_le_succ hk)
      exact ⟨e, .step hfirst hrest⟩

/-- On a cycle a chain goes on for ever: what follows a definition on it is on it too. -/
theorem exists_on_cycle (h : m.AliasChain (k + 1) d d) (n : Nat) : ∃ e, m.AliasChain n d e := by
  induction n generalizing d with
  | zero => exact ⟨d, .here d⟩
  | succ n ih =>
    obtain _ | ⟨hfirst, hback⟩ := h
    obtain ⟨e, hrest⟩ := ih (hback.snoc hfirst)
    exact ⟨e, .step hfirst hrest⟩

/-- A chain that leads to a cycle has chains of every length. -/
theorem exists_of_cycle (h : m.AliasChain n d last) (hcycle : m.AliasChain (k + 1) last last)
    (steps : Nat) : ∃ e, m.AliasChain steps d e := by
  induction h generalizing steps with
  | here d => exact hcycle.exists_on_cycle steps
  | @step n d next last hfirst _ ih =>
    cases steps with
    | zero => exact ⟨d, .here d⟩
    | succ steps =>
      obtain ⟨e, hrest⟩ := ih hcycle steps
      exact ⟨e, .step hfirst hrest⟩

/-- The end of a chain has no chains but the one without steps. -/
theorem eq_of_ends (h : m.AliasChain n d last) (hends : m.EndsAliases d) : n = 0 ∧ last = d := by
  cases h with
  | here => exact ⟨rfl, rfl⟩
  | step hfirst => exact absurd hfirst (hends _)

end AliasChain

/-! ## Following a chain -/

theorem chaseWithin_eq_some_iff :
    m.chaseWithin steps d = some e ↔ ∃ n < steps, m.AliasChain n d e ∧ m.EndsAliases e := by
  induction steps generalizing d with
  | zero => simp [chaseWithin]
  | succ steps ih =>
    rw [chaseWithin]
    cases hstep : m.aliasStep? d with
    | none =>
      have hends := aliasStep?_eq_none_iff.mp hstep
      constructor
      · intro h
        cases h
        exact ⟨0, Nat.zero_lt_succ steps, .here _, hends⟩
      · rintro ⟨n, -, hchain, -⟩
        rw [(hchain.eq_of_ends hends).2]
    | some next =>
      have hfirst := aliasStep?_eq_some_iff.mp hstep
      refine ih.trans ⟨fun ⟨n, hn, hchain, hends⟩ => ?_, fun ⟨n, hn, hchain, hends⟩ => ?_⟩
      · exact ⟨n + 1, Nat.succ_lt_succ hn, .step hfirst hchain, hends⟩
      · cases hchain with
        | here => exact absurd hfirst (hends next)
        | step hother hrest =>
          rw [hother.unique hfirst] at hrest
          exact ⟨_, Nat.lt_of_succ_lt_succ hn, hrest, hends⟩

/-- What is not followed to its end is a chain of all the steps that were allowed. -/
theorem chaseWithin_eq_none_iff :
    m.chaseWithin steps d = none ↔ ∃ e, m.AliasChain steps d e := by
  induction steps generalizing d with
  | zero => exact iff_of_true rfl ⟨d, .here d⟩
  | succ steps ih =>
    rw [chaseWithin]
    cases hstep : m.aliasStep? d with
    | none =>
      have hends := aliasStep?_eq_none_iff.mp hstep
      refine iff_of_false (by simp) ?_
      rintro ⟨e, hchain⟩
      exact absurd (hchain.eq_of_ends hends).1 (Nat.succ_ne_zero steps)
    | some next =>
      have hfirst := aliasStep?_eq_some_iff.mp hstep
      refine ih.trans ⟨fun ⟨e, hchain⟩ => ⟨e, .step hfirst hchain⟩, fun ⟨e, hchain⟩ => ?_⟩
      obtain _ | ⟨hother, hrest⟩ := hchain
      exact ⟨e, hother.unique hfirst ▸ hrest⟩

theorem chase_eq_ok_iff :
    m.chase d = .ok e ↔ ∃ n < maxDepth, m.AliasChain n d e ∧ m.EndsAliases e := by
  rw [← chaseWithin_eq_some_iff, chase]
  split
  · next result hresult => simp [hresult]
  · next hnone => simp [hnone]

/-- A chain that is too long is refused under the type that it starts with. -/
theorem chase_eq_error (h : m.AliasChain maxDepth d last) :
    ∃ name, d.type = some (.name name) ∧ m.chase d = .error (.recursionLimit name maxDepth) := by
  have hnone : m.chaseWithin maxDepth d = none := chaseWithin_eq_none_iff.mpr ⟨last, h⟩
  obtain _ | ⟨⟨htype, -, -, -, -⟩, -⟩ := h
  refine ⟨_, htype, ?_⟩
  rw [chase, hnone, typeName?_eq_some_iff.mpr htype]
  rfl

/-- A chain of aliases is followed to its end exactly if the end is less than `maxDepth` steps
away.  Everything else is a chain of `maxDepth` steps or more, such as one that leads to a cycle,
and it is refused under the type that is stated.  What a chain ends in is its own end. -/
theorem chase_exact (m : Model) (d : Definition) :
    (∀ e, m.chase d = .ok e ↔ ∃ n < maxDepth, m.AliasChain n d e ∧ m.EndsAliases e) ∧
      ((∃ e, m.chase d = .ok e) ∨ ∃ n ≥ maxDepth, ∃ last, m.AliasChain n d last) ∧
      (∀ n ≥ maxDepth, ∀ last, m.AliasChain n d last →
        ∃ name, d.type = some (.name name) ∧ m.chase d = .error (.recursionLimit name maxDepth)) ∧
      (∀ n k last, m.AliasChain n d last → m.AliasChain (k + 1) last last →
        ∃ name, d.type = some (.name name) ∧ m.chase d = .error (.recursionLimit name maxDepth)) ∧
      ∀ e, m.chase d = .ok e → m.chase e = .ok e := by
  refine ⟨fun e => chase_eq_ok_iff, ?_, fun n hn last hchain => ?_,
    fun n k last hchain hcycle => ?_, fun e hresult => ?_⟩
  · cases hchase : m.chaseWithin maxDepth d with
    | none => exact Or.inr ⟨maxDepth, Nat.le_refl _, chaseWithin_eq_none_iff.mp hchase⟩
    | some e => exact Or.inl ⟨e, chase_eq_ok_iff.mpr (chaseWithin_eq_some_iff.mp hchase)⟩
  · obtain ⟨e, hfirst⟩ := hchain.exists_of_le hn
    exact chase_eq_error hfirst
  · obtain ⟨e, hlong⟩ := hchain.exists_of_cycle hcycle maxDepth
    exact chase_eq_error hlong
  · obtain ⟨n, -, -, hends⟩ := chase_eq_ok_iff.mp hresult
    exact chase_eq_ok_iff.mpr ⟨0, by decide, .here e, hends⟩

/-- A type that gives another name to a type. -/
def aliasOf (name : String) : Definition :=
  { kind := some .type, type := some (.name name) }

/-- Aliases that name each other in a row, and one that names itself. -/
def rungs : Model where
  definitions :=
    [("a", aliasOf "b"), ("b", aliasOf "c"), ("c", aliasOf "d"), ("d", aliasOf "e"),
     ("e", aliasOf "f"), ("f", aliasOf "g"), ("g", aliasOf "h"), ("h", aliasOf "i"),
     ("i", aliasOf "j"), ("j", aliasOf "cds.Decimal"), ("loop", aliasOf "loop")]

theorem chase_exact_rungs :
    rungs.chase (aliasOf "b") = .ok (aliasOf "cds.Decimal") ∧
      rungs.chase (aliasOf "cds.Decimal") = .ok (aliasOf "cds.Decimal") ∧
      rungs.chase (aliasOf "a") = .error (.recursionLimit "a" maxDepth) ∧
      rungs.chase (aliasOf "loop") = .error (.recursionLimit "loop" maxDepth) := by
  have hstep : ∀ {name next}, rungs.find? name = some (aliasOf next) →
      rungs.NamesAlias (aliasOf name) (aliasOf next) := fun h => .intro rfl h rfl rfl rfl
  have hchain : rungs.AliasChain 9 (aliasOf "b") (aliasOf "cds.Decimal") :=
    .step (hstep rfl) (.step (hstep rfl) (.step (hstep rfl) (.step (hstep rfl) (.step (hstep rfl)
      (.step (hstep rfl) (.step (hstep rfl) (.step (hstep rfl) (.step (hstep rfl)
        (.here _)))))))))
  have hround : rungs.AliasChain 1 (aliasOf "loop") (aliasOf "loop") := .step (hstep rfl) (.here _)
  have hends : rungs.EndsAliases (aliasOf "cds.Decimal") := aliasStep?_eq_none_iff.mp rfl
  obtain ⟨hok, -, -, -, hagain⟩ := chase_exact rungs (aliasOf "b")
  have hresult := (hok _).mpr ⟨9, by decide, hchain, hends⟩
  obtain ⟨-, -, hlong, -, -⟩ := chase_exact rungs (aliasOf "a")
  obtain ⟨_, hname, htoo⟩ := hlong 10 (Nat.le_refl _) _ (.step (hstep rfl) hchain)
  obtain ⟨-, -, -, hcycle, -⟩ := chase_exact rungs (aliasOf "loop")
  obtain ⟨_, hname', hforever⟩ := hcycle 0 0 _ (.here _) hround
  cases hname
  cases hname'
  exact ⟨hresult, hagain _ hresult, htoo, hforever⟩

end Model

end SchemaTypes
