import SchemaTypes.Model.Keys
import SchemaTypes.Proofs.Table

/-!
# Where elements come from

The definitions that contribute elements to a definition are the definition
itself and definitions of the model (`Model.mem_lineage`).  So every element
that a definition has, own or inherited, stands in one of them
(`Model.mem_allElements`), and a chain of aliases ends in its first member or
in a definition of the model (`Model.chase_eq_ok`).

`Model.nodes` lists the definitions with their own elements, and
`Model.length_nodes` counts them.
-/

namespace SchemaTypes

namespace Table

variable {α : Type}

theorem mem_put {t : Table α} {name : String} {a : α} {entry : String × α}
    (h : entry ∈ t.put name a) : entry ∈ t ∨ entry = (name, a) := by
  induction t with
  | nil => exact Or.inr (List.mem_singleton.mp h)
  | cons first rest ih =>
    obtain ⟨n, b⟩ := first
    simp only [put] at h
    split at h
    · next hn =>
      subst hn
      rcases List.mem_cons.mp h with rfl | h
      · exact Or.inr rfl
      · exact Or.inl (List.mem_cons_of_mem _ h)
    · rcases List.mem_cons.mp h with rfl | h
      · exact Or.inl List.mem_cons_self
      · exact (ih h).imp_left (List.mem_cons_of_mem _)

theorem mem_putAll {t u : Table α} {entry : String × α} (h : entry ∈ t.putAll u) :
    entry ∈ t ∨ entry ∈ u := by
  induction u generalizing t with
  | nil => exact Or.inl h
  | cons first rest ih =>
    rcases ih h with hput | hrest
    · rcases mem_put hput with ht | rfl
      · exact Or.inl ht
      · exact Or.inr List.mem_cons_self
    · exact Or.inr (List.mem_cons_of_mem _ hrest)

end Table

namespace Model

variable {m : Model}

/-! ## Lineages -/

/-- A walk over included definitions leaves definitions of the model.  Their names
have every property that goes from a definition to what it includes. -/
theorem walk_left {P : String → Prop}
    (hincludes : ∀ {name d included}, P name → m.find? name = some d → included ∈ d.ancestors →
      P included) {levels : Nat} {names : List String} {w : Walk} (hnames : ∀ name ∈ names, P name)
    (hw : ∀ d ∈ w.left, ∃ name, P name ∧ m.find? name = some d) :
    ∀ d ∈ (m.walk levels names w).left, ∃ name, P name ∧ m.find? name = some d := by
  induction levels generalizing names w with
  | zero => exact hw
  | succ levels ih =>
    rw [walk]
    induction names generalizing w with
    | nil => exact hw
    | cons name rest ihnames =>
      obtain ⟨hname, hrest⟩ := List.forall_mem_cons.mp hnames
      rw [List.foldl_cons]
      apply ihnames hrest
      split
      · exact hw
      · cases hd : m.find? name with
        | none => exact hw
        | some d =>
          intro d' hd'
          rcases List.mem_append.mp hd' with hleft | hself
          · exact ih (w := w.enter name) (fun included => hincludes hname hd) hw d' hleft
          · obtain rfl := List.mem_singleton.mp hself
            exact ⟨name, hname, hd⟩

theorem mem_lineage {d d' : Definition} (h : d' ∈ m.lineage d) :
    d' = d ∨ ∃ name, m.find? name = some d' := by
  rcases List.mem_append.mp h with hleft | hself
  · obtain ⟨name, -, hname⟩ :=
      walk_left (P := fun _ => True) (fun _ _ _ => trivial) (by simp) (by simp) d' hleft
    exact Or.inr ⟨name, hname⟩
  · exact Or.inl (List.mem_singleton.mp hself)

theorem mem_allElements {d : Definition} {entry : String × Definition}
    (h : entry ∈ m.allElements d) : ∃ d' ∈ m.lineage d, entry ∈ d'.ownElements := by
  have fold : ∀ (ds : List Definition) (found : Table Definition),
      entry ∈ ds.foldl (fun found d => found.putAll d.ownElements) found →
        entry ∈ found ∨ ∃ d' ∈ ds, entry ∈ d'.ownElements := by
    intro ds
    induction ds with
    | nil => exact fun found h => Or.inl h
    | cons d rest ih =>
      intro found h
      rcases ih _ h with hfound | ⟨d', hd', hentry⟩
      · rcases Table.mem_putAll hfound with hfound | hown
        · exact Or.inl hfound
        · exact Or.inr ⟨d, List.mem_cons_self, hown⟩
      · exact Or.inr ⟨d', List.mem_cons_of_mem _ hd', hentry⟩
  rcases fold (m.lineage d) [] h with hnil | hex
  · cases hnil
  · exact hex

/-! ## Aliases -/

theorem chaseWithin_eq_some {steps : Nat} {d a : Definition} (h : m.chaseWithin steps d = some a) :
    a = d ∨ ∃ name, m.find? name = some a := by
  induction steps generalizing d with
  | zero => cases h
  | succ steps ih =>
    rw [chaseWithin] at h
    cases hs : m.aliasStep? d with
    | none =>
      simp only [hs, Option.some.injEq] at h
      exact Or.inl h.symm
    | some next =>
      simp only [hs] at h
      rcases ih h with rfl | hdefined
      · right
        simp only [aliasStep?] at hs
        split at hs
        · cases hs
        · next name _ =>
          obtain ⟨hfind, _⟩ := Option.filter_eq_some_iff.mp hs
          exact ⟨name, hfind⟩
      · exact Or.inr hdefined

theorem chase_eq_ok {d a : Definition} (h : m.chase d = .ok a) :
    a = d ∨ ∃ name, m.find? name = some a := by
  simp only [chase] at h
  split at h
  · next result hresult =>
    cases h
    exact chaseWithin_eq_some hresult
  · cases h

/-! ## Nodes -/

/-- The definitions of a model, each with its own elements. -/
def nodes (m : Model) : List Definition :=
  m.definitions.flatMap fun entry => entry.2 :: entry.2.ownElements.map (·.2)

theorem length_nodes (m : Model) : m.nodes.length = m.size := by
  have fold : ∀ definitions : Table Definition,
      (definitions.flatMap fun entry => entry.2 :: entry.2.ownElements.map (·.2)).length =
        definitions.foldr (fun entry n => entry.2.ownElements.length + 1 + n) 0 := by
    intro definitions
    induction definitions with
    | nil => rfl
    | cons entry rest ih =>
      rw [List.flatMap_cons, List.length_append, ih, List.foldr_cons, List.length_cons,
        List.length_map]
  exact fold m.definitions

theorem mem_nodes_of_find? {name : String} {d : Definition} (h : m.find? name = some d) :
    d ∈ m.nodes :=
  List.mem_flatMap.mpr ⟨(name, d), find?_eq_some_iff.mp h, List.mem_cons_self⟩

/-- The elements of a definition of the model are nodes. -/
theorem mem_nodes_of_mem_allElements {name : String} {d : Definition}
    {entry : String × Definition} (hd : m.find? name = some d) (h : entry ∈ m.allElements d) :
    entry.2 ∈ m.nodes := by
  obtain ⟨d', hd', hentry⟩ := mem_allElements h
  have hdefined : ∃ name, m.find? name = some d' := by
    rcases mem_lineage hd' with rfl | hdefined
    · exact ⟨name, hd⟩
    · exact hdefined
  obtain ⟨name', hname'⟩ := hdefined
  exact List.mem_flatMap.mpr ⟨(name', d'), find?_eq_some_iff.mp hname',
    List.mem_cons_of_mem _ (List.mem_map.mpr ⟨entry, hentry, rfl⟩)⟩

theorem mem_nodes_of_chase {d a : Definition} (h : m.chase d = .ok a) (hd : d ∈ m.nodes) :
    a ∈ m.nodes := by
  rcases chase_eq_ok h with rfl | ⟨name, hname⟩
  · exact hd
  · exact mem_nodes_of_find? hname

end Model

end SchemaTypes
