import Mathlib.Data.Fintype.Card
import Mathlib.Data.Fintype.EquivFin
import Mathlib.Data.Fintype.Sets
import Mathlib.Logic.Relation
import SchemaTypes.Proofs.Lineage

/-!
# Inherited elements

A definition of a model includes others, and these include others again
(`Model.Includes`).  The walk over included definitions leaves all of them: each
level comes to a name that no level around it came to, so the levels are enough
(`Model.walk_covers`).  So the lineage of a definition holds the definition and
everything it includes, directly or through others (`Model.mem_lineage_iff`), and
an element of a definition is its own or is inherited
(`Model.mem_names_allElements_iff`).

Where no definition includes itself, an element that is inherited everywhere would
come from nowhere.  So there is a definition for every element that has it as its
own and does not inherit it (`Model.exists_introduces`).
-/

namespace SchemaTypes

open Relation

namespace Table

variable {α : Type}

theorem mem_names_put {t : Table α} {name n : String} {a : α} :
    n ∈ names (t.put name a) ↔ n ∈ names t ∨ n = name := by
  rw [names_put]
  split
  · next h =>
    exact ⟨Or.inl, fun hn => hn.elim id fun heq => heq ▸ h⟩
  · simp

theorem mem_names_putAll {t u : Table α} {n : String} :
    n ∈ names (t.putAll u) ↔ n ∈ names t ∨ n ∈ names u := by
  induction u generalizing t with
  | nil => simp [putAll]
  | cons entry rest ih =>
    have hrest : n ∈ names (t.putAll (entry :: rest)) ↔
        n ∈ names (t.put entry.1 entry.2) ∨ n ∈ names rest := ih
    rw [hrest, mem_names_put, names_cons, List.mem_cons, or_assoc]

end Table

namespace Model

variable {m : Model}

/-! ## Includes -/

/-- A definition of the model includes a name. -/
def Includes (m : Model) (name included : String) : Prop :=
  ∃ d, m.find? name = some d ∧ included ∈ d.ancestors

/-- No definition includes itself, directly or through others. -/
def AcyclicIncludes (m : Model) : Prop := ∀ name, ¬ TransGen m.Includes name name

theorem Includes.defines {name included : String} (h : m.Includes name included) :
    m.defines name = true := by
  obtain ⟨d, hd, -⟩ := h
  exact defines_of_find? hd

/-- Where everything is defined before it is included, includes do not come back. -/
theorem acyclicIncludes_of_order
    (h : ∀ entry ∈ m.definitions, ∀ included ∈ entry.2.ancestors,
      (Table.names m.definitions).idxOf included < (Table.names m.definitions).idxOf entry.1) :
    m.AcyclicIncludes := by
  intro name hcycle
  have hlower : ∀ {n}, TransGen m.Includes name n →
      (Table.names m.definitions).idxOf n < (Table.names m.definitions).idxOf name := by
    intro n hn
    induction hn with
    | single hstep =>
      obtain ⟨d, hd, hmem⟩ := hstep
      exact h _ (find?_eq_some_iff.mp hd) _ hmem
    | tail _ hstep ih =>
      obtain ⟨d, hd, hmem⟩ := hstep
      exact (h _ (find?_eq_some_iff.mp hd) _ hmem).trans ih
  exact Nat.lt_irrefl _ (hlower hcycle)

/-! ## The walk -/

/-- The names a walk has not come to. -/
def unvisited (m : Model) (w : Walk) : List String :=
  (Table.names m.definitions).filter fun name => !w.visited.contains name

theorem mem_unvisited {w : Walk} {name : String} :
    name ∈ m.unvisited w ↔ m.defines name = true ∧ name ∉ w.visited := by
  simp [unvisited, Model.defines, find?, Table.mem_names_iff, Table.has]

theorem unvisited_sublist {w w' : Walk} (h : w.visited ⊆ w'.visited) :
    (m.unvisited w').Sublist (m.unvisited w) := by
  refine List.monotone_filter_right _ fun name hname => ?_
  simp only [Bool.not_eq_true', List.contains_eq_mem, decide_eq_false_iff_not] at hname ⊢
  exact fun hmem => hname (h hmem)

/-- Coming to a new name leaves fewer names. -/
theorem length_unvisited_enter {w : Walk} {name : String} (hdefined : m.defines name = true)
    (hnew : name ∉ w.visited) : (m.unvisited (w.enter name)).length < (m.unvisited w).length := by
  have hsub : (m.unvisited (w.enter name)).Sublist (m.unvisited w) :=
    unvisited_sublist (List.subset_cons_self name w.visited)
  refine Nat.lt_of_le_of_ne hsub.length_le fun heq => ?_
  have hmem := mem_unvisited.mpr ⟨hdefined, hnew⟩
  rw [← hsub.eq_of_length heq] at hmem
  exact (mem_unvisited.mp hmem).2 List.mem_cons_self

/-- One walk goes on from another.  It leaves every definition it comes to, after
everything that one includes. -/
structure Covers (m : Model) (w w' : Walk) : Prop where
  visited : w.visited ⊆ w'.visited
  left : w.left ⊆ w'.left
  leaves : ∀ {name d}, name ∈ w'.visited → name ∉ w.visited → m.find? name = some d → d ∈ w'.left
  closed : ∀ {name included}, name ∈ w'.visited → name ∉ w.visited → m.Includes name included →
    m.defines included = true → included ∈ w'.visited

theorem Covers.refl (w : Walk) : m.Covers w w :=
  ⟨List.Subset.refl _, List.Subset.refl _, fun h hn => absurd h hn, fun h hn => absurd h hn⟩

theorem Covers.trans {w w' w'' : Walk} (h : m.Covers w w') (h' : m.Covers w' w'') :
    m.Covers w w'' where
  visited := List.Subset.trans h.visited h'.visited
  left := List.Subset.trans h.left h'.left
  leaves {name d} hname hnew hd := by
    by_cases hmiddle : name ∈ w'.visited
    · exact h'.left (h.leaves hmiddle hnew hd)
    · exact h'.leaves hname hmiddle hd
  closed {name included} hname hnew hincludes hdefined := by
    by_cases hmiddle : name ∈ w'.visited
    · exact h'.visited (h.closed hmiddle hnew hincludes hdefined)
    · exact h'.closed hname hmiddle hincludes hdefined

/-- Coming to a definition and leaving it again, with a walk over what it includes
in between. -/
theorem Covers.around {w w' : Walk} {name : String} {d : Definition}
    (hd : m.find? name = some d) (h : m.Covers (w.enter name) w')
    (hancestors : ∀ included ∈ d.ancestors, m.defines included = true → included ∈ w'.visited) :
    m.Covers w (w'.leave d) where
  visited := fun n hn => h.visited (List.mem_cons_of_mem _ hn)
  left := fun d' hd' => List.mem_append_left _ (h.left hd')
  leaves {n d'} hn hnew hd' := by
    by_cases heq : n = name
    · subst heq
      obtain rfl := eq_of_find? hd hd'
      exact List.mem_append_right _ (List.mem_singleton.mpr rfl)
    · exact List.mem_append_left _
        (h.leaves hn (fun hmem => (List.mem_cons.mp hmem).elim heq hnew) hd')
  closed {n included} hn hnew hincludes hdefined := by
    by_cases heq : n = name
    · subst heq
      obtain ⟨d', hd', hmem⟩ := hincludes
      obtain rfl := eq_of_find? hd hd'
      exact hancestors included hmem hdefined
    · exact h.closed hn (fun hmem => (List.mem_cons.mp hmem).elim heq hnew) hincludes hdefined

/-- A walk with a level for every name it has not come to comes to all names it is
given and to everything these include. -/
theorem walk_covers {levels : Nat} {names : List String} {w : Walk}
    (hlevels : (m.unvisited w).length ≤ levels) :
    m.Covers w (m.walk levels names w) ∧
      ∀ name ∈ names, m.defines name = true → name ∈ (m.walk levels names w).visited := by
  induction levels generalizing names w with
  | zero =>
    refine ⟨.refl w, fun name _ hdefined => ?_⟩
    by_contra hnew
    have hpos := List.length_pos_of_mem (mem_unvisited (w := w).mpr ⟨hdefined, hnew⟩)
    omega
  | succ levels ih =>
    rw [walk]
    induction names generalizing w with
    | nil => exact ⟨.refl w, by simp⟩
    | cons name rest ihnames =>
      rw [List.foldl_cons]
      -- One name at a time: the rest starts from where the first one has led.
      have hfirst : ∀ w', m.Covers w w' → (m.defines name = true → name ∈ w'.visited) →
          ∀ w'', m.Covers w' w'' ∧ (∀ n ∈ rest, m.defines n = true → n ∈ w''.visited) →
            m.Covers w w'' ∧ ∀ n ∈ name :: rest, m.defines n = true → n ∈ w''.visited := by
        rintro w' hcovers hname w'' ⟨hcovers', hrest⟩
        exact ⟨hcovers.trans hcovers',
          List.forall_mem_cons.mpr ⟨fun hd => hcovers'.visited (hname hd), hrest⟩⟩
      split
      · next hvisited =>
        exact hfirst w (.refl w) (fun _ => by simpa using hvisited) _ (ihnames hlevels)
      · next hnew =>
        have hnew : name ∉ w.visited := by simpa using hnew
        cases hd : m.find? name with
        | none =>
          refine hfirst w (.refl w) (fun hdefined => ?_) _ (ihnames hlevels)
          rw [Model.defines, hd] at hdefined
          cases hdefined
        | some d =>
          have hless := length_unvisited_enter (defines_of_find? hd) hnew
          obtain ⟨hcovers, hancestors⟩ := @ih d.ancestors (w.enter name) (by omega)
          have haround := hcovers.around hd hancestors
          exact hfirst _ haround (fun _ => hcovers.visited List.mem_cons_self) _
            (ihnames ((unvisited_sublist haround.visited).length_le.trans hlevels))

/-! ## Lineages -/

/-- A definition includes a name, directly or through others. -/
def Inherits (m : Model) (d : Definition) (name : String) : Prop :=
  ∃ included ∈ d.ancestors, ReflTransGen m.Includes included name

theorem unvisited_start : (m.unvisited {}).length ≤ m.definitions.length :=
  (List.length_filter_le _ _).trans (by simp [Table.names])

/-- The walk over what a definition includes leaves everything that it includes, directly
or through others. -/
theorem mem_left_iff {d d' : Definition} :
    d' ∈ (m.walk m.definitions.length d.ancestors {}).left ↔
      ∃ name, m.Inherits d name ∧ m.find? name = some d' := by
  constructor
  · exact walk_left (P := m.Inherits d)
      (fun ⟨included, hincluded, hreach⟩ hd hmem =>
        ⟨included, hincluded, hreach.tail ⟨_, hd, hmem⟩⟩)
      (fun name hname => ⟨name, hname, .refl⟩) (by simp) d'
  · rintro ⟨name, ⟨included, hincluded, hreach⟩, hd'⟩
    obtain ⟨hcovers, hancestors⟩ := @walk_covers m _ d.ancestors {} unvisited_start
    -- Every name on the way includes the next one, so it is defined and was come to.
    have hvisited : m.defines name = true →
        name ∈ (m.walk m.definitions.length d.ancestors {}).visited := by
      induction hreach generalizing d' with
      | refl => exact hancestors included hincluded
      | tail _ hstep ih =>
        have hdefined := hstep.defines
        obtain ⟨middle, hmiddle, hmem⟩ := hstep
        exact hcovers.closed (ih hmiddle hdefined) (by simp) ⟨middle, hmiddle, hmem⟩
    exact hcovers.leaves (hvisited (defines_of_find? hd')) (by simp) hd'

/-- The lineage of a definition is the definition and everything it includes,
directly or through others. -/
theorem mem_lineage_iff {d d' : Definition} :
    d' ∈ m.lineage d ↔ d' = d ∨ ∃ name, m.Inherits d name ∧ m.find? name = some d' := by
  rw [lineage, List.mem_append, mem_left_iff, List.mem_singleton, or_comm]

theorem mem_lineage_of_reaches {d d' : Definition} {name name' : String}
    (hd : m.find? name = some d) (hreach : ReflTransGen m.Includes name name')
    (hd' : m.find? name' = some d') : d' ∈ m.lineage d := by
  rcases hreach.cases_head with rfl | ⟨included, ⟨d₁, hd₁, hincluded⟩, hrest⟩
  · exact mem_lineage_iff.mpr (Or.inl (eq_of_find? hd' hd))
  · obtain rfl := eq_of_find? hd hd₁
    exact mem_lineage_iff.mpr (Or.inr ⟨name', ⟨included, hincluded, hrest⟩, hd'⟩)

/-! ## Elements -/

/-- The definition of a name has an element of its own. -/
def Declares (m : Model) (name element : String) : Prop :=
  ∃ d, m.find? name = some d ∧ element ∈ Table.names d.ownElements

theorem mem_names_foldl_ownElements {ds : List Definition} {found : Table Definition}
    {element : String} :
    element ∈ Table.names (ds.foldl (fun found d => found.putAll d.ownElements) found) ↔
      element ∈ Table.names found ∨ ∃ d ∈ ds, element ∈ Table.names d.ownElements := by
  induction ds generalizing found with
  | nil => simp
  | cons d rest ih =>
    rw [List.foldl_cons, ih, Table.mem_names_putAll, List.exists_mem_cons_iff, or_assoc]

/-- The elements of a definition are the own elements of its lineage. -/
theorem mem_names_allElements {d : Definition} {element : String} :
    element ∈ Table.names (m.allElements d) ↔
      ∃ d' ∈ m.lineage d, element ∈ Table.names d'.ownElements := by
  rw [allElements, mem_names_foldl_ownElements, Table.names_nil, List.mem_nil_iff, false_or]

theorem isInherited_iff {d : Definition} {element : String} :
    m.isInherited d element = true ↔ ∃ included ∈ d.ancestors, ∃ parent,
      m.find? included = some parent ∧ element ∈ Table.names (m.allElements parent) := by
  simp only [isInherited, List.any_eq_true, Option.any_eq_true, Table.mem_names_iff]

/-- The inherited elements are the own elements of everything that a definition includes,
directly or through others. -/
theorem isInherited_iff_declares {d : Definition} {element : String} :
    m.isInherited d element = true ↔ ∃ name, m.Inherits d name ∧ m.Declares name element := by
  rw [isInherited_iff]
  constructor
  · rintro ⟨included, hincluded, parent, hparent, helement⟩
    obtain ⟨d', hd', hown⟩ := mem_names_allElements.mp helement
    rcases mem_lineage_iff.mp hd' with rfl | ⟨name, ⟨next, hnext, hreach⟩, hfind⟩
    · exact ⟨included, ⟨included, hincluded, .refl⟩, d', hparent, hown⟩
    · exact ⟨name, ⟨included, hincluded, hreach.head ⟨parent, hparent, hnext⟩⟩, d', hfind, hown⟩
  · rintro ⟨name, ⟨included, hincluded, hreach⟩, d', hd', hown⟩
    obtain ⟨parent, hparent⟩ : ∃ parent, m.find? included = some parent := by
      rcases hreach.cases_head with rfl | ⟨_, ⟨parent, hparent, -⟩, -⟩
      · exact ⟨d', hd'⟩
      · exact ⟨parent, hparent⟩
    exact ⟨included, hincluded, parent, hparent,
      mem_names_allElements.mpr ⟨d', mem_lineage_of_reaches hparent hreach hd', hown⟩⟩

/-- An element of a definition is its own, or it is inherited. -/
theorem mem_names_allElements_iff {d : Definition} {element : String} :
    element ∈ Table.names (m.allElements d) ↔
      element ∈ Table.names d.ownElements ∨ m.isInherited d element = true := by
  rw [mem_names_allElements, isInherited_iff_declares]
  constructor
  · rintro ⟨d', hd', hown⟩
    rcases mem_lineage_iff.mp hd' with rfl | ⟨name, hinherits, hfind⟩
    · exact Or.inl hown
    · exact Or.inr ⟨name, hinherits, d', hfind, hown⟩
  · rintro (hown | ⟨name, hinherits, d', hfind, hown⟩)
    · exact ⟨d, mem_lineage_iff.mpr (Or.inl rfl), hown⟩
    · exact ⟨d', mem_lineage_iff.mpr (Or.inr ⟨name, hinherits, hfind⟩), hown⟩

/-- An element of a type. -/
def elementOf (type : String) : Definition := { type := some (.name type) }

/-! ## Where elements are introduced -/

/-- A definition has an element of its own and does not inherit it. -/
def Introduces (m : Model) (name element : String) : Prop :=
  ∃ d, m.find? name = some d ∧ element ∈ Table.names d.ownElements ∧
    m.isInherited d element = false

/-- Where no definition includes itself, includes come to an end. -/
theorem AcyclicIncludes.wellFounded (h : m.AcyclicIncludes) :
    WellFounded fun a b : { name // name ∈ Table.names m.definitions } =>
      TransGen m.Includes b.1 a.1 := by
  have : IsTrans { name // name ∈ Table.names m.definitions }
      fun a b => TransGen m.Includes b.1 a.1 := ⟨fun _ _ _ hab hbc => hbc.trans hab⟩
  have : Std.Irrefl fun a b : { name // name ∈ Table.names m.definitions } =>
      TransGen m.Includes b.1 a.1 := ⟨fun a => h a.1⟩
  exact Finite.wellFounded_of_trans_of_irrefl _

/-- An element of a definition is introduced by it or by something it includes. -/
theorem exists_introduces (h : m.AcyclicIncludes) {name element : String} {d : Definition}
    (hd : m.find? name = some d) (helement : element ∈ Table.names (m.allElements d)) :
    ∃ n, ReflTransGen m.Includes name n ∧ m.Introduces n element := by
  have hall : ∀ (entry : { name // name ∈ Table.names m.definitions }) (d : Definition),
      m.find? entry.1 = some d → element ∈ Table.names (m.allElements d) →
        ∃ n, ReflTransGen m.Includes entry.1 n ∧ m.Introduces n element := by
    intro entry
    -- An inherited element is looked for in what the definition includes.
    induction entry using h.wellFounded.induction with
    | _ entry ih =>
      intro d hd helement
      cases hinherited : m.isInherited d element with
      | false =>
        have hown := (mem_names_allElements_iff.mp helement).resolve_right (by simp [hinherited])
        exact ⟨entry.1, .refl, d, hd, hown, hinherited⟩
      | true =>
        obtain ⟨included, hincluded, parent, hparent, hparents⟩ := isInherited_iff.mp hinherited
        have hstep : m.Includes entry.1 included := ⟨d, hd, hincluded⟩
        obtain ⟨n, hreach, hintroduces⟩ := ih ⟨included, mem_names_of_find? hparent⟩
          (.single hstep) parent hparent hparents
        exact ⟨n, hreach.head hstep, hintroduces⟩
  exact hall ⟨name, mem_names_of_find? hd⟩ d hd helement

/-- The elements of a definition are those that it introduces, or that something it
includes does. -/
theorem mem_names_allElements_iff_introduces (h : m.AcyclicIncludes) {name element : String}
    {d : Definition} (hd : m.find? name = some d) :
    element ∈ Table.names (m.allElements d) ↔
      ∃ n, ReflTransGen m.Includes name n ∧ m.Introduces n element := by
  refine ⟨exists_introduces h hd, fun ⟨n, hreach, d', hd', hown, _⟩ => ?_⟩
  exact mem_names_allElements.mpr ⟨d', mem_lineage_of_reaches hd hreach hd', hown⟩

end Model

end SchemaTypes
