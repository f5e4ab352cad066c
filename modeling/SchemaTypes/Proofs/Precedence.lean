import SchemaTypes.Proofs.Inheritance

/-!
# Which element is inherited

The definitions of a lineage hand their elements on one after the other, and a
later element takes the place of an earlier one of the same name
(`Table.get?_putAll`).  So the own elements of a definition win, and the names
that only the definition has come last (`Table.names_putAll`).

Where no definition includes itself, a walk leaves every definition after all that
it includes, directly or through others (`Model.Postordered`).  So of the included
definitions that have an element of a name the one that hands it on is included by
none of the others.

`Model.inheritance` puts this together for every model.  Includes may come back to
where they started, and then a definition is one of those that it inherits from.
Its own names are inherited ones there, and some of them come before the names of
other definitions (`Model.own_before_included`).
-/

namespace SchemaTypes

open Relation

namespace Table

variable {α : Type}

theorem get?_putAll (t u : Table α) (name : String) :
    (t.putAll u).get? name = ((ofPairs u).get? name).or (t.get? name) := by
  induction u generalizing t with
  | nil => rfl
  | cons entry rest ih =>
    have hput : ∀ t : Table α, (t.putAll (entry :: rest)).get? name =
        ((ofPairs rest).get? name).or ((t.put entry.1 entry.2).get? name) := fun t => ih _
    rw [ofPairs, hput t, hput [], Option.or_assoc, get?_put, get?_put]
    split
    · simp
    · simp [get?]

theorem names_putAll (t u : Table α) :
    names (t.putAll u) = names t ++ (names (ofPairs u)).filter (· ∉ names t) := by
  induction u using List.reverseRecOn with
  | nil => simp [putAll, ofPairs]
  | append_singleton rest entry ih =>
    have hput : ∀ t : Table α,
        t.putAll (rest ++ [entry]) = (t.putAll rest).put entry.1 entry.2 :=
      fun t => by simp [putAll]
    have hpairs : ofPairs (rest ++ [entry]) = (ofPairs rest).put entry.1 entry.2 := hput []
    have hmem : entry.1 ∈ names (t.putAll rest) ↔
        entry.1 ∈ names t ∨ entry.1 ∈ names (ofPairs rest) := by
      simp [ofPairs, mem_names_putAll]
    rw [hput, hpairs, names_put, names_put, ih]
    rw [ih] at hmem
    by_cases hold : entry.1 ∈ names t
    · rw [if_pos (hmem.mpr (Or.inl hold))]
      split
      · rfl
      · simp [hold]
    · by_cases hlater : entry.1 ∈ names (ofPairs rest)
      · rw [if_pos (hmem.mpr (Or.inr hlater)), if_pos hlater]
      · rw [if_neg fun h => (hmem.mp h).elim hold hlater, if_neg hlater]
        simp [hold]

theorem isSome_get?_ofPairs {u : Table α} {name : String} :
    ((ofPairs u).get? name).isSome = true ↔ name ∈ names u := by
  have h := mem_names_iff (ofPairs u) name
  rw [ofPairs, mem_names_putAll, names_nil, List.mem_nil_iff, false_or] at h
  exact h.symm

end Table

/-- The own element of a name: the last one, should the name stand there twice. -/
def Definition.ownElement? (d : Definition) (name : String) : Option Definition :=
  (Table.ofPairs d.ownElements).get? name

theorem Definition.ownElement?_isSome {d : Definition} {name : String} :
    (d.ownElement? name).isSome = true ↔ name ∈ Table.names d.ownElements :=
  Table.isSome_get?_ofPairs

namespace Model

variable {m : Model}

/-! ## The walk over included definitions -/

/-- A walk with a level for every name it has not come to is the same with more
levels. -/
theorem walk_levels {levels more : Nat} {names : List String} {w : Walk}
    (hlevels : (m.unvisited w).length ≤ levels) (hmore : levels ≤ more) :
    m.walk more names w = m.walk levels names w := by
  induction levels generalizing more names w with
  | zero =>
    -- Every name that is defined was come to, so there is nothing left to walk through.
    have hall : ∀ name, m.defines name = true → name ∈ w.visited := by
      intro name hdefined
      by_contra hnew
      have hpos := List.length_pos_of_mem (mem_unvisited (w := w).mpr ⟨hdefined, hnew⟩)
      omega
    cases more with
    | zero => rfl
    | succ more =>
      rw [walk, walk]
      induction names with
      | nil => rfl
      | cons name rest ih =>
        rw [List.foldl_cons]
        split
        · exact ih
        · next hnew =>
          cases hd : m.find? name with
          | none => exact ih
          | some d => exact absurd (hall name (defines_of_find? hd)) (by simpa using hnew)
  | succ levels ih =>
    obtain ⟨more, rfl⟩ : ∃ n, more = n + 1 := ⟨more - 1, by omega⟩
    rw [walk, walk]
    induction names generalizing w with
    | nil => rfl
    | cons name rest ihnames =>
      rw [List.foldl_cons, List.foldl_cons]
      split
      · exact ihnames hlevels
      · next hnew =>
        cases hd : m.find? name with
        | none => exact ihnames hlevels
        | some d =>
          have hnew : name ∉ w.visited := by simpa using hnew
          have hless := length_unvisited_enter (defines_of_find? hd) hnew
          have hinner : (m.unvisited (w.enter name)).length ≤ levels := by omega
          obtain ⟨hcovers, hancestors⟩ := @walk_covers m _ d.ancestors _ hinner
          have haround := hcovers.around hd hancestors
          simp only [ih hinner (by omega : levels ≤ more)]
          exact ihnames ((unvisited_sublist haround.visited).length_le.trans hlevels)

/-- What a walk comes to is defined, and it has every property that goes from a
definition to what it includes. -/
theorem walk_visited {P : String → Prop}
    (hincludes : ∀ {name included}, P name → m.Includes name included → P included)
    {levels : Nat} {names : List String} {w : Walk} (hnames : ∀ name ∈ names, P name)
    (hw : ∀ name ∈ w.visited, P name ∧ m.defines name = true) :
    ∀ name ∈ (m.walk levels names w).visited, P name ∧ m.defines name = true := by
  induction levels generalizing names w with
  | zero => exact hw
  | succ levels ih =>
    rw [walk]
    induction names generalizing w with
    | nil => exact hw
    | cons name rest ihnames =>
      obtain ⟨hname, hrest⟩ := List.forall_mem_cons.mp hnames
      rw [List.foldl_cons]
      apply ihnames hrest
      split
      · exact hw
      · cases hd : m.find? name with
        | none => exact hw
        | some d =>
          exact ih (w := w.enter name) (fun included hmem => hincludes hname ⟨d, hd, hmem⟩)
            (List.forall_mem_cons.mpr ⟨⟨hname, defines_of_find? hd⟩, hw⟩)

/-- The names of the definitions that a walk has left, in order, and each of them
after all names that it includes. -/
structure Postordered (m : Model) (order : List String) (w : Walk) : Prop where
  named : List.Forall₂ (fun name d => m.find? name = some d) order w.left
  visited : order ⊆ w.visited
  closed : ∀ {name included}, name ∈ order → m.Includes name included →
    m.defines included = true → included ∈ order
  later : order.Pairwise fun name next => ¬ TransGen m.Includes name next

theorem Postordered.reaches {order : List String} {w : Walk} (h : m.Postordered order w)
    {name next : String} (hname : name ∈ order) (hreach : TransGen m.Includes name next)
    (hdefined : m.defines next = true) : next ∈ order := by
  induction hreach with
  | single hstep => exact h.closed hname hstep hdefined
  | tail _ hstep ih => exact h.closed (ih hstep.defines) hstep hdefined

theorem Postordered.leave {order : List String} {w : Walk} (h : m.Postordered order w)
    {name : String} {d : Definition} (hd : m.find? name = some d) (hnew : name ∉ order)
    (hvisited : name ∈ w.visited)
    (hancestors : ∀ included ∈ d.ancestors, m.defines included = true → included ∈ order) :
    m.Postordered (order ++ [name]) (w.leave d) where
  named := List.rel_append h.named (.cons hd .nil)
  visited := List.append_subset.mpr ⟨h.visited, by simpa [Walk.leave] using hvisited⟩
  closed {n included} hn hincludes hdefined := by
    rcases List.mem_append.mp hn with hn | hn
    · exact List.mem_append_left _ (h.closed hn hincludes hdefined)
    · obtain rfl := List.mem_singleton.mp hn
      obtain ⟨d', hd', hmem⟩ := hincludes
      obtain rfl := eq_of_find? hd hd'
      exact List.mem_append_left _ (hancestors included hmem hdefined)
  later := by
    refine List.pairwise_append.mpr
      ⟨h.later, List.pairwise_singleton _ _, fun n hn next hnext => ?_⟩
    obtain rfl := List.mem_singleton.mp hnext
    exact fun hreach => hnew (h.reaches hn hreach (defines_of_find? hd))

/-- A walk goes on from another and leaves some names more, all of them new. -/
structure Continues (m : Model) (order new : List String) (w w' : Walk) : Prop where
  postordered : m.Postordered (order ++ new) w'
  kept : w.visited ⊆ w'.visited
  visited : w'.visited ⊆ w.visited ++ new
  fresh : ∀ n ∈ new, n ∉ w.visited

theorem Continues.refl {order : List String} {w : Walk} (h : m.Postordered order w) :
    m.Continues order [] w w :=
  ⟨by simpa using h, List.Subset.refl _, by simp, by simp⟩

theorem Continues.trans {order new more : List String} {w w' w'' : Walk}
    (h : m.Continues order new w w') (h' : m.Continues (order ++ new) more w' w'') :
    m.Continues order (new ++ more) w w'' where
  postordered := by simpa using h'.postordered
  kept := List.Subset.trans h.kept h'.kept
  visited n hn := by
    rcases List.mem_append.mp (h'.visited hn) with hn | hn
    · rw [← List.append_assoc]
      exact List.mem_append_left _ (h.visited hn)
    · simp [hn]
  fresh n hn := by
    rcases List.mem_append.mp hn with hn | hn
    · exact h.fresh n hn
    · exact fun hvisited => h'.fresh n hn (h.kept hvisited)

/-- Coming to a definition and leaving it again, with a walk over what it includes in
between. -/
theorem Continues.around {order new : List String} {w w' : Walk} {name : String}
    {d : Definition} (hd : m.find? name = some d) (hnew : name ∉ w.visited)
    (horder : order ⊆ w.visited) (h : m.Continues order new (w.enter name) w')
    (hancestors : ∀ included ∈ d.ancestors, m.defines included = true → included ∈ order ++ new) :
    m.Continues order (new ++ [name]) w (w'.leave d) where
  postordered := by
    have hentered : name ∈ (w.enter name).visited := List.mem_cons_self
    have hleft : name ∉ order ++ new := fun hmem => (List.mem_append.mp hmem).elim
      (fun hold => hnew (horder hold)) fun hn => h.fresh name hn hentered
    rw [← List.append_assoc]
    exact h.postordered.leave hd hleft (h.kept hentered) hancestors
  kept n hn := h.kept (List.mem_cons_of_mem _ hn)
  visited n hn := by
    rcases List.mem_append.mp (h.visited hn) with hn | hn
    · rcases List.mem_cons.mp hn with rfl | hn
      · simp
      · exact List.mem_append_left _ hn
    · simp [hn]
  fresh n hn := by
    rcases List.mem_append.mp hn with hn | hn
    · exact fun hvisited => h.fresh n hn (List.mem_cons_of_mem _ hvisited)
    · exact List.mem_singleton.mp hn ▸ hnew

/-- What a walk has come to and not left lies around the names it is given, and includes
all of them. -/
def Surrounds (m : Model) (order : List String) (w : Walk) (names : List String) : Prop :=
  ∀ n ∈ w.visited, n ∈ order ∨ ∀ name ∈ names, TransGen m.Includes n name

section Surrounds

variable {order names : List String} {w : Walk}

/-- A name that was come to is left, or it would include itself. -/
theorem Surrounds.mem_order (h : m.Surrounds order w names) (hacyclic : m.AcyclicIncludes)
    {name : String} (hname : name ∈ names) (hvisited : name ∈ w.visited) : name ∈ order :=
  (h name hvisited).resolve_right fun hreach => hacyclic name (hreach name hname)

theorem Surrounds.enter {name : String} {d : Definition} (h : m.Surrounds order w (name :: names))
    (hd : m.find? name = some d) : m.Surrounds order (w.enter name) d.ancestors := by
  intro n hn
  rcases List.mem_cons.mp hn with rfl | hn
  · exact Or.inr fun included hincluded => .single ⟨d, hd, hincluded⟩
  · refine (h n hn).imp_right fun hall included hincluded => ?_
    exact (hall name List.mem_cons_self).tail ⟨d, hd, hincluded⟩

theorem Surrounds.continue {name : String} {new : List String} {w' : Walk}
    (h : m.Surrounds order w (name :: names)) (hcontinues : m.Continues order new w w') :
    m.Surrounds (order ++ new) w' names := by
  intro n hn
  rcases List.mem_append.mp (hcontinues.visited hn) with hn | hn
  · exact (h n hn).imp (List.mem_append_left _) fun hall => (List.forall_mem_cons.mp hall).2
  · exact Or.inl (List.mem_append_right _ hn)

end Surrounds

/-- Where no definition includes itself, a walk leaves what it comes to in an order in
which everything stands after what it includes. -/
theorem walk_continues (hacyclic : m.AcyclicIncludes) {levels : Nat} {names : List String}
    {w : Walk} {order : List String} (hlevels : (m.unvisited w).length ≤ levels)
    (h : m.Postordered order w) (haround : m.Surrounds order w names) :
    ∃ new, m.Continues order new w (m.walk levels names w) ∧
      ∀ name ∈ names, m.defines name = true → name ∈ order ++ new := by
  induction levels generalizing names w order with
  | zero =>
    refine ⟨[], .refl h, fun name hname hdefined => ?_⟩
    have hvisited : name ∈ w.visited := by
      by_contra hnew
      have hpos := List.length_pos_of_mem (mem_unvisited (w := w).mpr ⟨hdefined, hnew⟩)
      omega
    simpa using haround.mem_order hacyclic hname hvisited
  | succ levels ih =>
    rw [walk]
    induction names generalizing w order with
    | nil => exact ⟨[], .refl h, by simp⟩
    | cons name rest ihnames =>
      rw [List.foldl_cons]
      -- One name at a time: the rest starts from where the first one has led.
      have hfirst : ∀ {new w' w''}, m.Continues order new w w' →
          (m.defines name = true → name ∈ order ++ new) →
          (∃ more, m.Continues (order ++ new) more w' w'' ∧
            ∀ n ∈ rest, m.defines n = true → n ∈ order ++ new ++ more) →
          ∃ more, m.Continues order more w w'' ∧
            ∀ n ∈ name :: rest, m.defines n = true → n ∈ order ++ more := by
        rintro new w' w'' hcontinues hname ⟨more, hmore, hrest⟩
        rw [List.append_assoc] at hrest
        refine ⟨new ++ more, hcontinues.trans hmore,
          List.forall_mem_cons.mpr ⟨fun hd => ?_, hrest⟩⟩
        rw [← List.append_assoc]
        exact List.mem_append_left _ (hname hd)
      split
      · next hvisited =>
        have hvisited : name ∈ w.visited := by simpa using hvisited
        have hleft := haround.mem_order hacyclic List.mem_cons_self hvisited
        have hcontinues := Continues.refl h
        exact hfirst hcontinues (fun _ => List.mem_append_left _ hleft)
          (ihnames hlevels hcontinues.postordered (haround.continue hcontinues))
      · next hnew =>
        have hnew : name ∉ w.visited := by simpa using hnew
        cases hd : m.find? name with
        | none =>
          have hcontinues := Continues.refl h
          refine hfirst hcontinues (fun hdefined => ?_)
            (ihnames hlevels hcontinues.postordered (haround.continue hcontinues))
          rw [Model.defines, hd] at hdefined
          cases hdefined
        | some d =>
          have hless := length_unvisited_enter (defines_of_find? hd) hnew
          have hentered : m.Postordered order (w.enter name) :=
            ⟨h.named, List.Subset.trans h.visited (List.subset_cons_self _ _), h.closed, h.later⟩
          obtain ⟨new, hinner, hancestors⟩ :=
            @ih d.ancestors (w.enter name) order (by omega) hentered (haround.enter hd)
          have hcontinues := hinner.around hd hnew h.visited hancestors
          exact hfirst hcontinues (fun _ => by simp)
            (ihnames ((unvisited_sublist hcontinues.kept).length_le.trans hlevels)
              hcontinues.postordered (haround.continue hcontinues))

/-! ## The element of a name -/

/-- The element that a definition has of a name is the one of the last definition of its
lineage that has one. -/
theorem get?_allElements {d : Definition} {name : String} :
    (m.allElements d).get? name =
      (m.lineage d).reverse.findSome? fun parent => parent.ownElement? name := by
  have fold : ∀ (ds : List Definition) (found : Table Definition),
      (ds.foldl (fun found d => found.putAll d.ownElements) found).get? name =
        (ds.reverse.findSome? fun parent => parent.ownElement? name).or (found.get? name) := by
    intro ds
    induction ds with
    | nil => simp
    | cons parent rest ih =>
      intro found
      rw [List.foldl_cons, ih, Table.get?_putAll, List.reverse_cons, List.findSome?_append,
        List.findSome?_singleton, Option.or_assoc]
      rfl
  rw [allElements, fold, Table.get?, Option.or_none]

theorem get?_allElements_eq {d : Definition} {name : String} :
    (m.allElements d).get? name = (d.ownElement? name).or
      ((m.walk m.definitions.length d.ancestors {}).left.reverse.findSome? fun parent =>
        parent.ownElement? name) := by
  rw [get?_allElements, lineage, List.reverse_append]
  cases h : d.ownElement? name <;> simp [h]

/-! ## What a definition inherits -/

/-- The inherited names come first, and then the own ones that are not inherited. -/
theorem names_allElements {d : Definition} :
    ∃ inherited, (∀ n ∈ inherited, m.isInherited d n = true) ∧
      Table.names (m.allElements d) = inherited ++
        (Table.names (Table.ofPairs d.ownElements)).filter fun n => !m.isInherited d n := by
  obtain ⟨found, hfound⟩ : ∃ found : Table Definition, found =
      (m.walk m.definitions.length d.ancestors {}).left.foldl
        (fun found d => Table.putAll found d.ownElements) [] := ⟨_, rfl⟩
  have hinherited : ∀ n, n ∈ Table.names found ↔ m.isInherited d n = true := by
    intro n
    rw [isInherited_iff_declares, hfound, mem_names_foldl_ownElements]
    simp only [Table.names_nil, List.mem_nil_iff, false_or, mem_left_iff, Declares]
    constructor
    · rintro ⟨d', ⟨name, hinherits, hd'⟩, hown⟩
      exact ⟨name, hinherits, d', hd', hown⟩
    · rintro ⟨name, hinherits, d', hd', hown⟩
      exact ⟨d', ⟨name, hinherits, hd'⟩, hown⟩
  have hall : m.allElements d = found.putAll d.ownElements := by
    rw [allElements, lineage, List.foldl_append, ← hfound]
    rfl
  refine ⟨Table.names found, fun n hn => (hinherited n).mp hn, ?_⟩
  rw [hall, Table.names_putAll]
  congr 1
  refine List.filter_congr fun n _ => ?_
  simp [hinherited n]

/-- Of definitions that stand after none that includes them, the first one that has an
element of a name is included by no other one that has one. -/
theorem exists_nearest (hacyclic : m.AcyclicIncludes) {order : List String}
    {parents : List Definition} {element : String} {e : Definition}
    (hnamed : List.Forall₂ (fun name d => m.find? name = some d) order parents)
    (hlater : order.Pairwise fun name next => ¬ TransGen m.Includes next name)
    (hfirst : (parents.findSome? fun parent => parent.ownElement? element) = some e) :
    ∃ name ∈ order, (∃ parent, m.find? name = some parent ∧ parent.ownElement? element = some e) ∧
      ∀ other ∈ order, m.Declares other element → ¬ TransGen m.Includes other name := by
  induction hnamed with
  | nil => cases hfirst
  | @cons name parent rest parents hparent _ ih =>
    obtain ⟨hname, hrest⟩ := List.pairwise_cons.mp hlater
    rw [List.findSome?_cons] at hfirst
    cases hown : parent.ownElement? element with
    | some found =>
      simp only [hown, Option.some.injEq] at hfirst
      refine ⟨name, List.mem_cons_self, ⟨parent, hparent, hfirst ▸ hown⟩, fun other hother _ => ?_⟩
      rcases List.mem_cons.mp hother with rfl | hother
      · exact hacyclic other
      · exact hname other hother
    | none =>
      simp only [hown] at hfirst
      obtain ⟨nearest, hmem, hfound, hothers⟩ := ih hrest hfirst
      refine ⟨nearest, List.mem_cons_of_mem _ hmem, hfound, fun other hother hdeclares => ?_⟩
      rcases List.mem_cons.mp hother with rfl | hother
      · obtain ⟨d, hd, hmem⟩ := hdeclares
        obtain rfl := eq_of_find? hd hparent
        have hsome := Definition.ownElement?_isSome.mpr hmem
        rw [hown] at hsome
        cases hsome
      · exact hothers other hother hdeclares

/-- Where no definition includes itself, the walk over what a definition includes has an
order of all of it in which everything stands after what it includes. -/
theorem exists_order (hacyclic : m.AcyclicIncludes) (d : Definition) :
    ∃ order, m.Postordered order (m.walk m.definitions.length d.ancestors {}) ∧
      ∀ name, name ∈ order ↔ m.Inherits d name ∧ m.defines name = true := by
  have hstart : m.Postordered [] {} := ⟨.nil, by simp, by simp, .nil⟩
  obtain ⟨order, ⟨hordered, -, -, -⟩, hancestors⟩ :=
    @walk_continues m hacyclic _ d.ancestors {} [] unvisited_start hstart (by simp [Surrounds])
  rw [List.nil_append] at hordered hancestors
  refine ⟨order, hordered, fun name => ⟨fun hname => ?_, ?_⟩⟩
  · exact walk_visited (P := m.Inherits d)
      (fun ⟨included, hincluded, hreach⟩ hstep => ⟨included, hincluded, hreach.tail hstep⟩)
      (fun name hname => ⟨name, hname, .refl⟩) (by simp) name (hordered.visited hname)
  · rintro ⟨⟨included, hincluded, hreach⟩, hdefined⟩
    rcases reflTransGen_iff_eq_or_transGen.mp hreach with rfl | hreach
    · exact hancestors name hincluded hdefined
    · obtain ⟨_, ⟨parent, hparent, -⟩, -⟩ := TransGen.head'_iff.mp hreach
      exact hordered.reaches (hancestors included hincluded (defines_of_find? hparent)) hreach
        hdefined

/-- What the elements of a definition are, whatever its includes are. -/
structure Inheritance (m : Model) (d : Definition) : Prop where
  /-- The walk over what it includes comes to an end by itself: more levels come to nothing
  more. -/
  ends : ∀ levels, m.definitions.length ≤ levels →
    m.walk levels d.ancestors {} = m.walk m.definitions.length d.ancestors {}
  /-- Its elements are its own and those of everything it includes. -/
  names : ∀ n, n ∈ Table.names (m.allElements d) ↔
    n ∈ Table.names d.ownElements ∨ ∃ name, m.Inherits d name ∧ m.Declares name n
  /-- Its own elements win. -/
  own : ∀ n ∈ Table.names d.ownElements, (m.allElements d).get? n = d.ownElement? n
  /-- The names that something it includes has come first, and then the names that only it has,
  in its order. -/
  order : ∃ inherited, (∀ n ∈ inherited, m.isInherited d n = true) ∧
    Table.names (m.allElements d) = inherited ++
      (Table.names (Table.ofPairs d.ownElements)).filter fun n => !m.isInherited d n
  /-- The inherited names are those of everything it includes. -/
  inherited : ∀ n, m.isInherited d n = true ↔ ∃ name, m.Inherits d name ∧ m.Declares name n
  /-- Where no definition includes itself, an element that is not its own is handed on by
  something it includes, and nothing else it includes that has an element of the name
  includes that again. -/
  nearest : m.AcyclicIncludes → ∀ n e, n ∉ Table.names d.ownElements →
    (m.allElements d).get? n = some e → ∃ name, m.Inherits d name ∧
      (∃ parent, m.find? name = some parent ∧ parent.ownElement? n = some e) ∧
      ∀ other, m.Inherits d other → m.Declares other n → ¬ TransGen m.Includes other name

theorem inheritance (m : Model) (d : Definition) : m.Inheritance d where
  ends levels hlevels := walk_levels unvisited_start hlevels
  names n := by rw [mem_names_allElements_iff, isInherited_iff_declares]
  own n hn := by
    obtain ⟨e, he⟩ := Option.isSome_iff_exists.mp (Definition.ownElement?_isSome.mpr hn)
    rw [get?_allElements_eq, he, Option.some_or]
  order := names_allElements
  inherited _ := isInherited_iff_declares
  nearest hacyclic n e hn he := by
    have hown : d.ownElement? n = none := by
      rw [← Option.not_isSome_iff_eq_none, Definition.ownElement?_isSome]
      exact hn
    rw [get?_allElements_eq, hown, Option.none_or] at he
    obtain ⟨order, hordered, hmem⟩ := exists_order hacyclic d
    obtain ⟨name, hname, hparent, hothers⟩ := exists_nearest hacyclic
      (List.forall₂_reverse_iff.mpr hordered.named) (List.pairwise_reverse.mpr hordered.later) he
    refine ⟨name, ((hmem name).mp (List.mem_reverse.mp hname)).1, hparent, ?_⟩
    rintro other hother ⟨d', hd', hown⟩
    have hlisted := (hmem other).mpr ⟨hother, defines_of_find? hd'⟩
    exact hothers other (List.mem_reverse.mpr hlisted) ⟨d', hd', hown⟩

/-- Goods include what is stored and what is priced. -/
def goods : Definition := {
  kind := some .entity
  includes := some ["Stored", "Priced"]
  elements := some [("ID", elementOf "cds.UUID"), ("createdBy", elementOf "Clerk")] }

/-- What is stored and what is priced is tracked, and each has a state of its own in place
of the tracked one. -/
def warehouse : Model where
  definitions := [
    ("Tracked", {
      kind := some .aspect
      elements := some [("createdBy", elementOf "User"), ("state", elementOf "cds.String")] }),
    ("Priced", {
      kind := some .aspect
      includes := some ["Tracked"]
      elements := some [("state", elementOf "PriceState")] }),
    ("Stored", {
      kind := some .aspect
      includes := some ["Tracked"]
      elements := some [("state", elementOf "StockState")] }),
    ("Goods", goods)]

theorem inheritance_goods :
    warehouse.AcyclicIncludes ∧ warehouse.find? "Goods" = some goods ∧
      Table.names (warehouse.allElements goods) = ["createdBy", "state", "ID"] ∧
      (warehouse.allElements goods).get? "createdBy" = some (elementOf "Clerk") ∧
      ∃ name, warehouse.Inherits goods name ∧
        (∃ parent, warehouse.find? name = some parent ∧
          parent.ownElement? "state" = some (elementOf "PriceState")) ∧
        ∀ other, warehouse.Inherits goods other → warehouse.Declares other "state" →
          ¬ TransGen warehouse.Includes other name := by
  have hacyclic : warehouse.AcyclicIncludes := acyclicIncludes_of_order (by decide)
  exact ⟨hacyclic, rfl, by decide, rfl,
    (inheritance warehouse goods).nearest hacyclic "state" (elementOf "PriceState") (by decide)
      rfl⟩

/-- Two definitions that include each other. -/
def couple : Model where
  definitions := [
    ("First", { includes := some ["Second"], elements := some [("a", elementOf "cds.String")] }),
    ("Second", { includes := some ["First"], elements := some [("b", elementOf "cds.String")] })]

theorem own_before_included :
    ∃ first, couple.find? "First" = some first ∧
      Table.names (couple.allElements first) = ["a", "b"] ∧
      (∀ name, couple.Declares name "a" → name = "First") ∧
      couple.Inherits first "Second" ∧ couple.Declares "Second" "b" := by
  refine ⟨_, rfl, by decide, ?_, ⟨"Second", by decide, .refl⟩, _, rfl, by decide⟩
  rintro name ⟨d, hd, hown⟩
  rcases List.mem_cons.mp (find?_eq_some_iff.mp hd) with heq | hmem
  · cases heq
    rfl
  · obtain heq := List.mem_singleton.mp hmem
    cases heq
    exact absurd hown (by decide)

end Model

end SchemaTypes
