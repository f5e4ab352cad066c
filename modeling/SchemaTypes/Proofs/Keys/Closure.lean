import SchemaTypes.Proofs.Lineage
import Mathlib.Logic.Relation

/-!
# Keys as they should be

`Model.KeyClosure` says what the keys of an entity and the foreign keys of an
association are, without a memo and without a bound on the depth.  The keys of
an entity are collected from its key elements in order, and each key element
contributes by what its aliases end in.

The keys of an entity may ask for those of the entity itself.  What is left out
then is a parameter: `nothing` leaves nothing out, so that such an entity has no
closure, and `itself` leaves out the entity where it is asked for on its own
behalf.

A question has at most one closure (`KeyClosure.unique`).  Which entities the
keys of an entity ask for is a relation of its own, `KeysDependOn`.
-/

namespace SchemaTypes

/-- What is asked about keys. -/
inductive KeyQuestion
  /-- The keys of an entity. -/
  | entity (name : String)
  /-- The foreign keys of an association. -/
  | association (a : Definition)

/-- Collects what the members of a list contribute, in order. -/
def Collected {α : Type} (contributes : α → KeyElements → Prop) :
    List α → KeyElements → KeyElements → Prop
  | [], found, keys => keys = found
  | x :: rest, found, keys =>
      ∃ more, contributes x more ∧ Collected contributes rest (found.putAll more) keys

namespace Collected

variable {α : Type} {c c' : α → KeyElements → Prop}

theorem imp : ∀ {xs : List α} {found keys : KeyElements},
    (∀ x ∈ xs, ∀ more, c x more → c' x more) → Collected c xs found keys →
      Collected c' xs found keys
  | [], _, _, _, h => h
  | x :: _, _, _, hc, ⟨more, hx, hrest⟩ =>
    ⟨more, hc x List.mem_cons_self more hx,
      imp (fun y hy => hc y (List.mem_cons_of_mem _ hy)) hrest⟩

theorem unique : ∀ {xs : List α} {found keys keys' : KeyElements},
    (∀ x ∈ xs, ∀ more more', c x more → c' x more' → more = more') →
      Collected c xs found keys → Collected c' xs found keys' → keys = keys'
  | [], _, _, _, _, h, h' => h.trans h'.symm
  | x :: _, _, _, _, hc, ⟨more, hx, hrest⟩, ⟨more', hx', hrest'⟩ => by
    have hmore := hc x List.mem_cons_self more more' hx hx'
    subst hmore
    exact unique (fun y hy => hc y (List.mem_cons_of_mem _ hy)) hrest hrest'

/-- Every member of a list that was collected contributes. -/
theorem exists_of_mem : ∀ {xs : List α} {found keys : KeyElements}, Collected c xs found keys →
    ∀ x ∈ xs, ∃ more, c x more
  | y :: _, _, _, ⟨more, hy, hrest⟩, x, hx => by
    rcases List.mem_cons.mp hx with rfl | hx
    · exact ⟨more, hy⟩
    · exact exists_of_mem hrest x hx

end Collected

namespace Model

/-! ## What asks for what -/

/-- The key elements of a definition, inherited ones included. -/
def keyElements (m : Model) (d : Definition) : Table Definition :=
  (m.allElements d).filter (·.2.key)

/-- The aliases of an element end in an association that has foreign keys. -/
def EndsIn (m : Model) (element a : Definition) : Prop :=
  m.chase element = .ok a ∧ a.isManagedToOne = true

/-- A key element of a definition ends in the association. -/
def KeyAssociation (m : Model) (d a : Definition) : Prop :=
  ∃ entry ∈ m.keyElements d, m.EndsIn entry.2 a

/-- The element of a target that a stated key names. -/
def statedElement? (m : Model) (target : Definition) (stated : ForeignKey) : Option Definition :=
  match stated.path with
  | [] => none
  | head :: _ => (m.allElements target).get? head

/-- A key of a list of stated ones names an element of the target that ends in
the association. -/
def StatedAssociation (m : Model) (target : Definition) (stated : List ForeignKey)
    (a : Definition) : Prop :=
  ∃ k ∈ stated, ∃ element, m.statedElement? target k = some element ∧ m.EndsIn element a

/-- An association states a key that ends in another association. -/
def StatesKey (m : Model) (a b : Definition) : Prop :=
  ∃ target d stated, a.target = some target ∧ a.keys = some stated ∧
    m.find? target = some d ∧ m.StatedAssociation d stated b

/-- The foreign keys of an association ask for the keys of an entity. -/
inductive Asks (m : Model) : Definition → String → Prop
  | target {a : Definition} {e : String} : a.target = some e → a.keys = none → Asks m a e
  | stated {a b : Definition} {e : String} : m.StatesKey a b → Asks m b e → Asks m a e

/-- The keys of an entity ask for the keys of another. -/
def KeysDependOn (m : Model) (e f : String) : Prop :=
  ∃ d a, m.find? e = some d ∧ m.KeyAssociation d a ∧ m.Asks a f

/-- A question asks for the keys of an entity. -/
def Wants (m : Model) : KeyQuestion → String → Prop
  | .entity e, f => f = e
  | .association a, f => m.Asks a f

/-- A question is about an entity or leads to it over other entities. -/
def LeadsTo (m : Model) (q : KeyQuestion) (f : String) : Prop :=
  ∃ e, m.Wants q e ∧ Relation.ReflTransGen m.KeysDependOn e f

section Asking

variable {m : Model} {a : Definition} {e f : String}

theorem asks_of_untargeted (ht : a.target = none) : ¬ m.Asks a f := by
  intro h
  cases h with
  | target ht' => rw [ht] at ht'; cases ht'
  | stated hs =>
    obtain ⟨_, _, _, ht', _⟩ := hs
    rw [ht] at ht'
    cases ht'

theorem asks_of_target (ht : a.target = some e) (hk : a.keys = none) : m.Asks a f ↔ f = e := by
  constructor
  · intro h
    cases h with
    | target ht' =>
      rw [ht] at ht'
      cases ht'
      rfl
    | stated hs =>
      obtain ⟨_, _, _, _, hk', _⟩ := hs
      rw [hk] at hk'
      cases hk'
  · rintro rfl
    exact .target ht hk

theorem statesKey_iff {d b : Definition} {stated : List ForeignKey} (ht : a.target = some e)
    (hs : a.keys = some stated) (hd : m.find? e = some d) :
    m.StatesKey a b ↔ m.StatedAssociation d stated b := by
  constructor
  · rintro ⟨e', d', stated', ht', hs', hd', hb⟩
    rw [ht] at ht'
    cases ht'
    rw [hs] at hs'
    cases hs'
    rw [hd] at hd'
    cases hd'
    exact hb
  · exact fun hb => ⟨e, d, stated, ht, hs, hd, hb⟩

theorem asks_iff_of_keys {stated : List ForeignKey} (hs : a.keys = some stated) :
    m.Asks a f ↔ ∃ b, m.StatesKey a b ∧ m.Asks b f := by
  constructor
  · intro h
    cases h with
    | target _ hk => rw [hs] at hk; cases hk
    | stated hb hf => exact ⟨_, hb, hf⟩
  · rintro ⟨b, hb, hf⟩
    exact .stated hb hf

theorem asks_of_unstated {stated : List ForeignKey} (ht : a.target = some e)
    (hs : a.keys = some stated) (hd : m.find? e = none) : ¬ m.Asks a f := by
  rw [asks_iff_of_keys hs]
  rintro ⟨b, ⟨e', d, _, ht', _, hd', _⟩, _⟩
  rw [ht] at ht'
  cases ht'
  rw [hd] at hd'
  cases hd'

theorem asks_of_stated {d : Definition} {stated : List ForeignKey} (ht : a.target = some e)
    (hs : a.keys = some stated) (hd : m.find? e = some d) :
    m.Asks a f ↔ ∃ b, m.StatedAssociation d stated b ∧ m.Asks b f := by
  simp only [asks_iff_of_keys hs, statesKey_iff ht hs hd]

theorem keysDependOn_iff {d : Definition} (hd : m.find? e = some d) :
    m.KeysDependOn e f ↔ ∃ a, m.KeyAssociation d a ∧ m.Asks a f := by
  constructor
  · rintro ⟨d', a, hd', ha, hf⟩
    rw [hd] at hd'
    cases hd'
    exact ⟨a, ha, hf⟩
  · rintro ⟨a, ha, hf⟩
    exact ⟨d, a, hd, ha, hf⟩

end Asking

/-! ## Ranks -/

theorem mem_nodes_of_keyAssociation {m : Model} {e : String} {d a : Definition}
    (hd : m.find? e = some d) (h : m.KeyAssociation d a) : a ∈ m.nodes := by
  obtain ⟨entry, hentry, ha⟩ := h
  exact mem_nodes_of_chase ha.1
    (mem_nodes_of_mem_allElements hd (List.mem_filter.mp hentry).1)

theorem mem_nodes_of_statesKey {m : Model} {a b : Definition} (h : m.StatesKey a b) :
    b ∈ m.nodes := by
  obtain ⟨target, d, stated, _, _, hd, k, _, element, he, hb⟩ := h
  refine mem_nodes_of_chase hb.1 ?_
  simp only [statedElement?] at he
  split at he
  · cases he
  · exact mem_nodes_of_mem_allElements hd (Table.mem_of_get? he)

/-- Where no association states keys, stated keys do not lead back. -/
theorem not_transGen_statesKey {m : Model} (hkeys : ∀ b ∈ m.nodes, b.keys = none)
    (a : Definition) : ¬ Relation.TransGen m.StatesKey a a := by
  intro h
  obtain ⟨b, _, hlast⟩ := Relation.TransGen.tail'_iff.mp h
  obtain ⟨c, hfirst, _⟩ := Relation.TransGen.head'_iff.mp h
  obtain ⟨_, _, _, _, hs, _⟩ := hfirst
  rw [hkeys a (mem_nodes_of_statesKey hlast)] at hs
  cases hs

/-- The key associations of every entity lead to entities of a lower rank. -/
def ranksKeys (m : Model) (rank : String → Nat) : Bool :=
  m.definitions.all fun entry => (m.keyElements entry.2).all fun key =>
    match m.chase key.2 with
    | .error _ => true
    | .ok a => !a.isManagedToOne || a.target.all fun f => decide (rank f < rank entry.1)

/-- Where key associations lead to lower ranks, no entity depends on itself. -/
theorem not_transGen_keysDependOn {m : Model} (rank : String → Nat)
    (hkeys : ∀ b ∈ m.nodes, b.keys = none) (h : m.ranksKeys rank = true) (e : String) :
    ¬ Relation.TransGen m.KeysDependOn e e := by
  have hstep : ∀ {e f}, m.KeysDependOn e f → rank f < rank e := by
    rintro e f ⟨d, a, hd, ha, hasks⟩
    have hnone := hkeys a (mem_nodes_of_keyAssociation hd ha)
    obtain ⟨entry, hentry, hchase, hm⟩ := ha
    have hrank := List.all_eq_true.mp
      (List.all_eq_true.mp h (e, d) (find?_eq_some_iff.mp hd)) entry hentry
    cases hasks with
    | target ht => simpa [hchase, hm, ht] using hrank
    | stated hb =>
      obtain ⟨_, _, _, _, hs, _⟩ := hb
      rw [hnone] at hs
      cases hs
  have hpath : ∀ {f}, Relation.TransGen m.KeysDependOn e f → rank f < rank e := by
    intro f h
    induction h with
    | single h => exact hstep h
    | tail _ h ih => exact Nat.lt_trans (hstep h) ih
  exact fun h => Nat.lt_irrefl _ (hpath h)

/-! ## What elements contribute -/

/-- What an element contributes by the end of its aliases: the foreign keys of
an association that has some, in a form, and otherwise what is plain. -/
def ContributesBy (m : Model) (foreign : Definition → KeyElements → Prop)
    (form : KeyElements → KeyElements) (plain : Definition → KeyElements) (element : Definition)
    (more : KeyElements) : Prop :=
  ∃ a, m.chase element = .ok a ∧
    if a.isManagedToOne then ∃ keys, foreign a keys ∧ more = form keys else more = plain a

/-- What a key element contributes, given the foreign keys of associations.
Other associations contribute nothing. -/
def Contributes (m : Model) (foreign : Definition → KeyElements → Prop)
    (entry : String × Definition) (more : KeyElements) : Prop :=
  m.ContributesBy foreign (named entry.1)
    (fun a => if a.isAssociation then [] else [entry]) entry.2 more

/-- What a stated key contributes, given the foreign keys of associations. -/
def ContributesStated (m : Model) (foreign : Definition → KeyElements → Prop)
    (target : Definition) (stated : ForeignKey) (more : KeyElements) : Prop :=
  match m.statedElement? target stated with
  | none => more = []
  | some element =>
      m.ContributesBy foreign (named stated.suffix) (fun _ => [(stated.suffix, element)])
        element more

section Contributions

variable {m : Model} {foreign foreign' : Definition → KeyElements → Prop}

theorem ContributesBy.imp {form : KeyElements → KeyElements} {plain : Definition → KeyElements}
    {element : Definition} {more : KeyElements}
    (hf : ∀ a, m.EndsIn element a → ∀ keys, foreign a keys → foreign' a keys)
    (h : m.ContributesBy foreign form plain element more) :
    m.ContributesBy foreign' form plain element more := by
  obtain ⟨a, ha, h⟩ := h
  refine ⟨a, ha, ?_⟩
  split
  · next hm =>
    rw [if_pos hm] at h
    obtain ⟨keys, hkeys, hmore⟩ := h
    exact ⟨keys, hf a ⟨ha, hm⟩ keys hkeys, hmore⟩
  · next hm => rwa [if_neg hm] at h

theorem ContributesBy.unique {form : KeyElements → KeyElements}
    {plain : Definition → KeyElements} {element : Definition} {more more' : KeyElements}
    (hf : ∀ a, m.EndsIn element a → ∀ keys keys', foreign a keys → foreign' a keys' → keys = keys')
    (h : m.ContributesBy foreign form plain element more)
    (h' : m.ContributesBy foreign' form plain element more') : more = more' := by
  obtain ⟨a, ha, h⟩ := h
  obtain ⟨a', ha', h'⟩ := h'
  rw [ha] at ha'
  cases ha'
  split at h
  · next hm =>
    rw [if_pos hm] at h'
    obtain ⟨keys, hkeys, rfl⟩ := h
    obtain ⟨keys', hkeys', rfl⟩ := h'
    rw [hf a ⟨ha, hm⟩ keys keys' hkeys hkeys']
  · next hm =>
    rw [if_neg hm] at h'
    exact h.trans h'.symm

/-- An element whose aliases end in an association contributes its foreign
keys. -/
theorem ContributesBy.exists_foreign {form : KeyElements → KeyElements}
    {plain : Definition → KeyElements} {element a : Definition} {more : KeyElements}
    (h : m.ContributesBy foreign form plain element more) (ha : m.EndsIn element a) :
    ∃ keys, foreign a keys := by
  obtain ⟨b, hb, h⟩ := h
  rw [ha.1] at hb
  cases hb
  rw [if_pos ha.2] at h
  obtain ⟨keys, hkeys, _⟩ := h
  exact ⟨keys, hkeys⟩

theorem ContributesStated.imp {target : Definition} {stated : ForeignKey} {more : KeyElements}
    (hf : ∀ element a, m.statedElement? target stated = some element → m.EndsIn element a →
      ∀ keys, foreign a keys → foreign' a keys)
    (h : m.ContributesStated foreign target stated more) :
    m.ContributesStated foreign' target stated more := by
  simp only [ContributesStated] at h ⊢
  cases he : m.statedElement? target stated with
  | none => simpa only [he] using h
  | some element =>
    simp only [he] at h ⊢
    exact h.imp fun a => hf element a he

theorem ContributesStated.unique {target : Definition} {stated : ForeignKey}
    {more more' : KeyElements}
    (hf : ∀ element a, m.statedElement? target stated = some element → m.EndsIn element a →
      ∀ keys keys', foreign a keys → foreign' a keys' → keys = keys')
    (h : m.ContributesStated foreign target stated more)
    (h' : m.ContributesStated foreign' target stated more') : more = more' := by
  simp only [ContributesStated] at h h'
  cases he : m.statedElement? target stated with
  | none =>
    simp only [he] at h h'
    exact h.trans h'.symm
  | some element =>
    simp only [he] at h h'
    exact h.unique (fun a => hf element a he) h'

end Contributions

/-! ## The closure -/

/-- Nothing is left out. -/
def nothing : Option String → String → Prop := fun _ _ => False

/-- An entity is left out where it is asked for on its own behalf. -/
def itself : Option String → String → Prop := fun owner e => owner = some e

/-- The closure of a question about keys that is asked on behalf of an entity,
if of any. -/
inductive KeyClosure (m : Model) (leftOut : Option String → String → Prop) :
    Option String → KeyQuestion → KeyElements → Prop
  | leftOut {owner : Option String} {e : String} : leftOut owner e →
      KeyClosure m leftOut owner (.entity e) []
  | undefined {owner : Option String} {e : String} : m.find? e = none →
      KeyClosure m leftOut owner (.entity e) []
  | entity {owner : Option String} {e : String} {d : Definition}
      {foreign : Definition → KeyElements} {keys : KeyElements} :
      ¬ leftOut owner e → m.find? e = some d →
      (∀ a, m.KeyAssociation d a → KeyClosure m leftOut (some e) (.association a) (foreign a)) →
      Collected (m.Contributes fun a keys => keys = foreign a) (m.keyElements d) [] keys →
      KeyClosure m leftOut owner (.entity e) keys
  | untargeted {owner : Option String} {a : Definition} : a.target = none →
      KeyClosure m leftOut owner (.association a) []
  | target {owner : Option String} {a : Definition} {e : String} {keys : KeyElements} :
      a.target = some e → a.keys = none → KeyClosure m leftOut owner (.entity e) keys →
      KeyClosure m leftOut owner (.association a) keys
  | unstated {owner : Option String} {a : Definition} {e : String} {stated : List ForeignKey} :
      a.target = some e → a.keys = some stated → m.find? e = none →
      KeyClosure m leftOut owner (.association a) []
  | stated {owner : Option String} {a : Definition} {e : String} {d : Definition}
      {stated : List ForeignKey} {foreign : Definition → KeyElements} {keys : KeyElements} :
      a.target = some e → a.keys = some stated → m.find? e = some d →
      (∀ b, m.StatedAssociation d stated b →
        KeyClosure m leftOut owner (.association b) (foreign b)) →
      Collected (m.ContributesStated (fun b keys => keys = foreign b) d) stated [] keys →
      KeyClosure m leftOut owner (.association a) keys

namespace KeyClosure

variable {m : Model} {leftOut : Option String → String → Prop} {owner : Option String}

/-! What a closure was made of.  The question says which of the rules it can have been. -/

section Inversion

variable {e : String} {d a : Definition} {stated : List ForeignKey} {keys : KeyElements}

theorem eq_nil_of_leftOut (hout : leftOut owner e)
    (h : m.KeyClosure leftOut owner (.entity e) keys) : keys = [] := by
  cases h with
  | leftOut | undefined => rfl
  | entity hin => exact absurd hout hin

theorem eq_nil_of_undefined (hnone : m.find? e = none)
    (h : m.KeyClosure leftOut owner (.entity e) keys) : keys = [] := by
  cases h with
  | leftOut | undefined => rfl
  | entity _ hd => cases hnone.symm.trans hd

theorem collected_of_entity (hin : ¬ leftOut owner e) (hd : m.find? e = some d)
    (h : m.KeyClosure leftOut owner (.entity e) keys) :
    Collected (m.Contributes fun a => m.KeyClosure leftOut (some e) (.association a))
      (m.keyElements d) [] keys := by
  cases h with
  | leftOut hout => exact absurd hout hin
  | undefined hnone => cases hnone.symm.trans hd
  | entity _ hd' hforeign hkeys =>
    cases hd.symm.trans hd'
    refine hkeys.imp fun entry hentry more hmore => ContributesBy.imp ?_ hmore
    rintro a ha _ rfl
    exact hforeign a ⟨entry, hentry, ha⟩

theorem eq_nil_of_untargeted (hnone : a.target = none)
    (h : m.KeyClosure leftOut owner (.association a) keys) : keys = [] := by
  cases h with
  | untargeted | unstated => rfl
  | target ht | stated ht => cases hnone.symm.trans ht

theorem entity_of_target (ht : a.target = some e) (hk : a.keys = none)
    (h : m.KeyClosure leftOut owner (.association a) keys) :
    m.KeyClosure leftOut owner (.entity e) keys := by
  cases h with
  | untargeted hnone => cases hnone.symm.trans ht
  | target ht' _ h =>
    cases ht.symm.trans ht'
    exact h
  | unstated _ hs | stated _ hs => cases hk.symm.trans hs

theorem eq_nil_of_unstated (ht : a.target = some e) (hs : a.keys = some stated)
    (hnone : m.find? e = none) (h : m.KeyClosure leftOut owner (.association a) keys) :
    keys = [] := by
  cases h with
  | untargeted | unstated => rfl
  | target _ hk => cases hk.symm.trans hs
  | stated ht' _ hd =>
    cases ht.symm.trans ht'
    cases hnone.symm.trans hd

theorem collected_of_stated (ht : a.target = some e) (hs : a.keys = some stated)
    (hd : m.find? e = some d) (h : m.KeyClosure leftOut owner (.association a) keys) :
    Collected (m.ContributesStated (fun b => m.KeyClosure leftOut owner (.association b)) d)
      stated [] keys := by
  cases h with
  | untargeted hnone => cases hnone.symm.trans ht
  | target _ hk => cases hk.symm.trans hs
  | unstated ht' _ hnone =>
    cases ht.symm.trans ht'
    cases hnone.symm.trans hd
  | stated ht' hs' hd' hforeign hkeys =>
    cases ht.symm.trans ht'
    cases hs.symm.trans hs'
    cases hd.symm.trans hd'
    refine hkeys.imp fun k hk more hmore => hmore.imp ?_
    rintro element b he hb _ rfl
    exact hforeign b ⟨k, hk, element, he, hb⟩

end Inversion

/-- A question has at most one closure. -/
theorem unique {q : KeyQuestion} {keys keys' : KeyElements} (h : m.KeyClosure leftOut owner q keys)
    (h' : m.KeyClosure leftOut owner q keys') : keys = keys' := by
  induction h generalizing keys' with
  | leftOut hout => exact (h'.eq_nil_of_leftOut hout).symm
  | undefined hnone => exact (h'.eq_nil_of_undefined hnone).symm
  | entity hin hd _ hkeys ih =>
    refine hkeys.unique ?_ (h'.collected_of_entity hin hd)
    intro entry hentry more more' hmore hmore'
    refine ContributesBy.unique ?_ hmore hmore'
    rintro a ha _ _ rfl hforeign
    exact ih a ⟨entry, hentry, ha⟩ hforeign
  | untargeted hnone => exact (h'.eq_nil_of_untargeted hnone).symm
  | target ht hk _ ih => exact ih (h'.entity_of_target ht hk)
  | unstated ht hs hnone => exact (h'.eq_nil_of_unstated ht hs hnone).symm
  | stated ht hs hd _ hkeys ih =>
    refine hkeys.unique ?_ (h'.collected_of_stated ht hs hd)
    intro k hk more more' hmore hmore'
    refine hmore.unique ?_ hmore'
    rintro element b he hb _ _ rfl hforeign
    exact ih b ⟨k, hk, element, he, hb⟩ hforeign

/-- The foreign keys of associations as a function, where they have a closure. -/
theorem exists_foreign (m : Model) (leftOut : Option String → String → Prop)
    (owner : Option String) :
    ∃ foreign : Definition → KeyElements, ∀ a keys,
      m.KeyClosure leftOut owner (.association a) keys → keys = foreign a := by
  classical
  refine ⟨fun a => if h : ∃ keys, m.KeyClosure leftOut owner (.association a) keys then h.choose
    else [], ?_⟩
  intro a keys h
  have hex : ∃ keys, m.KeyClosure leftOut owner (.association a) keys := ⟨keys, h⟩
  simp only [dif_pos hex]
  exact h.unique hex.choose_spec

/-- The keys of a defined entity that is not left out are collected from its
key elements. -/
theorem entity_iff {e : String} {d : Definition} {keys : KeyElements} (hin : ¬ leftOut owner e)
    (hd : m.find? e = some d) :
    m.KeyClosure leftOut owner (.entity e) keys ↔
      Collected (m.Contributes fun a => m.KeyClosure leftOut (some e) (.association a))
        (m.keyElements d) [] keys := by
  refine ⟨collected_of_entity hin hd, fun h => ?_⟩
  obtain ⟨foreign, hforeign⟩ := exists_foreign m leftOut (some e)
  refine .entity hin hd ?_
    (h.imp fun entry _ more hmore => ContributesBy.imp (fun a _ => hforeign a) hmore)
  rintro a ⟨entry, hentry, ha⟩
  obtain ⟨more, hmore⟩ := h.exists_of_mem entry hentry
  obtain ⟨keys, hkeys⟩ := ContributesBy.exists_foreign hmore ha
  rwa [← hforeign a keys hkeys]

theorem target_iff {a : Definition} {e : String} {keys : KeyElements} (ht : a.target = some e)
    (hk : a.keys = none) :
    m.KeyClosure leftOut owner (.association a) keys ↔
      m.KeyClosure leftOut owner (.entity e) keys :=
  ⟨entity_of_target ht hk, .target ht hk⟩

/-- The stated keys of an association to a defined target are collected from
its elements. -/
theorem stated_iff {a : Definition} {e : String} {d : Definition} {stated : List ForeignKey}
    {keys : KeyElements} (ht : a.target = some e) (hs : a.keys = some stated)
    (hd : m.find? e = some d) :
    m.KeyClosure leftOut owner (.association a) keys ↔
      Collected (m.ContributesStated (fun b => m.KeyClosure leftOut owner (.association b)) d)
        stated [] keys := by
  refine ⟨collected_of_stated ht hs hd, fun h => ?_⟩
  obtain ⟨foreign, hforeign⟩ := exists_foreign m leftOut owner
  refine .stated ht hs hd ?_ (h.imp fun k _ more hmore => hmore.imp fun _ b _ _ => hforeign b)
  rintro b ⟨k, hk, element, he, hb⟩
  obtain ⟨more, hmore⟩ := h.exists_of_mem k hk
  simp only [ContributesStated, he] at hmore
  obtain ⟨keys, hkeys⟩ := hmore.exists_foreign hb
  rwa [← hforeign b keys hkeys]

/-- On whose behalf an entity is asked for does not matter, unless it is left
out. -/
theorem of_none {e : String} {keys : KeyElements} (h : m.KeyClosure leftOut none (.entity e) keys)
    (hnone : ¬ leftOut none e) (hin : ¬ leftOut owner e) :
    m.KeyClosure leftOut owner (.entity e) keys := by
  cases h with
  | leftOut hout => exact absurd hout hnone
  | undefined hd => exact .undefined hd
  | entity _ hd hforeign hkeys => exact .entity hin hd hforeign hkeys

end KeyClosure

end Model

end SchemaTypes
