import SchemaTypes.Proofs.Access.Paths
import SchemaTypes.Proofs.Keys.Query
import SchemaTypes.Proofs.Precedence

/-!
# Stated foreign keys

The foreign keys of an association that states its keys are what the stated keys
contribute, one after the other (`Model.foreignKeys_stated`).  A stated key names an
element of the target.  It contributes this element under its name, or the foreign
keys of the association that the aliases of the element end in, each under the name of
the stated key and its own (`Model.KeyYields`).

The foreign keys of that association are those that a question of its own answers.
Inside a query they are asked for with less steps left and from a greater depth, and
every answer that is found so is found with more steps and from a lower depth too
(`Model.ask_mono`).

A path may lead on from an element to another one.  Only the first segment is looked
at, although the name of the key has all of them in it, so that the key contributes
the wrong element (`Model.foreignKeys_address`).
-/

namespace SchemaTypes

namespace KeyQuery

/-- Every answer of a query is the answer of another one, and the same is left behind. -/
def AnsweredBy {α : Type} (q q' : KeyQuery α) : Prop :=
  ∀ s a t, q s = (.ok a, t) → q' s = (.ok a, t)

variable {α β : Type} {q q' : KeyQuery α}

theorem AnsweredBy.refl (q : KeyQuery α) : q.AnsweredBy q := fun _ _ _ => id

theorem AnsweredBy.refuse {e : CompileError} : (KeyQuery.refuse e : KeyQuery α).AnsweredBy q' := by
  intro s a t h
  cases h

theorem andThen_eq_ok {next : α → KeyQuery β} {s t : KeyState} {b : β}
    (h : q.andThen next s = (.ok b, t)) :
    ∃ a middle, q s = (.ok a, middle) ∧ next a middle = (.ok b, t) := by
  simp only [andThen] at h
  rcases hq : q s with ⟨answer, middle⟩
  rw [hq] at h
  cases answer with
  | error e => cases h
  | ok a => exact ⟨a, middle, rfl, h⟩

theorem AnsweredBy.andThen {next next' : α → KeyQuery β} (h : q.AnsweredBy q')
    (hnext : ∀ a, (next a).AnsweredBy (next' a)) :
    (q.andThen next).AnsweredBy (q'.andThen next') := by
  intro s b t hb
  obtain ⟨a, middle, ha, hb⟩ := andThen_eq_ok hb
  simp only [KeyQuery.andThen, h s a middle ha]
  exact hnext a middle b t hb

theorem AnsweredBy.collect {ask ask' : α → KeyQuery KeyElements}
    (h : ∀ a, (ask a).AnsweredBy (ask' a)) :
    ∀ {xs : List α} {found : KeyElements},
      (KeyQuery.collect ask xs found).AnsweredBy (KeyQuery.collect ask' xs found)
  | [], _ => .refl _
  | x :: _, _ => (h x).andThen fun _ => collect h

theorem AnsweredBy.within {entity : String} (h : q.AnsweredBy q') :
    (KeyQuery.within entity q).AnsweredBy (KeyQuery.within entity q') := by
  intro s a t ha
  simp only [KeyQuery.within] at ha ⊢
  rcases hq : q (s.enter entity) with ⟨answer, middle⟩
  rw [hq] at ha
  cases ha
  rw [h _ _ _ hq]

theorem AnsweredBy.remembering {entity : String} {q q' : KeyQuery KeyElements}
    (h : q.AnsweredBy q') :
    (KeyQuery.remembering entity q).AnsweredBy (KeyQuery.remembering entity q') :=
  h.andThen fun _ => .refl _

end KeyQuery

namespace Model

open KeyQuery

variable {m : Model}

/-! ## More steps and a lower depth -/

section Mono

variable {foreign foreign' : Definition → KeyQuery KeyElements}

theorem expandBy_answeredBy (h : ∀ a, (foreign a).AnsweredBy (foreign' a))
    {form : KeyElements → KeyElements} {plain : Definition → KeyElements} {element : Definition} :
    (m.expandBy foreign form plain element).AnsweredBy
      (m.expandBy foreign' form plain element) := by
  simp only [expandBy]
  split
  · exact .refl _
  · next a _ =>
    split
    · exact (h a).andThen fun _ => .refl _
    · exact .refl _

theorem collectKeys_answeredBy (h : ∀ a, (foreign a).AnsweredBy (foreign' a)) {d : Definition} :
    (m.collectKeys foreign d).AnsweredBy (m.collectKeys foreign' d) := by
  refine .collect fun entry => ?_
  rw [expand_eq, expand_eq]
  exact expandBy_answeredBy h

theorem collectStated_answeredBy (h : ∀ a, (foreign a).AnsweredBy (foreign' a)) {d : Definition}
    {stated : List ForeignKey} :
    (m.collectStated foreign d stated).AnsweredBy (m.collectStated foreign' d stated) := by
  refine .collect fun k => ?_
  rw [expandStated_eq, expandStated_eq]
  cases m.statedElement? d k with
  | none => exact .refl _
  | some element => exact expandBy_answeredBy h

end Mono

/-- A question that is answered is answered the same with more steps and from a lower
depth. -/
theorem ask_mono : ∀ {steps more depth lower : Nat} {q : KeyQuestion}, steps ≤ more →
    lower ≤ depth → (m.ask steps depth q).AnsweredBy (m.ask more lower q)
  | 0, _, _, _, .entity _, _, _ => .refuse
  | 0, _, _, _, .association _, _, _ => .refuse
  | steps + 1, more, depth, lower, .entity e, hsteps, hdepth => by
    obtain ⟨more, rfl⟩ : ∃ n, more = n + 1 := ⟨more - 1, by omega⟩
    intro s keys t h
    have hlower : ¬ maxDepth < depth → ¬ maxDepth < lower := by omega
    have hanswer := m.ask_entity steps depth e s
    generalize m.ask (steps + 1) depth (.entity e) s = out at hanswer h
    cases hanswer with
    | known hmemo =>
      rw [ask_known hmemo]
      exact h
    | deep => cases h
    | undefined hmemo hdeep hd =>
      rw [ask_undefined hmemo (hlower hdeep) hd]
      exact h
    | pending hmemo hdeep hd hmem =>
      rw [ask_pending hmemo (hlower hdeep) hd hmem]
      exact h
    | collect hmemo hdeep hd hmem =>
      rw [ask_collect hmemo (hlower hdeep) hd hmem]
      exact (collectKeys_answeredBy fun a => ask_mono (by omega)
        (by omega)).within.remembering s keys t h
  | steps + 1, more, depth, lower, .association a, hsteps, hdepth => by
    obtain ⟨more, rfl⟩ : ∃ n, more = n + 1 := ⟨more - 1, by omega⟩
    have hquery := m.ask_association steps depth a
    generalize m.ask (steps + 1) depth (.association a) = query at hquery ⊢
    cases hquery with
    | untargeted ht =>
      rw [ask_untargeted ht]
      exact .refl _
    | target ht hk =>
      rw [ask_target ht hk]
      exact ask_mono (by omega) (by omega)
    | unstated ht hk hd =>
      rw [ask_unstated ht hk hd]
      exact .refl _
    | stated ht hk hd =>
      rw [ask_stated ht hk hd]
      exact collectStated_answeredBy fun b => ask_mono (by omega) (by omega)

/-! ## What stated keys contribute -/

/-- What an element contributes under a name: itself, or the foreign keys of the
association that its aliases end in. -/
inductive KeyYields (m : Model) (name : String) (element : Definition) :
    KeyState → KeyElements → KeyState → Prop
  | plain {a : Definition} {s : KeyState} : m.chase element = .ok a → a.isManagedToOne = false →
      KeyYields m name element s [(name, element)] s
  | association {a : Definition} {s t : KeyState} {keys : KeyElements} : m.EndsIn element a →
      m.foreignKeys a s = (.ok keys, t) → KeyYields m name element s (named name keys) t

/-- What a list of stated keys contributes, one after the other.  A key names the element
that the first segment of its path is.  One that names no element contributes nothing. -/
inductive StatedYields (m : Model) (d : Definition) :
    List ForeignKey → KeyState → KeyElements → KeyState → Prop
  | nil {s : KeyState} : StatedYields m d [] s [] s
  | key {k : ForeignKey} {rest : List ForeignKey} {element : Definition} {s t u : KeyState}
      {more later : KeyElements} : m.Denotes d (k.path.take 1) element →
      m.KeyYields k.suffix element s more t → StatedYields m d rest t later u →
        StatedYields m d (k :: rest) s (more ++ later) u
  | absent {k : ForeignKey} {rest : List ForeignKey} {s t : KeyState} {later : KeyElements} :
      (¬ ∃ element, m.Denotes d (k.path.take 1) element) → StatedYields m d rest s later t →
        StatedYields m d (k :: rest) s later t

theorem denotes_take_one_iff {d element : Definition} {k : ForeignKey} :
    m.Denotes d (k.path.take 1) element ↔ m.statedElement? d k = some element := by
  rw [statedElement?]
  cases k.path with
  | nil =>
    constructor
    · intro h
      cases h
    · intro h
      cases h
  | cons head rest =>
    constructor
    · intro h
      cases h with
      | element hleaf => exact hleaf
      | step _ hrest => cases hrest
    · exact .element

theorem expandBy_eq_ok {name : String} {element : Definition} {s t : KeyState} {more : KeyElements}
    (h : m.expandBy m.foreignKeys (named name) (fun _ => [(name, element)]) element s =
      (.ok more, t)) : m.KeyYields name element s more t := by
  simp only [expandBy] at h
  cases ha : m.chase element with
  | error e =>
    rw [ha] at h
    cases h
  | ok a =>
    simp only [ha] at h
    split at h
    · next hmanaged =>
      obtain ⟨keys, middle, hkeys, hnamed⟩ := andThen_eq_ok h
      cases hnamed
      exact .association ⟨ha, hmanaged⟩ hkeys
    · next hplain =>
      cases h
      exact .plain ha (by simpa using hplain)

theorem collect_yields {d : Definition} {stated : List ForeignKey} {found keys : KeyElements}
    {s t : KeyState}
    (h : KeyQuery.collect (m.expandStated m.foreignKeys (m.allElements d)) stated found s =
      (.ok keys, t)) :
    ∃ yields, m.StatedYields d stated s yields t ∧ keys = found.putAll yields := by
  induction stated generalizing found s with
  | nil =>
    cases h
    exact ⟨[], .nil, rfl⟩
  | cons k rest ih =>
    obtain ⟨more, middle, hmore, hrest⟩ := andThen_eq_ok h
    obtain ⟨later, hlater, rfl⟩ := ih hrest
    rw [expandStated_eq] at hmore
    cases helement : m.statedElement? d k with
    | none =>
      rw [helement] at hmore
      cases hmore
      refine ⟨later, .absent (fun ⟨element, hdenotes⟩ => ?_) hlater, rfl⟩
      rw [denotes_take_one_iff, helement] at hdenotes
      cases hdenotes
    | some element =>
      rw [helement] at hmore
      exact ⟨more ++ later, .key (denotes_take_one_iff.mpr helement) (expandBy_eq_ok hmore) hlater,
        by simp [Table.putAll]⟩

theorem StatedYields.split {d element : Definition} {before after : List ForeignKey}
    {k : ForeignKey} {s t : KeyState} {yields : KeyElements}
    (h : m.StatedYields d (before ++ k :: after) s yields t)
    (hdenotes : m.Denotes d (k.path.take 1) element) :
    ∃ earlier more later s' t', m.StatedYields d before s earlier s' ∧
      m.KeyYields k.suffix element s' more t' ∧ m.StatedYields d after t' later t ∧
      yields = earlier ++ more ++ later := by
  induction before generalizing s yields with
  | nil =>
    cases h with
    | key hfirst hmore hlater =>
      obtain rfl := hdenotes.unique hfirst
      exact ⟨[], _, _, s, _, .nil, hmore, hlater, rfl⟩
    | absent hnone _ => exact absurd ⟨element, hdenotes⟩ hnone
  | cons first before ih =>
    cases h with
    | key hfirst hmore hrest =>
      obtain ⟨earlier, more, later, s', t', hbefore, hkey, hafter, rfl⟩ := ih hrest
      exact ⟨_, more, later, s', t', .key hfirst hmore hbefore, hkey, hafter, by simp⟩
    | absent hnone hrest =>
      obtain ⟨earlier, more, later, s', t', hbefore, hkey, hafter, rfl⟩ := ih hrest
      exact ⟨earlier, more, later, s', t', .absent hnone hbefore, hkey, hafter, rfl⟩

section ForeignKeys

variable {a d : Definition} {target : String} {s t : KeyState} {keys : KeyElements}

/-- The foreign keys of an association that states its keys are what these contribute. -/
theorem foreignKeys_yields {stated : List ForeignKey} (ht : a.target = some target)
    (hk : a.keys = some stated) (hd : m.find? target = some d)
    (h : m.foreignKeys a s = (.ok keys, t)) :
    ∃ yields, m.StatedYields d stated s yields t ∧ keys = Table.ofPairs yields := by
  -- What a stated key leads to is asked for inside the query as it is asked for alone.
  have hcollect : (m.foreignKeys a).AnsweredBy (m.collectStated m.foreignKeys d stated) := by
    change (m.ask m.keySteps 0 (.association a)).AnsweredBy _
    rw [show m.keySteps = m.size + 3 * maxDepth + 7 + 1 from rfl, ask_stated ht hk hd]
    exact collectStated_answeredBy fun b => ask_mono (by rw [keySteps]; omega) (by omega)
  exact collect_yields (hcollect s keys t h)

/-- A stated key contributes the element that the first segment of its path is, under its
name, or the foreign keys of the association that this element stands for, under its name
and theirs.  Only a later key may take the place of one of the same name. -/
theorem foreignKeys_stated {element : Definition} {before after : List ForeignKey}
    {k : ForeignKey} (ht : a.target = some target) (hk : a.keys = some (before ++ k :: after))
    (hd : m.find? target = some d) (hdenotes : m.Denotes d (k.path.take 1) element)
    (h : m.foreignKeys a s = (.ok keys, t)) :
    ∃ earlier more later s' t', m.StatedYields d before s earlier s' ∧
      m.KeyYields k.suffix element s' more t' ∧ m.StatedYields d after t' later t ∧
      keys = Table.ofPairs (earlier ++ more ++ later) ∧
      ∀ name ∈ Table.names more, name ∉ Table.names later →
        keys.get? name = (Table.ofPairs more).get? name := by
  obtain ⟨yields, hyields, rfl⟩ := foreignKeys_yields ht hk hd h
  obtain ⟨earlier, more, later, s', t', hbefore, hkey, hafter, rfl⟩ := hyields.split hdenotes
  refine ⟨earlier, more, later, s', t', hbefore, hkey, hafter, rfl, fun name hmore hlater => ?_⟩
  have happend : Table.ofPairs (earlier ++ more ++ later) =
      ((Table.ofPairs earlier).putAll more).putAll later := by
    simp [Table.ofPairs, Table.putAll]
  have hnone : (Table.ofPairs later).get? name = none := by
    rw [← Option.not_isSome_iff_eq_none, Table.isSome_get?_ofPairs]
    exact hlater
  obtain ⟨e, he⟩ := Option.isSome_iff_exists.mp (Table.isSome_get?_ofPairs.mpr hmore)
  rw [happend, Table.get?_putAll, Table.get?_putAll, hnone, Option.none_or, he, Option.some_or]

end ForeignKeys

/-- A postal address. -/
def address : Definition :=
  { elements := some [("street", elementOf "cds.String"), ("zip", elementOf "cds.String")] }

/-- The country of a customer. -/
def country : Definition := { type := some (.name "cds.Association"), target := some "Countries" }

/-- Customers have a number, a country and an address. -/
def customers : Definition := {
  kind := some .entity
  elements := some [
    ("number", elementOf "cds.Integer"), ("country", country), ("address", address)] }

/-- The code of a country. -/
def code : Definition := { type := some (.name "cds.String"), key := true }

/-- Countries are told apart by their code. -/
def customerBase : Model where
  definitions := [
    ("Customers", customers),
    ("Countries", { kind := some .entity, elements := some [("code", code)] })]

/-- An association to customers that states its keys. -/
def toCustomer (stated : List ForeignKey) : Definition :=
  { type := some (.name "cds.Association"), target := some "Customers", keys := some stated }

theorem foreignKeys_land :
    ∃ t, customerBase.foreignKeys (toCustomer [⟨["country"], some "land"⟩, ⟨["number"], none⟩]) {} =
        (.ok [("land_code", code), ("number", elementOf "cds.Integer")], t) ∧
      ∃ earlier more later s' t', customerBase.StatedYields customers [] {} earlier s' ∧
        customerBase.KeyYields "land" country s' more t' ∧
        customerBase.StatedYields customers [⟨["number"], none⟩] t' later t ∧
        [("land_code", code), ("number", elementOf "cds.Integer")] =
          Table.ofPairs (earlier ++ more ++ later) ∧
        ∀ name ∈ Table.names more, name ∉ Table.names later →
          Table.get? [("land_code", code), ("number", elementOf "cds.Integer")] name =
            (Table.ofPairs more).get? name :=
  ⟨_, rfl, @foreignKeys_stated customerBase
    (toCustomer [⟨["country"], some "land"⟩, ⟨["number"], none⟩]) customers "Customers" {} _ _
    country [] [⟨["number"], none⟩] ⟨["country"], some "land"⟩ rfl rfl rfl (.element rfl) rfl⟩

/-- A path that leads on to the zip of an address is taken for the address. -/
theorem foreignKeys_address :
    customerBase.Denotes customers ["address", "zip"] (elementOf "cds.String") ∧
      (customerBase.foreignKeys (toCustomer [⟨["address", "zip"], none⟩]) {}).1 =
        .ok [("address_zip", address)] ∧
      address.typeName? ≠ (elementOf "cds.String").typeName? :=
  ⟨.step rfl (.element rfl), rfl, by decide⟩

end Model

end SchemaTypes
