import SchemaTypes.Proofs.Keys.Query

/-!
# Queries after other queries

A caller asks for the keys of entities and for the foreign keys of
associations, in any order, and the memo is kept in between.  Whatever was
asked before, the state is valid for every region
(`KeyRegion.valid_keyState`), so queries go on to find the closure.

Where no entity depends on itself the closure leaves nothing out, and the keys
that a query answers are exactly this closure (`Model.keysOf_eq_closure`).
-/

namespace SchemaTypes

open Relation

/-- A request for keys. -/
inductive KeyRequest
  /-- For the keys of an entity. -/
  | keysOf (entity : String)
  /-- For the foreign keys of an association. -/
  | foreignKeys (association : Definition)

namespace KeyRequest

/-- The question of a request. -/
def question : KeyRequest → KeyQuestion
  | .keysOf e => .entity e
  | .foreignKeys a => .association a

/-- What a request asks. -/
def query (m : Model) : KeyRequest → KeyQuery KeyElements
  | .keysOf e => m.keysOf e
  | .foreignKeys a => m.foreignKeys a

theorem query_eq_ask (m : Model) (request : KeyRequest) :
    request.query m = m.ask m.keySteps 0 request.question := by
  cases request with
  | keysOf e => rfl
  | foreignKeys a => rfl

end KeyRequest

/-- The state after requests. -/
def Model.keyState (m : Model) (history : List KeyRequest) : KeyState :=
  history.foldl (fun s request => (request.query m s).2) {}

namespace KeyRegion

variable {m : Model}

/-- What a request that no other one is part of answers. -/
theorem answered (r : KeyRegion m) {s : KeyState} (hs : r.Valid s) (hidle : s.inProgress = [])
    (request : KeyRequest) :
    r.Answered (m.Wants request.question) (m.KeyClosure r.leftOut none request.question)
      (m.Refused m.keySteps request.question 0) s (request.query m s) := by
  have hpending : m.Pending none [] := rfl
  have hbehalf : m.OnBehalf none request.question := fun o ho => nomatch ho
  rw [request.query_eq_ask]
  exact r.sound m.keySteps 0 request.question hpending hbehalf s hs hidle

theorem valid_empty (r : KeyRegion m) : r.Valid {} where
  closure := by
    intro e keys _ h
    cases h
  idle := by
    rintro e ⟨keys, h⟩
    cases h
  defined := by
    rintro e ⟨keys, h⟩
    cases h
  settled := by
    rintro e f _ ⟨keys, h⟩
    cases h

/-- After any requests the memo is right, and nothing is being collected. -/
theorem valid_keyState (r : KeyRegion m) (history : List KeyRequest) :
    r.Valid (m.keyState history) ∧ (m.keyState history).inProgress = [] := by
  have fold : ∀ (history : List KeyRequest) (s : KeyState), r.Valid s → s.inProgress = [] →
      r.Valid (history.foldl (fun s request => (request.query m s).2) s) ∧
        (history.foldl (fun s request => (request.query m s).2) s).inProgress = [] := by
    intro history
    induction history with
    | nil => exact fun s hs hidle => ⟨hs, hidle⟩
    | cons request rest ih =>
      intro s hs hidle
      have ha := r.answered hs hidle request
      exact ih _ ha.valid (ha.inProgress.trans hidle)
  exact fold history {} r.valid_empty rfl

/-- A model in which no entity depends on itself, as a region where nothing is
left out. -/
def whole (hacyclic : ∀ e, ¬ TransGen m.KeysDependOn e e) : KeyRegion m where
  inside _ := True
  leftOut := Model.nothing
  closed _ _ := trivial
  leftOut_none h := h
  leftOut_self h := h.elim
  leftOut_back _ hdep hback := hacyclic _ (.head' hdep hback)

end KeyRegion

namespace Model

/-- The keys that are answered are the closure, whatever was asked before. -/
theorem keysOf_eq_closure {m : Model} (hacyclic : ∀ e, ¬ TransGen m.KeysDependOn e e)
    (history : List KeyRequest) (e : String) {keys : KeyElements}
    (h : (m.keysOf e (m.keyState history)).1 = .ok keys) (keys' : KeyElements) :
    m.KeyClosure nothing none (.entity e) keys' ↔ keys' = keys := by
  obtain ⟨hs, hidle⟩ := (KeyRegion.whole hacyclic).valid_keyState history
  have ha := (KeyRegion.whole hacyclic).answered hs hidle (.keysOf e)
  obtain ⟨hclosure, _⟩ := ha.ok (fun _ _ => trivial) h
  constructor
  · exact fun hkeys' => hkeys'.unique hclosure
  · rintro rfl
    exact hclosure

/-- A key that stands for itself. -/
def plainKey : Definition := { type := some (.name "cds.UUID"), key := true }

/-- A key that stands for the keys of an entity. -/
def keyTo (target : String) : Definition :=
  { type := some (.name "cds.Association"), target := some target, key := true }

/-- An entity with key elements. -/
def keyed (elements : Table Definition) : Definition :=
  { kind := some .entity, elements := some elements }

/-- Editions are told apart by their book and a number, and books by an
inherited key. -/
def library : Model where
  definitions := [
    ("Identified", { kind := some .aspect, elements := some [("ID", plainKey)] }),
    ("Editions", keyed [("book", keyTo "Books"), ("number", plainKey)]),
    ("Books", { kind := some .entity, includes := some ["Identified"] })]

theorem library_acyclic : ∀ e, ¬ TransGen library.KeysDependOn e e :=
  not_transGen_keysDependOn (fun e => if e = "Editions" then 1 else 0) (by decide) (by decide)

theorem keysOf_editions :
    (∀ e, ¬ TransGen library.KeysDependOn e e) ∧
      (library.keysOf "Editions" (library.keyState [.keysOf "Books"])).1 =
        .ok [("book_ID", plainKey), ("number", plainKey)] ∧
      ∀ keys, library.KeyClosure nothing none (.entity "Editions") keys ↔
        keys = [("book_ID", plainKey), ("number", plainKey)] :=
  ⟨library_acyclic, rfl, keysOf_eq_closure library_acyclic [.keysOf "Books"] "Editions" rfl⟩

end Model

end SchemaTypes
