import SchemaTypes.Model.Alias

/-!
# Keys and foreign keys

The key of an entity consists of its key elements, inherited ones included.  A
key element that is a managed association to one stands for the foreign keys
it contributes, each named after the association and the key of the target.
Other associations contribute nothing.

The foreign keys of an association are the keys of its target, unless the
association states them.  A stated key names an element of the target, and
where that is such an association again, its foreign keys follow.

A query remembers the keys of every entity it has finished.  An entity whose
keys are asked for while they are being collected contributes nothing.  Chains
of more than `maxDepth` steps are not followed.
-/

namespace SchemaTypes

/-- Key elements by flattened name. -/
abbrev KeyElements := Table Definition

/-- What earlier queries left behind, and what a running query is about. -/
structure KeyState where
  /-- The keys of the entities that were finished. -/
  memo : Table KeyElements := []
  /-- The entities whose keys are being collected. -/
  inProgress : List String := []

instance : Inhabited KeyState := ⟨{}⟩

namespace KeyState

/-- Starts to collect the keys of an entity. -/
def enter (s : KeyState) (entity : String) : KeyState :=
  { s with inProgress := entity :: s.inProgress }

/-- Ends to collect the keys of an entity. -/
def leave (s : KeyState) (entity : String) : KeyState :=
  { s with inProgress := s.inProgress.filter (· != entity) }

/-- Remembers the keys of an entity. -/
def remember (s : KeyState) (entity : String) (keys : KeyElements) : KeyState :=
  { s with memo := s.memo.put entity keys }

end KeyState

/-- A question about keys: an answer or the cause why there is none, and what
is left behind in either case. -/
abbrev KeyQuery (α : Type) := KeyState → Except CompileError α × KeyState

namespace KeyQuery

variable {α β : Type}

/-- The answer that needs nothing. -/
def answer (a : α) : KeyQuery α := fun s => (.ok a, s)

/-- The cause why there is no answer. -/
def refuse (e : CompileError) : KeyQuery α := fun s => (.error e, s)

/-- Goes on with the answer of a question, if there is one. -/
def andThen (q : KeyQuery α) (next : α → KeyQuery β) : KeyQuery β := fun s =>
  match q s with
  | (.ok a, s) => next a s
  | (.error e, s) => (.error e, s)

/-- Collects entries by one question after the other. -/
def collect (ask : α → KeyQuery KeyElements) : List α → KeyElements → KeyQuery KeyElements
  | [], found => answer found
  | a :: rest, found => (ask a).andThen fun more => collect ask rest (found.putAll more)

/-- Asks about an entity while it counts as being collected. -/
def within (entity : String) (q : KeyQuery α) : KeyQuery α := fun s =>
  let (r, s) := q (s.enter entity)
  (r, s.leave entity)

/-- Remembers the answer to a question about an entity. -/
def remembering (entity : String) (q : KeyQuery KeyElements) : KeyQuery KeyElements :=
  q.andThen fun keys s => (.ok keys, s.remember entity keys)

end KeyQuery

namespace Model

open KeyQuery

/-- The entries named after an association and a key of its target. -/
def named (association : String) (keys : KeyElements) : KeyElements :=
  keys.map fun (suffix, key) => (association ++ "_" ++ suffix, key)

/-- What a key element contributes, given how the foreign keys of an
association are found. -/
def expand (m : Model) (foreign : Definition → KeyQuery KeyElements) (name : String)
    (element : Definition) : KeyQuery KeyElements :=
  match m.chase element with
  | .error e => refuse e
  | .ok association =>
      if association.isManagedToOne then
        (foreign association).andThen fun keys => answer (named name keys)
      else if association.isAssociation then answer []
      else answer [(name, element)]

/-- What a stated foreign key contributes, given the elements of the target and
how the foreign keys of an association are found. -/
def expandStated (m : Model) (foreign : Definition → KeyQuery KeyElements)
    (targetElements : Table Definition) (stated : ForeignKey) : KeyQuery KeyElements :=
  match stated.path with
  | [] => answer []
  | head :: _ =>
      match targetElements.get? head with
      | none => answer []
      | some element =>
          match m.chase element with
          | .error e => refuse e
          | .ok nested =>
              if nested.isManagedToOne then
                (foreign nested).andThen fun keys => answer (named stated.suffix keys)
              else answer [(stated.suffix, element)]

mutual

/-- The keys of an entity, asked for at a depth. -/
def keysAt (m : Model) (steps : Nat) (entity : String) (depth : Nat) : KeyQuery KeyElements :=
  match steps with
  | 0 => refuse (.recursionLimit entity maxDepth)
  | steps + 1 => fun s =>
      match s.memo.get? entity with
      | some keys => (.ok keys, s)
      | none =>
          if maxDepth < depth then (.error (.recursionLimit entity maxDepth), s)
          else
            match m.find? entity with
            | none => (.ok [], s)
            | some d =>
                if s.inProgress.contains entity then (.ok [], s)
                else
                  let elements := (m.allElements d).filter (·.2.key)
                  remembering entity (within entity
                    (collect (fun (name, element) =>
                      m.expand (fun a => m.foreignKeysAt steps a (depth + 1)) name element)
                      elements [])) s

/-- The foreign keys of an association, asked for at a depth. -/
def foreignKeysAt (m : Model) (steps : Nat) (association : Definition) (depth : Nat) :
    KeyQuery KeyElements :=
  match steps with
  | 0 => refuse (.recursionLimit (association.target.getD "") maxDepth)
  | steps + 1 =>
      match association.target with
      | none => answer []
      | some target =>
          match association.keys with
          | none => m.keysAt steps target (depth + 1)
          | some stated =>
              match m.find? target with
              | none => answer []
              | some d =>
                  let targetElements := m.allElements d
                  collect (m.expandStated (fun a => m.foreignKeysAt steps a (depth + 1))
                    targetElements) stated []

end

/-- The number of definitions and of their elements. -/
def size (m : Model) : Nat :=
  m.definitions.foldr (fun entry n => entry.2.ownElements.length + 1 + n) 0

/-- A bound on the steps of a query.  Keys are asked for at `maxDepth` or less.
Stated keys that do not lead back to themselves pass each element once. -/
def keySteps (m : Model) : Nat := m.size + 3 * maxDepth + 8

/-- The keys of an entity: inherited and own ones, with the foreign keys of key
associations in their place. -/
def keysOf (m : Model) (entity : String) : KeyQuery KeyElements := m.keysAt m.keySteps entity 0

/-- The foreign keys of an association, named relative to it. -/
def foreignKeys (m : Model) (association : Definition) : KeyQuery KeyElements :=
  m.foreignKeysAt m.keySteps association 0

end Model

end SchemaTypes
