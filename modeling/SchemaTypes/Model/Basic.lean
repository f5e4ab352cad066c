import SchemaTypes.Model.Definition

/-!
# Models

A model is a table of definitions by full name, in the order of the document.
No name is defined twice: `ofPairs` keeps the last definition of a name.

A name lies in a service when the name of the service, followed by a dot,
starts it.  `serviceOf?` finds the innermost one.

A definition inherits the elements of what it includes.  `allElements` lists
them before its own, and an own element takes the place of an inherited one of
the same name.  A definition that is included twice contributes once, and
`lineage` gives the order in which definitions contribute.  `isInherited` asks
each included definition on its own.
-/

namespace SchemaTypes

/-- A model document. -/
structure Model where
  /-- The definitions by full name. -/
  definitions : Table Definition := []
  /-- No name is defined twice. -/
  distinct : (Table.names definitions).Nodup := by decide

namespace Model

instance : Inhabited Model := ⟨⟨[], List.nodup_nil⟩⟩

/-- The model that a list of names and definitions stands for.  Of definitions
of one name the last one wins. -/
def ofPairs (pairs : List (String × Definition)) : Model :=
  ⟨Table.ofPairs pairs, Table.names_nodup_ofPairs pairs⟩

/-- The definition of a name. -/
def find? (m : Model) (name : String) : Option Definition := Table.get? m.definitions name

/-- Whether a name is defined. -/
def defines (m : Model) (name : String) : Bool := (m.find? name).isSome

/-- The kind of the definition of a name. -/
def kindOf? (m : Model) (name : String) : Option Kind := (m.find? name).bind (·.kind)

/-! ## Services -/

/-- The names of the services, in order. -/
def services (m : Model) : List String :=
  (m.definitions.filter fun entry => entry.2.isKind .service).map (·.1)

/-- Whether a name goes on after another name and a dot. -/
def isBelow (outer name : String) : Bool := (outer.toList ++ ['.']).isPrefixOf name.toList

/-- The longer of two names, the second where they are equally long. -/
def longer (best : Option String) (name : String) : Option String :=
  match best with
  | none => some name
  | some b => if name.length < b.length then some b else some name

/-- The innermost service a name lies in. -/
def serviceOf? (m : Model) (name : String) : Option String :=
  (m.services.filter fun service => isBelow service name).foldl longer none

/-- Whether a name lies in a service. -/
def inService (m : Model) (name : String) : Bool := (m.serviceOf? name).isSome

/-! ## Elements -/

/-- A walk over included definitions. -/
structure Walk where
  /-- The names it came to. -/
  visited : List String := []
  /-- The definitions it has left again, each after those it includes. -/
  left : List Definition := []

namespace Walk

/-- Comes to a name. -/
def enter (w : Walk) (name : String) : Walk := { w with visited := name :: w.visited }

/-- Leaves a definition. -/
def leave (w : Walk) (d : Definition) : Walk := { w with left := w.left ++ [d] }

end Walk

/-- Walks through names and what they include, and comes to no name twice.
Each level of the walk comes to a defined name that no level around it came
to, so the number of definitions bounds the levels. -/
def walk (m : Model) : Nat → List String → Walk → Walk
  | 0, _, w => w
  | levels + 1, names, w =>
      names.foldl (fun w name =>
        if w.visited.contains name then w
        else
          match m.find? name with
          | none => w
          | some d => (m.walk levels d.ancestors (w.enter name)).leave d) w

/-- The definitions that contribute elements to a definition: those it
includes, each after those it includes itself, and then the definition. -/
def lineage (m : Model) (d : Definition) : List Definition :=
  (m.walk m.definitions.length d.ancestors {}).left ++ [d]

/-- The elements of a definition, with those of the included definitions
first.  An element takes the place of an earlier one of the same name. -/
def allElements (m : Model) (d : Definition) : Table Definition :=
  (m.lineage d).foldl (fun found d => found.putAll d.ownElements) []

/-- Whether an included definition contributes an element of the name. -/
def isInherited (m : Model) (d : Definition) (name : String) : Bool :=
  d.ancestors.any fun ancestor =>
    (m.find? ancestor).any fun parent => (m.allElements parent).has name

end Model

end SchemaTypes
