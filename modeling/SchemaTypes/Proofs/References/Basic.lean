import SchemaTypes.Plan.Basic
import SchemaTypes.Proofs.Lineage
import SchemaTypes.Proofs.Name

/-!
# References

The names in a definition mention other definitions: by the type of an element,
by the target of an association and by the head of a path (`Model.Mentions`).
A resolved type refers to them by a place and the names that are printed there
(`TypeInfo.references`), at any nesting of arrays and structures.

`Model.TypesOnly` says of a model that what it mentions has a class or a type of
its own.  A reference points to a definition (`Model.Points`) when it has the
place and the names of the definition, and its namespace is imported unless it
is the one at hand.
-/

namespace SchemaTypes

/-! ## What a definition mentions -/

namespace Model

/-- The definition that the name of a type belongs to. -/
def typeHead? (m : Model) (text : String) : Option String :=
  if text.toList.contains ':' then
    match Text.splitOn ':' text with
    | [name, _] => some name
    | _ => none
  else if (Container.ofName? text).isSome || isBuiltin text || text == Definition.selfName then none
  else if m.defines text then some text
  else if (m.nameParts text).access.isEmpty then none
  else some (m.nameParts text).definitionName

/-- A definition mentions a name, in itself or in what is nested in it. -/
inductive Mentions (m : Model) : Definition → String → Prop
  | target {d : Definition} {n : String} : d.isAssociation = true → d.target = some n →
      Mentions m d n
  | path {d : Definition} {n : String} {rest : List String} :
      d.type = some (.path (n :: rest)) → Mentions m d n
  | type {d : Definition} {text n : String} : d.type = some (.name text) →
      m.typeHead? text = some n → Mentions m d n
  | items {d item : Definition} {n : String} : d.items = some item → Mentions m item n →
      Mentions m d n
  | element {d : Definition} {entry : String × Definition} {n : String} :
      entry ∈ d.ownElements → Mentions m entry.2 n → Mentions m d n
  | action {d : Definition} {entry : String × Definition} {n : String} :
      entry ∈ d.actions.getD [] → Mentions m entry.2 n → Mentions m d n
  | param {d : Definition} {entry : String × Definition} {n : String} :
      entry ∈ d.params.getD [] → Mentions m entry.2 n → Mentions m d n
  | returns {d result : Definition} {n : String} : d.returns = some result →
      Mentions m result n → Mentions m d n

/-- A definition that gives a class, a type or an enum. -/
def GivesType (m : Model) (name : String) : Prop :=
  ∃ d, m.find? name = some d ∧ Step.isLocalized name = false ∧
    (d.kind = some .entity ∨ d.kind = some .aspect ∨ d.kind = some .type ∨ d.kind = some .event)

theorem GivesType.mem_names {m : Model} {name : String} (h : m.GivesType name) :
    name ∈ Table.names m.definitions := by
  obtain ⟨d, hd, -⟩ := h
  exact mem_names_of_find? hd

/-- A definition that gives a function that adds properties to a class. -/
def GivesAspect (m : Model) (name : String) : Prop :=
  ∃ d, m.find? name = some d ∧ Step.isLocalized name = false ∧
    (d.kind = some .entity ∨ d.kind = some .aspect ∨ d.kind = some .type ∧ d.isStructure = true)

theorem GivesAspect.givesType {m : Model} {name : String} (h : m.GivesAspect name) :
    m.GivesType name := by
  obtain ⟨d, hd, hl, hk | hk | ⟨hk, _⟩⟩ := h
  · exact ⟨d, hd, hl, Or.inl hk⟩
  · exact ⟨d, hd, hl, Or.inr (Or.inl hk)⟩
  · exact ⟨d, hd, hl, Or.inr (Or.inr (Or.inl hk))⟩

/-- What a model mentions as a type gives one, what it includes gives a
function, and no segment of a name is empty or holds a separator. -/
structure TypesOnly (m : Model) : Prop where
  mentioned : ∀ {name d n}, m.find? name = some d → m.Mentions d n → m.defines n = true →
    m.GivesType n
  /-- In the result of a bound operation the name of the entity is a type. -/
  bound : ∀ {name d entry result n}, m.find? name = some d → entry ∈ d.actions.getD [] →
    entry.2.returns = some result → m.Mentions (result.boundTo name) n → n ≠ name →
    m.defines n = true → m.GivesType n
  included : ∀ {name d n}, m.find? name = some d → n ∈ d.ancestors → m.defines n = true →
    m.GivesAspect n
  plain : m.PlainNames

/-! ## Definitions that mention types -/

/-- What a definition mentions gives a type, where it is defined. -/
def MentionsTypes (m : Model) (d : Definition) : Prop :=
  ∀ n, m.Mentions d n → m.defines n = true → m.GivesType n

namespace MentionsTypes

variable {m : Model} {d : Definition}

theorem element {entry : String × Definition} (h : m.MentionsTypes d)
    (hentry : entry ∈ d.ownElements) : m.MentionsTypes entry.2 :=
  fun n hn => h n (.element hentry hn)

theorem action {entry : String × Definition} (h : m.MentionsTypes d)
    (hentry : entry ∈ d.actions.getD []) : m.MentionsTypes entry.2 :=
  fun n hn => h n (.action hentry hn)

theorem param {entry : String × Definition} (h : m.MentionsTypes d)
    (hentry : entry ∈ d.params.getD []) : m.MentionsTypes entry.2 :=
  fun n hn => h n (.param hentry hn)

theorem returns {result : Definition} (h : m.MentionsTypes d) (hresult : d.returns = some result) :
    m.MentionsTypes result :=
  fun n hn => h n (.returns hresult hn)

/-- A foreign key mentions what the key mentions. -/
theorem synthetic {element : Definition} (h : m.MentionsTypes d) :
    m.MentionsTypes (Step.synthetic element d) := by
  intro n hn
  cases hn with
  | target ha ht => exact h n (.target ha ht)
  | path ht => exact h n (.path ht)
  | type ht hhead => exact h n (.type ht hhead)
  | items hi hn => exact h n (.items hi hn)
  | element he hn => exact h n (.element he hn)
  | action ha hn => exact h n (.action ha hn)
  | param hp hn => exact h n (.param hp hn)
  | returns hr hn => exact h n (.returns hr hn)

end MentionsTypes

theorem TypesOnly.mentionsTypes {m : Model} {name : String} {d : Definition} (h : m.TypesOnly)
    (hd : m.find? name = some d) : m.MentionsTypes d :=
  fun _ hn => h.mentioned hd hn

/-- Elements mention types, inherited ones included. -/
theorem TypesOnly.allElements {m : Model} {name : String} {d : Definition} (h : m.TypesOnly)
    (hd : m.find? name = some d) {entry : String × Definition} (hentry : entry ∈ m.allElements d) :
    m.MentionsTypes entry.2 := by
  obtain ⟨d', hd', hmem⟩ := mem_allElements hentry
  rcases mem_lineage hd' with rfl | ⟨name', hname'⟩
  · exact (h.mentionsTypes hd).element hmem
  · exact (h.mentionsTypes hname').element hmem

end Model

/-! ## What a type refers to -/

/-- A place in the generated code with the names that are printed there. -/
structure Reference where
  /-- The place. -/
  place : Place
  /-- The names. -/
  names : List String

namespace TypeInfo

mutual

/-- What a type refers to. -/
def references : TypeInfo → List Reference
  | .builtin .. => []
  | .association _ _ many _ target =>
      [⟨target.place, if many then [target.names.singular, target.names.plural]
        else [target.names.singular]⟩]
  | .userDefined _ u => [⟨u.place, [u.names.singular]⟩]
  | .library .. => []
  | .selfReference _ place name => [⟨place, [name]⟩]
  | .inline _ members => memberReferences members
  | .enumeration .. => []
  | .array _ item => references item

/-- What the members of a structure refer to. -/
def memberReferences : List (String × TypeInfo) → List Reference
  | [] => []
  | (_, info) :: rest => references info ++ memberReferences rest

end

end TypeInfo

/-! ## What an emission refers to -/

/-- A definition as a reference to the one it stands for. -/
def UserDefined.toReference (u : UserDefined) : Reference := ⟨u.place, [u.names.singular]⟩

def Property.references (properties : List Property) : List Reference :=
  properties.flatMap fun p => p.type.references

def Signature.references (s : Signature) : List Reference :=
  (s.parameters.flatMap fun p => p.type.references) ++ (s.result.map TypeInfo.references).getD []

def BoundAction.references (actions : List BoundAction) : List Reference :=
  actions.flatMap fun a => a.signature.references

namespace Declaration

/-- The functions of other definitions that a declaration applies. -/
def mixins : Declaration → List Reference
  | .aspect a => a.ancestors.map UserDefined.toReference
  | _ => []

/-- The classes and types that a declaration refers to. -/
def references : Declaration → List Reference
  | .aspect a =>
      a.ancestors.map UserDefined.toReference ++ Property.references a.properties ++
        BoundAction.references a.actions
  | .typeAlias _ _ type => type.references
  | .operation _ _ signature => signature.references
  | .event _ _ _ properties => Property.references properties
  | _ => []

end Declaration

/-- The functions of other definitions that an emission applies. -/
def Emission.mixins (e : Emission) : List Reference :=
  e.placements.flatMap fun p => p.declarations.flatMap Declaration.mixins

/-- The classes and types that an emission refers to. -/
def Emission.references (e : Emission) : List Reference :=
  e.placements.flatMap fun p => p.declarations.flatMap Declaration.references

namespace Model

/-- Where a definition stands, as seen from the file of a namespace. -/
def placeFrom (m : Model) (home : Path) (name : String) : Place :=
  ⟨(m.nameParts name).path, (m.nameParts name).scope, !(m.nameParts name).path.isHere home⟩

/-- A reference, written in the file of a namespace that has some imports, has
the place and the names of a definition that gives a type. -/
def Points (m : Model) (home : Path) (imports : List Path) (ref : Reference) : Prop :=
  ∃ n, m.GivesType n ∧ ref.place = m.placeFrom home n ∧
    (∀ name ∈ ref.names, name = (m.inflection (m.nameParts n)).singular ∨
      name = (m.inflection (m.nameParts n)).plural) ∧
    (ref.place.imported = true → ref.place.path ∈ imports)

/-- A reference has the place and the singular of a definition that gives a
function. -/
def PointsToAspect (m : Model) (home : Path) (ref : Reference) : Prop :=
  ∃ n, m.GivesAspect n ∧ ref.place = m.placeFrom home n ∧
    ref.names = [(m.inflection (m.nameParts n)).singular]

theorem Points.mono {m : Model} {home : Path} {imports imports' : List Path} {ref : Reference}
    (h : m.Points home imports ref) (hsub : imports ⊆ imports') : m.Points home imports' ref := by
  obtain ⟨n, hn, hplace, hnames, himport⟩ := h
  exact ⟨n, hn, hplace, hnames, fun hi => hsub (himport hi)⟩

/-- A namespace that holds a definition that gives a type. -/
def TypeSpace (m : Model) (p : Path) : Prop := ∃ n, m.GivesType n ∧ p = (m.nameParts n).path

end Model

end SchemaTypes
