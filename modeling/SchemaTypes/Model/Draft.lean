import SchemaTypes.CompileError
import SchemaTypes.Diagnostic
import SchemaTypes.Model.Basic

/-!
# Draft trees

An entity in a service that is marked by `@odata.draft.enabled: true` is the
root of a draft tree.  The tree goes on along compositions.  It does not go on
to a target outside of every service, which is worth a warning, and not to a
target that is marked itself.  A target marked as false just ends its branch.
A target marked as true is a root of its own, and composing it is a conflict.

Every entity of a tree can be drafted, unless the root of the tree is the
target of a conflict.  A conflict of any tree stops the compilation.
-/

namespace SchemaTypes

/-- What walking the draft trees has found so far. -/
structure DraftFindings where
  /-- The wording of each conflict. -/
  conflicts : List String := []
  /-- The roots that are targets of a conflict. -/
  conflicting : List String := []
  /-- The findings to be listed. -/
  diagnostics : List Diagnostic := []

/-- The walk over one draft tree. -/
structure DraftTree where
  /-- The root. -/
  root : String
  /-- The entities of the tree so far. -/
  visited : List String := []
  /-- The other roots this tree has reported. -/
  reported : List String := []
  /-- What all walks have found so far. -/
  findings : DraftFindings := {}

namespace DraftTree

/-- Adds an entity to the tree. -/
def enter (t : DraftTree) (name : String) : DraftTree := { t with visited := name :: t.visited }

/-- The wording of a composition that leaves the service. -/
def outsideMessage (root owner element : String) : String :=
  "composition '" ++ owner ++ "." ++ element ++
    "' leaves the service; not propagating drafts from '" ++ root ++ "'"

/-- The wording of a root that another root composes. -/
def conflictMessage (root target : String) : String :=
  "'" ++ target ++ "' is draft-enabled on its own but also composed by draft root '" ++ root ++ "'"

/-- Reports a composition that leaves the service. -/
def warnOutside (t : DraftTree) (owner element target : String) : DraftTree :=
  { t with
    findings.diagnostics :=
      t.findings.diagnostics ++ [.warn target (outsideMessage t.root owner element)] }

/-- Reports a composed root, once for each tree. -/
def reportConflict (t : DraftTree) (target : String) : DraftTree :=
  if t.reported.contains target then t
  else
    let message := conflictMessage t.root target
    { t with
      reported := target :: t.reported
      findings :=
        { conflicts := t.findings.conflicts ++ [message]
          conflicting := target :: t.findings.conflicting
          diagnostics := t.findings.diagnostics ++ [.fail target message] } }

end DraftTree

namespace Model

/-- The target of a composition. -/
def compositionTarget? (element : Definition) : Option String :=
  if element.isComposition then element.target else none

/-- Whether a definition says if it can be drafted. -/
def draftMark? (d : Definition) : Option Bool :=
  (d.note? Definition.draftNote).bind Json.Value.asBool?

/-- Walks on from an entity.  Each level adds a defined name to the tree, so
the number of definitions bounds the levels. -/
def visitDraft (m : Model) : Nat → String → DraftTree → DraftTree
  | 0, _, t => t
  | levels + 1, name, t =>
      if t.visited.contains name then t
      else
        match m.find? name with
        | none => t.enter name
        | some d =>
            (m.allElements d).foldl (fun t (elementName, element) =>
              match compositionTarget? element with
              | none => t
              | some target =>
                  if t.visited.contains target then t
                  else
                    match m.find? target with
                    | none => t
                    | some targetDefinition =>
                        if !m.inService target then t.warnOutside name elementName target
                        else
                          match draftMark? targetDefinition with
                          | some true => t.reportConflict target
                          | some false => t
                          | none => m.visitDraft levels target t)
              (t.enter name)

/-- Whether a definition is the root of a draft tree. -/
def isDraftRoot (m : Model) (name : String) (d : Definition) : Bool :=
  d.isKind .entity && d.noteIsTrue Definition.draftNote && m.inService name

/-- The roots of the draft trees, in order. -/
def draftRoots (m : Model) : List String :=
  (m.definitions.filter fun entry => m.isDraftRoot entry.1 entry.2).map (·.1)

/-- The draft trees, in the order of their roots, and what walking them has
found. -/
def draftTrees (m : Model) : List String → DraftFindings → List DraftTree × DraftFindings
  | [], findings => ([], findings)
  | root :: rest, findings =>
      let tree := m.visitDraft m.definitions.length root { root, findings }
      let (trees, findings) := m.draftTrees rest tree.findings
      (tree :: trees, findings)

end Model

/-- What draft propagation has found. -/
structure DraftCollection where
  /-- The entities that can be drafted, in ascending order. -/
  enabled : List String
  /-- The wording of each conflict. -/
  conflicts : List String
  /-- The findings to be listed. -/
  diagnostics : List Diagnostic

namespace DraftCollection

/-- Puts a name into an ascending list, unless it is there. -/
def insertName (name : String) : List String → List String
  | [] => [name]
  | n :: rest =>
      if name = n then n :: rest
      else if name < n then name :: n :: rest
      else n :: insertName name rest

/-- The names in ascending order, each once. -/
def ascending (names : List String) : List String := names.foldr insertName []

/-- The entities that can be drafted, or the conflicts as the cause why there
is no answer. -/
def result (c : DraftCollection) : Except CompileError (List String) :=
  if c.conflicts.isEmpty then .ok c.enabled else .error (.draftConflicts c.conflicts)

end DraftCollection

/-- Walks all draft trees of a model. -/
def Model.collectDrafts (m : Model) : DraftCollection :=
  let (trees, findings) := m.draftTrees m.draftRoots {}
  let kept := trees.filter fun tree => !findings.conflicting.contains tree.root
  ⟨DraftCollection.ascending (kept.flatMap (·.visited)), findings.conflicts, findings.diagnostics⟩

end SchemaTypes
