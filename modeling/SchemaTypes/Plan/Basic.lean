import SchemaTypes.Model.Draft
import SchemaTypes.Plan.Structure

/-!
# Plans

A plan says everything that is generated for a model: the emissions in the
order of the document, the libraries that are referred to and the findings.
It does not depend on the options.  They only come in when the plan is written
out.

Definitions below `localized` are left out, and so are definitions without a
kind and definitions that only contribute a namespace segment.
-/

namespace SchemaTypes

/-- Everything that is generated for a model. -/
structure Plan where
  /-- What goes into the files, in order. -/
  emissions : List Emission
  /-- The libraries that are referred to. -/
  libraries : List Library
  /-- The findings. -/
  diagnostics : List Diagnostic

namespace Step

/-- The emission of a type without elements: the constant of an enum, or
another name for a type. -/
def plainType (m : Model) (name : String) (d : Definition) : Step Emission := do
  let parts := m.nameParts name
  match d.values with
  | some (entry :: entries) =>
      let members := EnumMember.ofEntries (entry :: entries)
      pure {
        path := parts.path
        placements := [⟨sectionFor .enums parts.scope, [.constants parts.name d.doc members]⟩]
        enumStubs := [⟨Text.join "." (parts.scope ++ [parts.name]), EnumMember.literals members⟩] }
  | _ =>
      let type ← resolve parts.path fun site => m.resolve site d parts.name
      pure {
        path := parts.path
        placements := [⟨sectionFor .types parts.scope, [.typeAlias parts.name d.doc type]⟩] }

/-- Whether a name lies below `localized`. -/
def isLocalized (name : String) : Bool := "localized.".toList.isPrefixOf name.toList

/-- The emission of a definition of a kind, if it has one. -/
def emissionOfKind (m : Model) (name : String) (d : Definition) : Kind → Step (Option Emission)
  | .entity => some <$> structured m name d .entity
  | .aspect => some <$> structured m name d .aspect
  | .type =>
      if d.isStructure then some <$> structured m name d .type else some <$> plainType m name d
  | .action | .function => some <$> operation m name d
  | .event => some <$> event m name d
  | .service => pure (some (m.serviceEmission name))
  | .context | .annotationDef | .other => pure none

/-- The emission of a definition, if it has one, with the namespaces it refers
to. -/
def emission (m : Model) (name : String) (d : Definition) : Step (Option Emission) := do
  if isLocalized name then pure none
  else
    match d.kind with
    | none => pure none
    | some kind =>
        modify fun s => { s with imports := [] }
        let e? ← emissionOfKind m name d kind
        let imports := (← get).imports
        pure (e?.map fun e => { e with imports })

/-- The emissions of definitions, in order. -/
def emissions (m : Model) : Table Definition → Step (List Emission)
  | [] => pure []
  | (name, d) :: rest => do
      let e? ← emission m name d
      let others ← emissions m rest
      pure (e?.toList ++ others)

end Step

namespace Plan

/-- The session in which the definitions of a model are visited. -/
def sessionFor (drafts : DraftCollection) (enabled : List String) : Session :=
  { draftEnabled := enabled, diagnostics := drafts.diagnostics }

/-- The plan of a model, or the cause why there is none. -/
def ofModel (m : Model) : Except CompileError Plan :=
  let drafts := m.collectDrafts
  match drafts.result with
  | .error e => .error e
  | .ok enabled =>
      match Step.emissions m m.definitions (sessionFor drafts enabled) with
      | (.error e, _) => .error e
      | (.ok emissions, s) => .ok ⟨emissions, s.registry.referenced, s.diagnostics⟩

end Plan

end SchemaTypes
