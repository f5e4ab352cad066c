import SchemaTypes.Plan.Output
import SchemaTypes.Proofs.Code.Extension
import SchemaTypes.Proofs.Code.Fault
import SchemaTypes.Proofs.Outcome

/-!
# Visits lose nothing

The definitions of a model are visited in the order of the document, and a
definition of a kind that is generated code for belongs to the file of one
namespace (`Model.fileSpace?`).  `Model.mapAfter` is the table of files once the
first definitions of the document were visited.

There is one file for every namespace that came up, under its name and in the
order in which they came up.  Each visit takes the file of its own namespace out,
extends it and puts it back, and changes no other one (`Plan.visits_keep`).
-/

namespace SchemaTypes

variable {m : Model} {c : Config}

/-! ## Files and definitions -/

namespace Model

/-- The namespace whose file a definition is written to.  A service has a
namespace of its own name.  Definitions below `localized` are passed over, and
nothing is generated for the other kinds. -/
def fileSpace? (m : Model) (name : String) (d : Definition) : Option Path :=
  if Step.isLocalized name then none
  else
    match d.kind with
    | some .entity | some .aspect | some .type | some .action | some .function | some .event =>
        some (m.nameParts name).path
    | some .service => some (Path.ofDotted name)
    | some .context | some .annotationDef | some .other | none => none

/-- The namespaces of the files that definitions are written to, dotted, each
time one is written to. -/
def fileSpaces (m : Model) (visited : Table Definition) : List String :=
  visited.filterMap fun (name, d) => (m.fileSpace? name d).map Path.dotted

/-- The table of files once definitions were visited, or why there is none. -/
def mapAfter (m : Model) (c : Config) (visited : Table Definition) : Except Failure SourceTable :=
  match m.collectDrafts.result with
  | .error e => .error (.cause e)
  | .ok enabled =>
      match Step.emissions m visited (Plan.sessionFor m.collectDrafts enabled) with
      | (.error e, _) => .error (.cause e)
      | (.ok es, _) =>
          match SourceTable.emitAll c [] es with
          | .error fault => .error (.fault fault)
          | .ok files => .ok files

/-- The files once definitions were visited, or why there are none. -/
def filesAfter (m : Model) (c : Config) (visited : Table Definition) : Except Failure Store :=
  (m.mapAfter c visited).map Table.entries

/-- Whatever was visited, the visits fail with a cause, or there are files that can
be written on and finished. -/
theorem filesAfter_open (m : Model) (c : Config) (visited : Table Definition) :
    (∃ e, m.filesAfter c visited = .error (.cause e)) ∨
      ∃ files, m.filesAfter c visited = .ok files ∧ (∀ file ∈ files, file.Open) ∧
        ∃ sources, files.finished = .ok sources ∧
          List.Forall₂ SourceFile.Closes files sources := by
  simp only [filesAfter, mapAfter]
  split
  · next e _ => exact Or.inl ⟨e, rfl⟩
  · split
    · next e _ _ => exact Or.inl ⟨e, rfl⟩
    · next es _ _ =>
      obtain ⟨store, hstore, hopen, hfinished⟩ := Store.emitAll_finished c es
      obtain ⟨files, hfiles, -, rfl⟩ := SourceTable.exists_of_emitAll hstore
      rw [hfiles]
      exact Or.inr ⟨files.entries, rfl, hopen, hfinished⟩

end Model

namespace Step

variable {name : String} {d : Definition} {s s' : Session}

/-- A definition that has an emission adds it to the file it is written to. -/
theorem emission_path {e? : Option Emission} (h : emission m name d s = (.ok e?, s')) :
    e?.map (·.path) = m.fileSpace? name d := by
  rcases emission_eq_ok h with ⟨hleft, rfl, -⟩ | ⟨kind, made?, hlocal, hkind, hmade, rfl⟩
  · rcases hleft with hlocal | hnone
    · simp [Model.fileSpace?, hlocal]
    · simp [Model.fileSpace?, hnone]
  · have hmap : (made?.map fun e => ({ e with imports := s'.imports } : Emission)).map (·.path) =
        made?.map (·.path) := by
      cases made? <;> rfl
    rw [hmap, Model.fileSpace?, hlocal, hkind]
    cases hmade with
    | structured hkinds he =>
      obtain ⟨_, _, _, _, _, _, _, _, rfl⟩ := structured_eq_ok he
      rcases hkinds with rfl | rfl | ⟨rfl, -⟩ <;> rfl
    | plainType _ he => rcases plainType_eq_ok he with ⟨-, _, _, rfl⟩ | ⟨_, -, rfl⟩ <;> rfl
    | @operation kind _ hkinds he =>
      obtain ⟨_, -, rfl⟩ := operation_eq_ok he
      cases kind <;> first | rfl | cases hkinds
    | event he =>
      obtain ⟨_, -, rfl⟩ := event_eq_ok he
      rfl
    | service => rfl
    | nothing hkinds => rcases hkinds with rfl | rfl | rfl <;> rfl

theorem emissions_paths {visited : Table Definition} {es : List Emission}
    (h : emissions m visited s = (.ok es, s')) :
    es.map (fun e => e.path.dotted) = m.fileSpaces visited := by
  induction visited generalizing s es with
  | nil =>
    obtain ⟨rfl, -⟩ := pure_eq_ok h
    rfl
  | cons entry rest ih =>
    obtain ⟨name, d⟩ := entry
    obtain ⟨e?, t, others, he, hothers, rfl⟩ := emissions_cons_eq_ok h
    have hfirst := emission_path he
    have hrest := ih hothers
    simp only [Model.fileSpaces] at hrest ⊢
    cases e? with
    | none =>
      rw [List.filterMap_cons_none (by rw [← hfirst]; rfl)]
      exact hrest
    | some e =>
      rw [List.filterMap_cons_some (b := e.path.dotted) (by rw [← hfirst]; rfl)]
      exact congrArg (e.path.dotted :: ·) hrest

end Step

/-! ## Visits -/

theorem Model.mapAfter_of_emitAll {enabled : List String} {visited : Table Definition}
    {es : List Emission} {s : Session} {store : Store}
    (hdrafts : m.collectDrafts.result = .ok enabled)
    (hrun : Step.emissions m visited (Plan.sessionFor m.collectDrafts enabled) = (.ok es, s))
    (hstore : Store.emitAll c [] es = .ok store) :
    ∃ files, m.mapAfter c visited = .ok files ∧ SourceTable.emitAll c [] es = .ok files ∧
      files.Keyed ∧ files.entries = store := by
  obtain ⟨files, hfiles, hkeyed, hentries⟩ := SourceTable.exists_of_emitAll hstore
  exact ⟨files, by simp only [mapAfter, hdrafts, hrun, hfiles], hfiles, hkeyed, hentries⟩

/-- The table after visits that succeed has the files of the namespaces that came up. -/
theorem Model.mapAfter_eq_ok {enabled : List String} {visited : Table Definition}
    {es : List Emission} {s : Session} (hdrafts : m.collectDrafts.result = .ok enabled)
    (hrun : Step.emissions m visited (Plan.sessionFor m.collectDrafts enabled) = (.ok es, s)) :
    ∃ files, m.mapAfter c visited = .ok files ∧ SourceTable.emitAll c [] es = .ok files ∧
      files.Keyed ∧ files.names = (m.fileSpaces visited).eraseDups := by
  obtain ⟨store, hstore, -⟩ := Store.emitAll_finished c es
  obtain ⟨files, hafter, hfiles, hkeyed, rfl⟩ := mapAfter_of_emitAll hdrafts hrun hstore
  have hempty : Store.spaces [] = ([] : List String).eraseDups := rfl
  refine ⟨files, hafter, hfiles, hkeyed, ?_⟩
  rw [hkeyed.names, Store.emitAll_spaces hempty hstore, Step.emissions_paths hrun, List.nil_append]

/-- In a run that succeeds there is, after every visit, one file for each
namespace that came up, in order and under the name of the namespace.  The next
visit takes one file out, or starts it, and puts it back with more in it, and it
leaves all others as they are. -/
theorem Plan.visits_keep {plan : Plan} (c : Config) (h : Plan.ofModel m = .ok plan) :
    (∃ files, m.mapAfter c m.definitions = .ok files ∧
      plan.sources c = Store.finished files.entries) ∧
      ∀ visited rest, m.definitions = visited ++ rest →
        ∃ files, m.mapAfter c visited = .ok files ∧ files.Keyed ∧
          files.names = (m.fileSpaces visited).eraseDups ∧ files.names.Nodup ∧
          ∀ name d later, rest = (name, d) :: later →
            ∃ files', m.mapAfter c (visited ++ [(name, d)]) = .ok files' ∧
              match m.fileSpace? name d with
              | none => files' = files
              | some path => files.Visit path files' := by
  obtain ⟨enabled, s, hdrafts, hrun, -⟩ := ofModel_eq_ok h
  constructor
  · obtain ⟨files, hafter, hfiles, -⟩ := Model.mapAfter_eq_ok (c := c) hdrafts hrun
    exact ⟨files, hafter, by rw [Plan.sources, hfiles]; rfl⟩
  intro visited rest hsplit
  rw [hsplit] at hrun
  obtain ⟨es, es', t, hvisited, hrest, -⟩ := Step.emissions_append hrun
  obtain ⟨files, hafter, hfiles, hkeyed, hnames⟩ :=
    Model.mapAfter_eq_ok (c := c) hdrafts hvisited
  have hnodup : files.names.Nodup := by
    rw [hkeyed.names] at hnames ⊢
    exact Store.nodup_of_eraseDups hnames
  refine ⟨files, hafter, hkeyed, hnames, hnodup, ?_⟩
  rintro name d later rfl
  have hboth : Step.emissions m (visited ++ [(name, d)] ++ later)
      (sessionFor m.collectDrafts enabled) = (.ok plan.emissions, s) := by
    rwa [List.append_assoc]
  obtain ⟨both, _, t', hnext, -, -⟩ := Step.emissions_append hboth
  obtain ⟨es₁, es₂, t₁, hfirst, hsecond, rfl⟩ := Step.emissions_append hnext
  rw [hvisited] at hfirst
  cases hfirst
  obtain ⟨files', hafter', hfiles', -⟩ := Model.mapAfter_eq_ok (c := c) hdrafts hnext
  refine ⟨files', hafter', ?_⟩
  rw [SourceTable.emitAll_append, hfiles] at hfiles'
  obtain ⟨e?, u, _, he, hnone, rfl⟩ := Step.emissions_cons_eq_ok hsecond
  obtain ⟨rfl, -⟩ := Step.pure_eq_ok hnone
  rw [← Step.emission_path he]
  cases e? with
  | none =>
    cases hfiles'
    rfl
  | some e =>
    have hone : SourceTable.emitAll c files [e] = .ok files' := hfiles'
    rw [SourceTable.emitAll] at hone
    obtain ⟨middle, hemit, hdone⟩ := Except.bind_eq_ok hone
    cases hdone
    exact SourceTable.emit_visit hkeyed hemit

/-- A service with an action, books with translated texts, and their authors. -/
def shelf : Model where
  definitions :=
    [("shop", { kind := some .service }),
     ("shop.Books", {
        kind := some .entity
        elements := some [("title", { type := some (.name "cds.String") })] }),
     ("people.Authors", {
        kind := some .entity
        elements := some [("name", { type := some (.name "cds.String") })] }),
     ("shop.Books.texts", {
        kind := some .entity
        elements := some [("locale", { type := some (.name "cds.String"), key := true })] }),
     ("localized.shop.Books", { kind := some .entity }),
     ("shop.order", { kind := some .action })]

theorem visits_keep_shelf :
    ∃ plan, Plan.ofModel shelf = .ok plan ∧
      ∃ files files', shelf.mapAfter {} (shelf.definitions.take 5) = .ok files ∧
        files.names = ["shop", "people"] ∧
        shelf.mapAfter {} (shelf.definitions.take 5 ++ [("shop.order", { kind := some .action })]) =
          .ok files' ∧
        files.Visit ⟨["shop"]⟩ files' := by
  obtain ⟨plan, hplan⟩ := Except.exists_eq_ok (x := Plan.ofModel shelf) (by decide +kernel)
  obtain ⟨files, hfiles, -, hnames, -, hnext⟩ := (plan.visits_keep {} hplan).2
    (shelf.definitions.take 5) [("shop.order", { kind := some .action })] rfl
  obtain ⟨files', hfiles', hvisit⟩ := hnext _ _ _ rfl
  exact ⟨plan, hplan, files, files', hfiles, hnames.trans (by decide), hfiles', hvisit⟩

end SchemaTypes
