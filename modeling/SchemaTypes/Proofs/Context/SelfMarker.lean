import SchemaTypes.Proofs.Code.Contents
import SchemaTypes.Proofs.Context.Marks

/-!
# The marker of the definition being written

The text of an association that a type holds is part of a line of every declaration
that mentions the type (`Declaration.shows`).  So what is printed for the associations of a
model can be read off the sessions in which they were resolved: the marker stands for the
target of an association in the class body of that target, and nowhere else
(`compile_marks`).
-/

namespace SchemaTypes

/-! ## Runs -/

/-- A run comes to the visit of a definition in a session. -/
def Model.Visits (m : Model) (name : String) (d : Definition) (s : Session) : Prop :=
  ∃ enabled visited later es, m.collectDrafts.result = .ok enabled ∧
    m.definitions = visited ++ (name, d) :: later ∧
    Step.emissions m visited (Plan.sessionFor m.collectDrafts enabled) = (.ok es, s)

/-- What an emission prints for associations: only the class body of its definition is
printed with the marker, and the marker stands for that definition. -/
structure Emission.PrintsMarks (e : Emission) (m : Model) (c : Config) (name : String)
    (d : Definition) (s : Session) : Prop where
  bodies : ∀ p ∈ e.placements, ∀ a, .aspect a ∈ p.declarations → e.HasBody name a
  associations : ∀ p ∈ e.placements, ∀ decl ∈ p.declarations, ∀ own, ∀ type ∈ decl.types own,
    ∀ held, type.Holds held → held.isAssociation = true →
      ∃ element t container x target, Step.Resolves m name d s own (.type element) t ∧
        m.Marks e.path (if own then some name else none) element container x target held ∧
        ∃ line ∈ Code.lines (decl.code c), (held.text c).toList <:+: line.toList

variable {m : Model} {name : String} {d : Definition} {s s' : Session}

theorem Model.Visits.context (h : m.Visits name d s) : s.context = [] := by
  obtain ⟨enabled, visited, later, es, -, -, hrun⟩ := h
  have hgrows := Step.emissions_grows (m := m) visited (Plan.sessionFor m.collectDrafts enabled)
  rw [hrun] at hgrows
  exact hgrows.context

theorem Model.Visits.printsMarks {e : Emission} (h : m.Visits name d s)
    (he : Step.emission m name d s = (.ok (some e), s')) (c : Config) :
    e.PrintsMarks m c name d s where
  bodies p hp a ha := (Step.emission_types he p hp _ ha).1 a rfl
  associations := by
    intro p hp decl hdecl own type htype held hholds hheld
    obtain ⟨element, t, hresolves, hint, hfound⟩ :=
      (Step.emission_types he p hp decl hdecl).2 own type htype
    have hcurrent : (t.site e.path).current = if own then some name else none := by
      rw [Session.site, Session.current?, hresolves.context h.context]
      cases own <;> rfl
    obtain ⟨container, x, target, hmarks⟩ := Model.resolveWithin_marks hfound hholds hheld
    rw [hcurrent] at hmarks
    have hinline : held.isInline = false := by
      cases held <;> first | rfl | cases hheld
    obtain ⟨code, hcode, hshows⟩ := Declaration.shows hholds hinline c htype
    exact ⟨element, t, container, x, target, hresolves, hmarks, hshows.exists_mem_lines hcode⟩

/-- Nothing is being written before and after every visit, and the definition itself exactly
while its own elements and foreign keys are resolved.  So an association is printed with the
marker where it stands in the class body of its target, and with the name of the target
elsewhere. -/
theorem compile_marks (m : Model) (c : Config) :
    (∀ name d s, m.Visits name d s →
      s.context = [] ∧ (Step.emission m name d s).2.context = [] ∧
        ∀ own lookup t, Step.Resolves m name d s own lookup t →
          t.context = if own then [name] else []) ∧
    ∀ o, compile m c = .ok o →
      ∃ (plan : Plan) (files sources : Store), Plan.ofModel m = .ok plan ∧
        files.Collects c plan.emissions ∧ List.Forall₂ SourceFile.Closes files sources ∧
        o.files = baseFile :: plan.libraries.map Library.file ++
          sources.map (SourceFile.file c) ∧
        ∀ e ∈ plan.emissions, ∃ name d s s', m.Visits name d s ∧
          Step.emission m name d s = (.ok (some e), s') ∧ e.PrintsMarks m c name d s := by
  constructor
  · intro name d s hvisits
    have hcontext := hvisits.context
    have hgrows := Step.Keeps.emission (m := m) Session.grows_frame Step.checkCollisions_grows
      name d s
    exact ⟨hcontext, hgrows.context.trans hcontext, fun _ _ _ h => h.context hcontext⟩
  · intro o ho
    obtain ⟨plan, hplan, hrender⟩ := compile_eq_ok ho
    obtain ⟨sources, hsources, hfiles⟩ := Plan.render_eq_ok hrender
    obtain ⟨files, hcollects, hcloses⟩ := Plan.sources_collect hsources
    obtain ⟨enabled, last, hdrafts, hrun, -⟩ := Plan.ofModel_eq_ok hplan
    refine ⟨plan, files, sources, hplan, hcollects, hcloses, hfiles, fun e he => ?_⟩
    obtain ⟨before, after, hsplit⟩ := List.append_of_mem he
    rw [hsplit] at hrun
    obtain ⟨visited, name, d, later, s, s', hdefinitions, hbefore, hemission⟩ :=
      Step.emissions_split hrun
    have hvisits : m.Visits name d s := ⟨enabled, visited, later, _, hdrafts, hdefinitions, hbefore⟩
    exact ⟨name, d, s, s', hvisits, hemission, hvisits.printsMarks hemission c⟩

/-- The texts of the types that an emission mentions in its class body, or elsewhere. -/
def Emission.typeTexts (e : Emission) (c : Config) (own : Bool) : List String :=
  e.placements.flatMap fun p => p.declarations.flatMap fun d => (d.types own).map (·.text c)

/-- Nodes of trees with an operation that takes a node, and forests with the roots of their
trees. -/
def forest : Model where
  definitions :=
    [("tree.Nodes", {
        kind := some .entity
        elements := some
          [("ID", { type := some (.name "cds.UUID"), key := true }),
           ("parent", { type := some (.name "cds.Association"), target := some "tree.Nodes" }),
           ("children", {
              type := some (.name "cds.Composition")
              target := some "tree.Nodes"
              max := some (.string "*")
              condition := some (.bool true) }),
           ("links", {
              elements := some
                [("next", {
                    items := some {
                      type := some (.name "cds.Association")
                      target := some "tree.Nodes"
                      condition := some (.bool true) } })] })]
        actions := some
          [("graft", {
              kind := some .action
              params := some
                [("onto", { type := some (.name "cds.Association"), target := some "tree.Nodes" })]
              returns := some {
                type := some (.name "cds.Association")
                target := some "tree.Nodes"
                max := some (.string "*") } })] }),
     ("park.Forests", {
        kind := some .entity
        elements := some
          [("ID", { type := some (.name "cds.UUID"), key := true }),
           ("roots", {
              type := some (.name "cds.Association")
              target := some "tree.Nodes"
              max := some (.string "*")
              condition := some (.bool true) })] })]

theorem compile_marks_forest :
    ∃ (o : Output) (plan : Plan), compile forest {} = .ok o ∧ Plan.ofModel forest = .ok plan ∧
      plan.emissions.map (fun e => (e.typeTexts {} true, e.typeTexts {} false)) =
        [(["string", "__.Association.to<this>", "string", "__.Composition.of.many<this[]>",
            "\x7b next?: Array<__.Association.to<this>> | null \x7d"],
          ["__.Association.to<Node>", "__.Association.to.many<Nodes>"]),
         (["string", "__.Association.to.many<_tree.Nodes>"], [])] ∧
      ∀ e ∈ plan.emissions, ∃ name d s, forest.Visits name d s ∧ s.context = [] ∧
        e.PrintsMarks forest {} name d s := by
  have htexts : (Plan.ofModel forest).toOption.map (fun plan =>
      plan.emissions.map fun e => (e.typeTexts {} true, e.typeTexts {} false)) =
      some [(["string", "__.Association.to<this>", "string", "__.Composition.of.many<this[]>",
            "\x7b next?: Array<__.Association.to<this>> | null \x7d"],
          ["__.Association.to<Node>", "__.Association.to.many<Nodes>"]),
         (["string", "__.Association.to.many<_tree.Nodes>"], [])] := by
    decide +kernel
  obtain ⟨plan, hplan⟩ := Except.exists_eq_ok (x := Plan.ofModel forest) (by decide +kernel)
  rw [hplan] at htexts
  obtain ⟨o, ho⟩ := compile_ok {} hplan
  obtain ⟨hvisits, houtput⟩ := compile_marks forest {}
  obtain ⟨plan', files, sources, hplan', -, -, -, hprints⟩ := houtput o ho
  obtain rfl : plan = plan' := Except.ok.inj (hplan.symm.trans hplan')
  refine ⟨o, plan, ho, hplan, Option.some.inj htexts, fun e he => ?_⟩
  obtain ⟨name, d, s, s', hvisit, -, hmarks⟩ := hprints e he
  exact ⟨name, d, s, hvisit, (hvisits name d s hvisit).1, hmarks⟩

end SchemaTypes
