import SchemaTypes.Proofs.Outcome
import SchemaTypes.Proofs.Registry

/-!
# What steps leave alone

A step changes the session in few ways.  It notes what a type needs, asks for
foreign keys, lists findings, takes a plural, and counts a definition as being written
while it makes another step.  A `Frame` is a relation between sessions that holds
across each of these but the taking of plurals, so it holds across every step that
takes none, whatever came of the step (`Step.Keeps`).  It may hold across the listing
of some findings only.  What a visit finds is about the definition that is visited.

Two frames are used in many places.  No step takes back a finding or a plural, adds a
library, or leaves a definition behind as being written (`Session.Grows`).  And what steps
add to the findings is of the kind that they make (`Session.Reports`).  Both hold across the
taking of plurals as well (`Step.Keeps.checkCollisions`), so they hold across every run
(`Step.emissions_grows`, `Step.emissions_reports`).
-/

namespace SchemaTypes

/-- A relation between sessions that holds across the ways a session changes, as far as the
findings are of a kind. -/
structure Frame (R : Session → Session → Prop) (F : Diagnostic → Prop) : Prop where
  refl : ∀ s, R s s
  trans : ∀ {s s' s''}, R s s' → R s' s'' → R s s''
  note : ∀ s needs, R s (s.note needs)
  ask : ∀ (s : Session) (m : Model) association,
    R s { s with keys := (m.foreignKeys association s.keys).2 }
  report : ∀ s {d}, F d → R s (s.report d)
  begin : ∀ s : Session, R s { s with imports := [] }
  within : ∀ {s t name}, R (s.push name) t → R s t.pop

namespace Step

variable {R : Session → Session → Prop} {F : Diagnostic → Prop} {α β : Type}

/-- A step leaves a related session behind, whatever came of it. -/
def Keeps (R : Session → Session → Prop) (x : Step α) : Prop := ∀ s, R s (x s).2

namespace Keeps

variable (hR : Frame R F)
include hR

theorem pure (a : α) : Keeps R (Pure.pure a : Step α) := hR.refl

theorem bind {x : Step α} {next : α → Step β} (hx : Keeps R x) (hnext : ∀ a, Keeps R (next a)) :
    Keeps R (x >>= next) := by
  intro s
  have hfirst := hx s
  rw [bind_run]
  rcases hrun : x s with ⟨answer, t⟩
  rw [hrun] at hfirst
  cases answer with
  | error e => exact hfirst
  | ok a => exact hR.trans hfirst (hnext a t)

theorem map {f : α → β} {x : Step α} (hx : Keeps R x) : Keeps R (f <$> x) := by
  rw [map_eq_pure_bind]
  exact bind hR hx fun a => pure hR (f a)

theorem ofExcept (e : Except CompileError α) : Keeps R (Step.ofExcept e) := hR.refl

theorem report {d : Diagnostic} (hd : F d) : Keeps R (Step.report d) := fun s => hR.report s hd

theorem resolve (home : Path) (find : Site → Resolution α) : Keeps R (Step.resolve home find) :=
  fun s => hR.note s _

theorem ask (m : Model) (association : Definition) :
    Keeps R (Step.ask (m.foreignKeys association)) := fun s => hR.ask s m association

theorem within {x : Step α} (name : String) (hx : Keeps R x) : Keeps R (Step.within name x) :=
  fun s => hR.within (hx (s.push name))

/-- A step that is only made under a condition, and then another one. -/
theorem when {c : Prop} [Decidable c] {x : Step Unit} {next : Unit → Step α} (hx : Keeps R x)
    (hnext : ∀ u, Keeps R (next u)) : Keeps R (if c then x >>= next else next ()) := by
  split
  · exact bind hR hx hnext
  · exact hnext ()

/-! ## Operations and events -/

variable {m : Model} {home : Path}

theorem parameters (operation : String) :
    ∀ params, Keeps R (Step.parameters m home operation params)
  | [] => pure hR _
  | (name, element) :: rest => by
    rw [Step.parameters]
    split
    · exact parameters operation rest
    · exact bind hR (resolve hR _ _) fun _ => bind hR (parameters operation rest) fun _ =>
        pure hR _

theorem result (operation : String) (entity? : Option String) (d : Definition) :
    Keeps R (Step.result m home operation entity? d) := by
  rw [Step.result]
  split
  · exact pure hR _
  · exact bind hR (resolve hR _ _) fun _ => pure hR _

theorem signature (operation : String) (entity? : Option String) (d : Definition) :
    Keeps R (Step.signature m home operation entity? d) :=
  bind hR (parameters hR operation _) fun _ => bind hR (result hR operation entity? d) fun _ =>
    pure hR _

theorem boundActions (entity : String) :
    ∀ actions, Keeps R (Step.boundActions m home entity actions)
  | [] => pure hR _
  | (name, d) :: rest => bind hR (signature hR name (some entity) d) fun _ =>
      bind hR (boundActions entity rest) fun _ => pure hR _

theorem operation (name : String) (d : Definition) : Keeps R (Step.operation m name d) :=
  bind hR (signature hR _ none d) fun _ => pure hR _

theorem eventProperties (event : String) :
    ∀ elements, Keeps R (Step.eventProperties m home event elements)
  | [] => pure hR _
  | _ :: rest => bind hR (resolve hR _ _) fun _ =>
      bind hR (eventProperties event rest) fun _ => pure hR _

theorem event (name : String) (d : Definition) : Keeps R (Step.event m name d) :=
  bind hR (eventProperties hR _ _) fun _ => pure hR _

/-! ## Class bodies -/

section Body

variable (o : ClassOwner) (hF : ∀ x : Diagnostic, x.subject = o.full → F x)
include hF

theorem foreignKeyProperties (property : String) (element : Definition) :
    ∀ keys, Keeps R (Step.foreignKeyProperties m o property element keys)
  | [] => pure hR _
  | (suffix, key) :: rest => by
    rw [Step.foreignKeyProperties]
    dsimp only
    split
    · exact when hR (report hR (hF _ rfl)) fun _ => foreignKeyProperties property element rest
    · exact bind hR (resolve hR _ _) fun _ =>
        bind hR (foreignKeyProperties property element rest) fun _ => pure hR _

theorem foreignKeysOf (property : String) (element : Definition) :
    Keeps R (Step.foreignKeysOf m o property element) := by
  refine bind hR (ofExcept hR _) fun association => ?_
  split
  · exact bind hR (ask hR _ _) fun keys => foreignKeyProperties hR o hF property element keys
  · exact pure hR _

theorem elementBody (property : String) (element : Definition) :
    Keeps R (Step.elementBody m o property element) :=
  bind hR (resolve hR _ _) fun _ => bind hR (foreignKeysOf hR o hF property element) fun _ =>
    pure hR _

theorem bodyOf : ∀ elements, Keeps R (Step.bodyOf m o elements)
  | [] => pure hR _
  | (property, element) :: rest => by
    rw [Step.bodyOf]
    split
    · exact bodyOf rest
    · exact bind hR (elementBody hR o hF property element) fun _ =>
        bind hR (bodyOf rest) fun _ => pure hR _

omit hF in
theorem ancestors : ∀ names, Keeps R (Step.ancestors m home names)
  | [] => pure hR _
  | _ :: rest => bind hR (resolve hR _ _) fun _ => bind hR (ancestors rest) fun _ => pure hR _

theorem aspect (kind : Kind) : Keeps R (Step.aspect m o kind) :=
  bind hR (ancestors hR _) fun _ => bind hR (within hR o.full (bodyOf hR o hF _)) fun _ =>
    bind hR (boundActions hR o.full _) fun _ => pure hR _

end Body

/-! ## Definitions -/

theorem plainType (name : String) (d : Definition) : Keeps R (Step.plainType m name d) := by
  rw [Step.plainType]
  dsimp only
  split
  · exact pure hR _
  · exact bind hR (resolve hR _ _) fun _ => pure hR _

theorem warnings (name : String) (hF : ∀ message, F (.warn name message))
    (issues : List Naming.NamingIssue) :
    Keeps R (forIn issues PUnit.unit fun issue _ => do
      Step.report (.warn name issue.describe)
      Pure.pure (ForInStep.yield PUnit.unit) : Step PUnit) := by
  induction issues with
  | nil => exact pure hR _
  | cons issue rest ih =>
    rw [List.forIn_cons]
    refine bind hR (bind hR (report hR (hF _)) fun _ => pure hR _) fun next => ?_
    cases next with
    | done => exact pure hR _
    | yield => exact ih

section Visits

variable {name : String} (hF : ∀ x : Diagnostic, x.subject = name → F x)
  (hcheck : ∀ name parts names, Keeps R (Step.checkCollisions m name parts names))
include hF hcheck

/-- A definition with elements takes a plural at most. -/
theorem structured (d : Definition) (kind : Kind) : Keeps R (Step.structured m name d kind) := by
  rw [Step.structured]
  refine bind hR (warnings hR name (fun _ => hF _ rfl) _) fun _ => ?_
  refine when hR (hcheck _ _ _) fun _ => ?_
  exact bind hR (aspect hR _ hF kind) fun _ => bind hR hR.refl fun _ => pure hR _

theorem visit (d : Definition) : Keeps R (Step.emission m name d) := by
  have hkinds : ∀ kind, Keeps R (Step.emissionOfKind m name d kind) := by
    intro kind
    cases kind with
    | entity | aspect => exact map hR (structured hR hF hcheck d _)
    | type =>
      simp only [Step.emissionOfKind]
      split
      · exact map hR (structured hR hF hcheck d _)
      · exact map hR (plainType hR name d)
    | action | function => exact map hR (operation hR name d)
    | event => exact map hR (event hR name d)
    | service | context | annotationDef | other => exact pure hR _
  rw [Step.emission]
  split
  · exact pure hR _
  · split
    · exact pure hR _
    · exact bind hR hR.begin fun _ => bind hR (hkinds _) fun _ => bind hR hR.refl fun _ =>
        pure hR _

end Visits

theorem visits (hcheck : ∀ name parts names, Keeps R (Step.checkCollisions m name parts names)) :
    ∀ definitions : Table Definition,
      (∀ name ∈ definitions.names, ∀ x : Diagnostic, x.subject = name → F x) →
      Keeps R (Step.emissions m definitions)
  | [], _ => pure hR _
  | (name, d) :: rest, hF =>
      bind hR (visit hR (hF name List.mem_cons_self) hcheck d) fun _ =>
        bind hR (visits hcheck rest fun n hn => hF n (List.mem_cons_of_mem _ hn)) fun _ =>
          pure hR _

omit hR in
theorem emission (hR : Frame R fun _ => True)
    (hcheck : ∀ name parts names, Keeps R (Step.checkCollisions m name parts names))
    (name : String) (d : Definition) : Keeps R (Step.emission m name d) :=
  visit hR (fun _ _ => trivial) hcheck d

end Keeps

end Step

/-! ## Frames -/

namespace Session

variable {s s' s'' : Session}

/-- A session that has come out of another one by steps. -/
structure Grows (s s' : Session) : Prop where
  context : s'.context = s.context
  libraries : s'.registry.libraries = s.registry.libraries
  diagnostics : s.diagnostics <+: s'.diagnostics
  plurals : s.plurals <+: s'.plurals

theorem Grows.refl (s : Session) : s.Grows s :=
  ⟨rfl, rfl, List.prefix_refl _, List.prefix_refl _⟩

theorem grows_frame : Frame Grows fun _ => True where
  refl := .refl
  trans h h' := ⟨h'.context.trans h.context, h'.libraries.trans h.libraries,
    h.diagnostics.trans h'.diagnostics, h.plurals.trans h'.plurals⟩
  note s needs := { Grows.refl s with libraries := Registry.libraries_markAll _ _ }
  ask s _ _ := { Grows.refl s with }
  report s _ _ := { Grows.refl s with diagnostics := List.prefix_append _ _ }
  begin s := { Grows.refl s with }
  within {s t name} h := { h with
    context := by
      rw [pop, h.context, push]
      exact List.dropLast_concat }

/-- What has been added to the findings is of a kind. -/
def Reports (F : Diagnostic → Prop) (s s' : Session) : Prop :=
  ∃ more, s'.diagnostics = s.diagnostics ++ more ∧ ∀ x ∈ more, F x

variable {F : Diagnostic → Prop}

theorem Reports.of_eq (h : s'.diagnostics = s.diagnostics) : Reports F s s' :=
  ⟨[], by rw [h, List.append_nil], by simp⟩

theorem Reports.trans (h : Reports F s s') (h' : Reports F s' s'') : Reports F s s'' := by
  obtain ⟨more, hmore, hF⟩ := h
  obtain ⟨others, hothers, hF'⟩ := h'
  refine ⟨more ++ others, by rw [hothers, hmore, List.append_assoc], fun x hx => ?_⟩
  rcases List.mem_append.mp hx with hx | hx
  · exact hF x hx
  · exact hF' x hx

/-- Steps that make no findings leave them as they are. -/
theorem Reports.diagnostics_eq (h : Reports (fun _ => False) s s') :
    s'.diagnostics = s.diagnostics := by
  obtain ⟨more, hmore, hnone⟩ := h
  rw [hmore, List.eq_nil_iff_forall_not_mem.mpr hnone, List.append_nil]

theorem reports_frame (F : Diagnostic → Prop) : Frame (Reports F) F where
  refl _ := .of_eq rfl
  trans := .trans
  note _ _ := .of_eq rfl
  ask _ _ _ := .of_eq rfl
  report _ d hd := ⟨[d], rfl, by simpa using hd⟩
  begin _ := .of_eq rfl
  within h := h

end Session

namespace Step

variable {m : Model}

/-- A frame that holds across the taking of plurals holds across the check of names. -/
theorem Keeps.checkCollisions {R : Session → Session → Prop} {F : Diagnostic → Prop}
    (hR : Frame R F) (htake : ∀ (s : Session) taken, R s { s with plurals := s.plurals ++ taken })
    (hF : ∀ name plural owner, F (pluralFinding name plural owner)) (name : String)
    (parts : NameParts) (names : Naming.Inflection) :
    Keeps R (Step.checkCollisions m name parts names) := by
  refine .when hR hR.refl fun _ => .bind hR hR.refl fun s => ?_
  split
  · exact fun t => htake t _
  · next owner _ =>
    by_cases howner : owner = name
    · rw [if_neg (not_not_intro howner)]
      exact .pure hR _
    · rw [if_pos howner]
      exact .report hR (hF name names.plural owner)

theorem checkCollisions_grows (name : String) (parts : NameParts) (names : Naming.Inflection) :
    Keeps Session.Grows (checkCollisions m name parts names) :=
  .checkCollisions Session.grows_frame
    (fun s _ => { Session.Grows.refl s with plurals := List.prefix_append _ _ })
    (fun _ _ _ => trivial) name parts names

theorem emissions_grows (definitions : Table Definition) :
    Keeps Session.Grows (emissions m definitions) :=
  .visits Session.grows_frame checkCollisions_grows definitions fun _ _ _ _ => trivial

theorem checkCollisions_reports {F : Diagnostic → Prop}
    (hF : ∀ name plural owner, F (pluralFinding name plural owner)) (name : String)
    (parts : NameParts) (names : Naming.Inflection) :
    Keeps (Session.Reports F) (checkCollisions m name parts names) :=
  .checkCollisions (Session.reports_frame F) (fun _ _ => .of_eq rfl) hF name parts names

theorem emissions_reports {F : Diagnostic → Prop}
    (hplural : ∀ name plural owner, F (pluralFinding name plural owner))
    (definitions : Table Definition)
    (hF : ∀ name ∈ definitions.names, ∀ x : Diagnostic, x.subject = name → F x) :
    Keeps (Session.Reports F) (emissions m definitions) :=
  .visits (Session.reports_frame F) (checkCollisions_reports hplural) definitions hF

/-- Every definition is visited, and what comes later takes nothing back. -/
theorem emission_of_mem_grows {definitions : Table Definition} {es : List Emission}
    {s s' : Session} {name : String} {d : Definition}
    (h : emissions m definitions s = (.ok es, s')) (hd : (name, d) ∈ definitions) :
    ∃ e? t t', emission m name d t = (.ok e?, t') ∧ t'.Grows s' := by
  obtain ⟨before, after, rfl⟩ := List.append_of_mem hd
  obtain ⟨_, _, t, -, hafter, -⟩ := emissions_append h
  obtain ⟨e?, t', others, hfirst, hothers, -⟩ := emissions_cons_eq_ok hafter
  have hlater := emissions_grows (m := m) after t'
  rw [hothers] at hlater
  exact ⟨e?, t, t', hfirst, hlater⟩

end Step

end SchemaTypes
