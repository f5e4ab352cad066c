import SchemaTypes.Plan.Basic

/-!
# Outcomes of steps

A step of a compilation that succeeds was put together from steps that succeed.
`bind_eq_ok` takes one step after another apart, and there is a lemma like it
for every other way of making a step.  `structured_eq_ok` and its like take the
larger steps of a plan apart in the same way, and `Made` says once for all kinds
of definitions how an emission is made.
-/

namespace SchemaTypes

theorem Except.exists_eq_ok {ε α : Type} {x : Except ε α} (h : x.toOption.isSome = true) :
    ∃ a, x = .ok a := by
  cases x with
  | error e => cases h
  | ok a => exact ⟨a, rfl⟩

namespace Step

variable {α β : Type}

/-- One step and then another one, which is left out where the first fails. -/
theorem bind_run (x : Step α) (next : α → Step β) (s : Session) :
    (x >>= next) s =
      match x s with
      | (.ok a, s') => next a s'
      | (.error e, s') => (.error e, s') := by
  change (ExceptT.bind x next) s = _
  simp only [ExceptT.bind, ExceptT.mk, bind, StateT.bind, ExceptT.bindCont, pure]
  rcases x s with ⟨answer, s'⟩
  cases answer <;> rfl

theorem bind_eq_ok {x : Step α} {next : α → Step β} {s s'' : Session} {b : β}
    (h : (x >>= next) s = (.ok b, s'')) :
    ∃ a s', x s = (.ok a, s') ∧ next a s' = (.ok b, s'') := by
  rcases hx : x s with ⟨answer, s'⟩
  rw [bind_run, hx] at h
  cases answer with
  | error e => cases h
  | ok a => exact ⟨a, s', rfl, h⟩

theorem pure_eq_ok {a b : α} {s s' : Session} (h : (pure a : Step α) s = (.ok b, s')) :
    b = a ∧ s' = s := by
  cases h
  exact ⟨rfl, rfl⟩

theorem map_eq_ok {f : α → β} {x : Step α} {s s' : Session} {b : β}
    (h : (f <$> x) s = (.ok b, s')) : ∃ a, x s = (.ok a, s') ∧ f a = b := by
  rw [map_eq_pure_bind] at h
  obtain ⟨a, t, hx, h⟩ := bind_eq_ok h
  obtain ⟨rfl, rfl⟩ := pure_eq_ok h
  exact ⟨a, hx, rfl⟩

/-- A step that is only made under a condition, and then another one. -/
theorem when_eq_ok {c : Prop} [Decidable c] {x : Step Unit} {next : Unit → Step α}
    {s s' : Session} {a : α} (h : (if c then x >>= next else next ()) s = (.ok a, s')) :
    ∃ t, (c ∧ x s = (.ok (), t) ∨ ¬ c ∧ t = s) ∧ next () t = (.ok a, s') := by
  split at h
  · next hc =>
    obtain ⟨_, t, hx, hnext⟩ := bind_eq_ok h
    exact ⟨t, Or.inl ⟨hc, hx⟩, hnext⟩
  · next hc => exact ⟨s, Or.inr ⟨hc, rfl⟩, h⟩

theorem ofExcept_eq_ok {e : Except CompileError α} {a : α} {s s' : Session}
    (h : ofExcept e s = (.ok a, s')) : e = .ok a ∧ s' = s := by
  cases h
  exact ⟨rfl, rfl⟩

theorem report_eq_ok {d : Diagnostic} {u : Unit} {s s' : Session}
    (h : report d s = (.ok u, s')) : s' = s.report d := by
  cases h
  rfl

theorem ask_eq_ok {q : KeyQuery α} {a : α} {s s' : Session} (h : ask q s = (.ok a, s')) :
    ∃ known, q s.keys = (.ok a, known) ∧ s' = { s with keys := known } := by
  simp only [ask] at h
  rcases hq : q s.keys with ⟨answer, known⟩
  rw [hq] at h
  cases h
  exact ⟨known, rfl, rfl⟩

theorem within_eq_ok {name : String} {step : Step α} {a : α} {s s' : Session}
    (h : within name step s = (.ok a, s')) :
    ∃ t, step (s.push name) = (.ok a, t) ∧ s' = t.pop := by
  rw [within] at h
  rcases hstep : step (s.push name) with ⟨outcome, t⟩
  rw [hstep] at h
  cases h
  exact ⟨t, rfl, rfl⟩

variable {m : Model} {name : String} {d : Definition} {kind : Kind} {s s' : Session} {e : Emission}

/-! ## Checks of names -/

/-- The warnings about the names of a definition are the only thing that listing them adds. -/
theorem warnings_eq_ok {issues : List Naming.NamingIssue} {u : PUnit}
    (h : (forIn issues PUnit.unit fun issue _ => do
      report (.warn name issue.describe)
      pure (ForInStep.yield PUnit.unit) : Step PUnit) s = (.ok u, s')) :
    s' = { s with
      diagnostics := s.diagnostics ++ issues.map fun issue => .warn name issue.describe } := by
  induction issues generalizing s with
  | nil =>
    obtain ⟨-, rfl⟩ := pure_eq_ok h
    simp
  | cons issue rest ih =>
    rw [List.forIn_cons] at h
    obtain ⟨next, t, hfirst, h⟩ := bind_eq_ok h
    obtain ⟨_, t', hreport, hyield⟩ := bind_eq_ok hfirst
    obtain ⟨rfl, rfl⟩ := pure_eq_ok hyield
    obtain rfl := report_eq_ok hreport
    rw [ih h, Session.report, List.append_assoc]
    rfl

/-- The finding about a plural that is taken. -/
def pluralFinding (name plural owner : String) : Diagnostic :=
  .fail name ("plural '" ++ plural ++ "' is already used by '" ++ owner ++ "'")

/-- What the check of a plural comes to: a free plural is taken, one's own is left alone, and
there is a finding about that of another definition. -/
inductive ChecksPlural (name : String) (parts : NameParts) (names : Naming.Inflection)
    (s : Session) : Session → Prop
  | free : s.ownerOf? parts.path.dotted (Text.join "." (parts.scope ++ [names.plural])) = none →
      ChecksPlural name parts names s { s with plurals := s.plurals ++
        [⟨parts.path.dotted, Text.join "." (parts.scope ++ [names.plural]), name⟩] }
  | own : s.ownerOf? parts.path.dotted (Text.join "." (parts.scope ++ [names.plural])) =
      some name → ChecksPlural name parts names s s
  | taken {owner : String} : owner ≠ name →
      ChecksPlural name parts names s (s.report (pluralFinding name names.plural owner))

/-- Where the names of a definition pass the check, its singular is the name of no other one. -/
theorem checkCollisions_eq_ok {parts : NameParts} {names : Naming.Inflection} {u : Unit}
    (h : checkCollisions m name parts names s = (.ok u, s')) :
    (m.defines (nameIn parts names.singular) = true → nameIn parts names.singular = name) ∧
      ChecksPlural name parts names s s' := by
  simp only [checkCollisions] at h
  split at h
  · obtain ⟨_, _, hrefused, -⟩ := bind_eq_ok h
    cases hrefused
  · next hsingular =>
    obtain ⟨current, t, hget, h⟩ := bind_eq_ok h
    cases hget
    refine ⟨fun hdefined => Decidable.byContradiction fun hne => hsingular ⟨hne, hdefined⟩, ?_⟩
    cases howner : s.ownerOf? parts.path.dotted (Text.join "." (parts.scope ++ [names.plural])) with
    | none =>
      simp only [howner] at h
      cases h
      exact .free howner
    | some owner =>
      simp only [howner] at h
      split at h
      · next hother =>
        rw [report_eq_ok h]
        exact .taken hother
      · next hown =>
        obtain ⟨-, rfl⟩ := pure_eq_ok h
        rw [Decidable.not_not.mp hown] at howner
        exact .own howner

/-! ## Operations and events -/

section Members

variable {home : Path} {property : String} {element : Definition} {rest : Table Definition}

/-- A parameter that stands for the definition around the operation is left out. -/
theorem parameters_cons_eq_ok {operation : String} {found : List Parameter}
    (h : parameters m home operation ((property, element) :: rest) s = (.ok found, s')) :
    element.isSelfReference = true ∧ parameters m home operation rest s = (.ok found, s') ∨
      element.isSelfReference = false ∧ ∃ type t others,
        resolve home (fun site => m.resolve site element
          (Naming.sanitize (operation ++ "_" ++ property))) s = (.ok type, t) ∧
        parameters m home operation rest t = (.ok others, s') ∧
        found = ⟨property, element.isMandatory, element.key, type⟩ :: others := by
  rw [parameters] at h
  split at h
  · next hself => exact Or.inl ⟨hself, h⟩
  · next hself =>
    obtain ⟨type, t, htype, h⟩ := bind_eq_ok h
    obtain ⟨others, t', hothers, h⟩ := bind_eq_ok h
    obtain ⟨rfl, rfl⟩ := pure_eq_ok h
    exact Or.inr ⟨by simpa using hself, type, t, others, htype, hothers, rfl⟩

theorem signature_eq_ok {operation : String} {entity? : Option String} {found : Signature}
    (h : signature m home operation entity? d s = (.ok found, s')) :
    ∃ given t given?, parameters m home operation (d.params.getD []) s = (.ok given, t) ∧
      result m home operation entity? d t = (.ok given?, s') ∧
      found = ⟨given, given?, byNameOnly (d.params.getD []), d.isKind .function⟩ := by
  simp only [signature] at h
  obtain ⟨given, t, hparameters, h⟩ := bind_eq_ok h
  obtain ⟨given?, t', hresult, h⟩ := bind_eq_ok h
  obtain ⟨rfl, rfl⟩ := pure_eq_ok h
  exact ⟨given, t, given?, hparameters, hresult, rfl⟩

theorem boundActions_cons_eq_ok {entity : String} {found : List BoundAction}
    (h : boundActions m home entity ((property, element) :: rest) s = (.ok found, s')) :
    ∃ first t others, signature m home property (some entity) element s = (.ok first, t) ∧
      boundActions m home entity rest t = (.ok others, s') ∧
      found = ⟨property, element.doc, first⟩ :: others := by
  rw [boundActions] at h
  obtain ⟨first, t, hfirst, h⟩ := bind_eq_ok h
  obtain ⟨others, t', hothers, h⟩ := bind_eq_ok h
  obtain ⟨rfl, rfl⟩ := pure_eq_ok h
  exact ⟨first, t, others, hfirst, hothers, rfl⟩

theorem eventProperties_cons_eq_ok {event : String} {found : List Property}
    (h : eventProperties m home event ((property, element) :: rest) s = (.ok found, s')) :
    ∃ type t others, resolve home (fun site => m.resolve site element
        (Naming.sanitize (event ++ "_" ++ property))) s = (.ok type, t) ∧
      eventProperties m home event rest t = (.ok others, s') ∧
      found = ⟨property, element.doc, element.key, true, type⟩ :: others := by
  rw [eventProperties] at h
  obtain ⟨type, t, htype, h⟩ := bind_eq_ok h
  obtain ⟨others, t', hothers, h⟩ := bind_eq_ok h
  obtain ⟨rfl, rfl⟩ := pure_eq_ok h
  exact ⟨type, t, others, htype, hothers, rfl⟩

/-! ## Class bodies -/

theorem ancestors_cons_eq_ok {names : List String} {found : List UserDefined}
    (h : ancestors m home (property :: names) s = (.ok found, s')) :
    ∃ u t others, resolve home (fun site => m.resolveDefinition site property) s = (.ok u, t) ∧
      ancestors m home names t = (.ok others, s') ∧ found = u :: others := by
  rw [ancestors] at h
  obtain ⟨u, t, hu, h⟩ := bind_eq_ok h
  obtain ⟨others, t', hothers, h⟩ := bind_eq_ok h
  obtain ⟨rfl, rfl⟩ := pure_eq_ok h
  exact ⟨u, t, others, hu, hothers, rfl⟩

variable {o : ClassOwner}

/-- A foreign key has a property unless an element of its name is declared, and there may be
a finding about the foreign key then. -/
theorem foreignKeyProperties_cons_eq_ok {suffix : String} {key : Definition} {keys : KeyElements}
    {found : List Property}
    (h : foreignKeyProperties m o property element ((suffix, key) :: keys) s = (.ok found, s')) :
    (∃ declared t, (m.allElements o.definition).get? (property ++ "_" ++ suffix) = some declared ∧
        (declared.noteText? Definition.foreignKeyNote ≠ some property ∧
            t = s.report (foreignKeyFinding o property (property ++ "_" ++ suffix)) ∨
          declared.noteText? Definition.foreignKeyNote = some property ∧ t = s) ∧
        foreignKeyProperties m o property element keys t = (.ok found, s')) ∨
      (m.allElements o.definition).get? (property ++ "_" ++ suffix) = none ∧ ∃ type t others,
        resolve o.home (fun site => m.resolve site (synthetic element key)
          (o.hint (property ++ "_" ++ suffix))) s = (.ok type, t) ∧
        foreignKeyProperties m o property element keys t = (.ok others, s') ∧
        found = ⟨property ++ "_" ++ suffix, none, element.key, true, type⟩ :: others := by
  rw [foreignKeyProperties] at h
  cases hdeclared : (m.allElements o.definition).get? (property ++ "_" ++ suffix) with
  | some declared =>
    simp only [hdeclared] at h
    obtain ⟨t, hreport, h⟩ := when_eq_ok h
    refine Or.inl ⟨declared, t, rfl, ?_, h⟩
    exact hreport.imp (And.imp_right report_eq_ok) (And.imp_left Decidable.not_not.mp)
  | none =>
    simp only [hdeclared] at h
    obtain ⟨type, t, htype, h⟩ := bind_eq_ok h
    obtain ⟨others, t', hothers, h⟩ := bind_eq_ok h
    obtain ⟨rfl, rfl⟩ := pure_eq_ok h
    exact Or.inr ⟨rfl, type, t, others, htype, hothers, rfl⟩

/-- Only an element that ends in a managed association to one has foreign keys. -/
theorem foreignKeysOf_eq_ok {found : List Property}
    (h : foreignKeysOf m o property element s = (.ok found, s')) :
    ∃ a, m.chase element = .ok a ∧
      ((a.isManagedToOne = true ∧ ∃ keys t, ask (m.foreignKeys a) s = (.ok keys, t) ∧
          foreignKeyProperties m o property element keys t = (.ok found, s')) ∨
        a.isManagedToOne = false ∧ found = [] ∧ s' = s) := by
  simp only [foreignKeysOf] at h
  obtain ⟨a, t, hstep, hrest⟩ := bind_eq_ok h
  obtain ⟨hchase, rfl⟩ := ofExcept_eq_ok hstep
  refine ⟨a, hchase, ?_⟩
  split at hrest
  · next hmanaged =>
    obtain ⟨keys, t', hkeys, hproperties⟩ := bind_eq_ok hrest
    exact Or.inl ⟨hmanaged, keys, t', hkeys, hproperties⟩
  · next hmanaged =>
    obtain ⟨rfl, rfl⟩ := pure_eq_ok hrest
    exact Or.inr ⟨by simpa using hmanaged, rfl, rfl⟩

theorem elementBody_eq_ok {body : ClassBody}
    (h : elementBody m o property element s = (.ok body, s')) :
    ∃ type t foreignKeys, resolve o.home (fun site => m.resolve site element (o.hint property)) s =
        (.ok type, t) ∧
      foreignKeysOf m o property element t = (.ok foreignKeys, s') ∧
      body = ⟨⟨property, element.doc, element.key, false, type⟩ :: foreignKeys,
        inlineEnum property (o.hint property) type element⟩ := by
  simp only [elementBody] at h
  obtain ⟨type, t, htype, h⟩ := bind_eq_ok h
  obtain ⟨foreignKeys, t', hforeign, h⟩ := bind_eq_ok h
  obtain ⟨rfl, rfl⟩ := pure_eq_ok h
  exact ⟨type, t, foreignKeys, htype, hforeign, rfl⟩

/-- Nothing is declared for an element that is inherited. -/
theorem bodyOf_cons_eq_ok {body : ClassBody}
    (h : bodyOf m o ((property, element) :: rest) s = (.ok body, s')) :
    m.isInherited o.definition property = true ∧ bodyOf m o rest s = (.ok body, s') ∨
      m.isInherited o.definition property = false ∧ ∃ first t others,
        elementBody m o property element s = (.ok first, t) ∧
        bodyOf m o rest t = (.ok others, s') ∧ body = first.append others := by
  rw [bodyOf] at h
  split at h
  · next hinherited => exact Or.inl ⟨hinherited, h⟩
  · next hown =>
    obtain ⟨first, t, hfirst, h⟩ := bind_eq_ok h
    obtain ⟨others, t', hothers, h⟩ := bind_eq_ok h
    obtain ⟨rfl, rfl⟩ := pure_eq_ok h
    exact Or.inr ⟨by simpa using hown, first, t, others, hfirst, hothers, rfl⟩

end Members

/-! ## Emissions -/

/-- The function of a definition: what it includes is resolved first, then its
elements, then the operations that are bound to it.  An enum that is written in place gives a
static member, unless the property has the name of a reserved one. -/
theorem aspect_eq_ok {o : ClassOwner} {a : Aspect} {enums : List InlineEnum}
    (h : aspect m o kind s = (.ok (a, enums), s')) :
    ∃ found t, ancestors m o.home o.definition.ancestors s = (.ok found, t) ∧
      ∃ body t', bodyOf m o o.definition.ownElements (t.push o.full) = (.ok body, t') ∧
        ∃ actions, boundActions m o.home o.full (o.definition.actions.getD []) t'.pop =
            (.ok actions, s') ∧
          enums = body.enums ∧ a = ⟨o.singular, o.definition.doc, kind, found, body.properties,
            body.enums.filterMap fun e =>
              if reservedStatics.contains e.property then none else some (e.property, e.constant),
            actions⟩ := by
  simp only [aspect] at h
  obtain ⟨found, t, hfound, h⟩ := bind_eq_ok h
  obtain ⟨body, t₁, hbody, h⟩ := bind_eq_ok h
  obtain ⟨actions, t₂, hactions, h⟩ := bind_eq_ok h
  obtain ⟨hresult, rfl⟩ := pure_eq_ok h
  obtain ⟨rfl, rfl⟩ := Prod.mk.inj hresult
  obtain ⟨t', hinside, rfl⟩ := within_eq_ok hbody
  exact ⟨found, t, hfound, body, t', hinside, actions, hactions, rfl, rfl⟩

/-- The emission of a structured definition: findings about its names come
first, then its function is made. -/
theorem structured_eq_ok (h : structured m name d kind s = (.ok e, s')) :
    ∃ u t, (forIn (m.inflectionWithIssues (m.nameParts name)).2 PUnit.unit fun issue _ => do
        report (.warn name issue.describe)
        pure (ForInStep.yield PUnit.unit) : Step PUnit) s = (.ok u, t) ∧
      ∃ t', (kind = .entity ∧ checkCollisions m name (m.nameParts name)
          (m.inflection (m.nameParts name)) t = (.ok (), t') ∨ kind ≠ .entity ∧ t' = t) ∧
        ∃ a enums, aspect m ⟨name, (m.inflection (m.nameParts name)).singular,
            (m.nameParts name).path, d⟩ kind t' = (.ok (a, enums), s') ∧
          e = {
            path := (m.nameParts name).path
            placements := enums.map InlineEnum.placement ++
              [⟨structureSection kind (m.nameParts name).scope, .aspect a ::
                classes name d kind (m.inflection (m.nameParts name))
                  (kind = .entity ∧ s'.isDraftEnabled name)⟩]
            inflections := entityRecord kind (m.nameParts name) (m.inflection (m.nameParts name))
            enumStubs := enums.map InlineEnum.stub } := by
  simp only [structured] at h
  obtain ⟨u, t, hreports, h⟩ := bind_eq_ok h
  obtain ⟨t', hcheck, h⟩ := when_eq_ok h
  obtain ⟨⟨a, enums⟩, t'', haspect, h⟩ := bind_eq_ok h
  obtain ⟨current, t₃, hget, h⟩ := bind_eq_ok h
  cases hget
  obtain ⟨rfl, rfl⟩ := pure_eq_ok h
  exact ⟨u, t, hreports, t', hcheck, a, enums, haspect, rfl⟩

/-- A type without elements gives the constant of an enum or another name for a
type. -/
theorem plainType_eq_ok (h : plainType m name d s = (.ok e, s')) :
    (s' = s ∧ ∃ members, ∃ (_ : d.isEnum = true), e = {
      path := (m.nameParts name).path
      placements := [⟨sectionFor .enums (m.nameParts name).scope,
        [.constants (m.nameParts name).name d.doc members]⟩]
      enumStubs := [⟨Text.join "." ((m.nameParts name).scope ++ [(m.nameParts name).name]),
        EnumMember.literals members⟩] }) ∨
    ∃ type, (d.isEnum = false ∧ resolve (m.nameParts name).path
        (fun site => m.resolve site d (m.nameParts name).name) s = (.ok type, s')) ∧
      e = {
        path := (m.nameParts name).path
        placements := [⟨sectionFor .types (m.nameParts name).scope,
          [.typeAlias (m.nameParts name).name d.doc type]⟩] } := by
  simp only [plainType] at h
  rcases hv : d.values with _ | _ | ⟨entry, entries⟩
  case some.cons =>
    rw [hv] at h
    obtain ⟨rfl, rfl⟩ := pure_eq_ok h
    exact Or.inl ⟨rfl, _, by simp [Definition.isEnum, hv], rfl⟩
  all_goals
    rw [hv] at h
    obtain ⟨type, t, htype, h⟩ := bind_eq_ok h
    obtain ⟨rfl, rfl⟩ := pure_eq_ok h
    exact Or.inr ⟨type, ⟨by simp [Definition.isEnum, hv], htype⟩, rfl⟩

theorem operation_eq_ok (h : operation m name d s = (.ok e, s')) :
    ∃ signature, Step.signature m (m.nameParts name).path
        (Naming.sanitize (m.nameParts name).name) none d s = (.ok signature, s') ∧
      e = {
        path := (m.nameParts name).path
        placements := [⟨sectionFor .operations (m.nameParts name).scope,
          [.operation (Naming.sanitize (m.nameParts name).name) d.doc signature]⟩]
        operationNames :=
          [(Naming.sanitize (m.nameParts name).name, (m.nameParts name).name)] } := by
  simp only [operation] at h
  obtain ⟨signature, t, hsignature, h⟩ := bind_eq_ok h
  obtain ⟨rfl, rfl⟩ := pure_eq_ok h
  exact ⟨signature, hsignature, rfl⟩

theorem event_eq_ok (h : event m name d s = (.ok e, s')) :
    ∃ properties, eventProperties m (m.nameParts name).path (m.nameParts name).name
        d.ownElements s = (.ok properties, s') ∧
      e = {
        path := (m.nameParts name).path
        placements := [⟨.ofScope (m.nameParts name).scope,
          [.event (m.nameParts name).name d.doc name properties]⟩] } := by
  simp only [event] at h
  obtain ⟨properties, t, hproperties, h⟩ := bind_eq_ok h
  obtain ⟨rfl, rfl⟩ := pure_eq_ok h
  exact ⟨properties, hproperties, rfl⟩

/-- How the emission of a definition of a kind is made. -/
inductive Made (m : Model) (name : String) (d : Definition) (s s' : Session) :
    Kind → Option Emission → Prop
  | structured {kind : Kind} {e : Emission} :
      (kind = .entity ∨ kind = .aspect ∨ kind = .type ∧ d.isStructure = true) →
      structured m name d kind s = (.ok e, s') → Made m name d s s' kind (some e)
  | plainType {e : Emission} : d.isStructure = false → plainType m name d s = (.ok e, s') →
      Made m name d s s' .type (some e)
  | operation {kind : Kind} {e : Emission} : kind.isOperation = true →
      operation m name d s = (.ok e, s') → Made m name d s s' kind (some e)
  | event {e : Emission} : event m name d s = (.ok e, s') → Made m name d s s' .event (some e)
  | service : s' = s → Made m name d s s' .service (some (m.serviceEmission name))
  | nothing {kind : Kind} : kind = .context ∨ kind = .annotationDef ∨ kind = .other → s' = s →
      Made m name d s s' kind none

theorem emissionOfKind_made {made? : Option Emission}
    (h : emissionOfKind m name d kind s = (.ok made?, s')) : Made m name d s s' kind made? := by
  cases kind with
  | entity =>
    obtain ⟨e, he, rfl⟩ := map_eq_ok h
    exact .structured (Or.inl rfl) he
  | aspect =>
    obtain ⟨e, he, rfl⟩ := map_eq_ok h
    exact .structured (Or.inr (Or.inl rfl)) he
  | type =>
    simp only [emissionOfKind] at h
    split at h
    · next hstructure =>
      obtain ⟨e, he, rfl⟩ := map_eq_ok h
      exact .structured (Or.inr (Or.inr ⟨rfl, hstructure⟩)) he
    · next hplain =>
      obtain ⟨e, he, rfl⟩ := map_eq_ok h
      exact .plainType (by simpa using hplain) he
  | action | function =>
    obtain ⟨e, he, rfl⟩ := map_eq_ok h
    exact .operation rfl he
  | event =>
    obtain ⟨e, he, rfl⟩ := map_eq_ok h
    exact .event he
  | service =>
    obtain ⟨rfl, hs⟩ := pure_eq_ok h
    exact .service hs
  | context | annotationDef | other =>
    obtain ⟨rfl, hs⟩ := pure_eq_ok h
    exact .nothing (by simp) hs

/-- A definition that is visited gives what its kind gives, with the namespaces
that were referred to since. -/
theorem emission_eq_ok {e? : Option Emission} (h : emission m name d s = (.ok e?, s')) :
    (isLocalized name = true ∨ d.kind = none) ∧ e? = none ∧ s' = s ∨
      ∃ kind made?, isLocalized name = false ∧ d.kind = some kind ∧
        Made m name d { s with imports := [] } s' kind made? ∧
        e? = made?.map fun e => { e with imports := s'.imports } := by
  simp only [emission] at h
  split at h
  · next hlocal =>
    obtain ⟨rfl, rfl⟩ := pure_eq_ok h
    exact Or.inl ⟨Or.inl hlocal, rfl, rfl⟩
  · next hlocal =>
    cases hkind : d.kind with
    | none =>
      rw [hkind] at h
      obtain ⟨rfl, rfl⟩ := pure_eq_ok h
      exact Or.inl ⟨Or.inr rfl, rfl, rfl⟩
    | some kind =>
      rw [hkind] at h
      obtain ⟨_, t, hbegin, h⟩ := bind_eq_ok h
      cases hbegin
      obtain ⟨made?, t', hmade, h⟩ := bind_eq_ok h
      obtain ⟨current, t'', hget, h⟩ := bind_eq_ok h
      cases hget
      obtain ⟨rfl, rfl⟩ := pure_eq_ok h
      exact Or.inr ⟨kind, made?, by simpa using hlocal, rfl, emissionOfKind_made hmade, rfl⟩

theorem emissions_cons_eq_ok {rest : Table Definition} {es : List Emission}
    (h : emissions m ((name, d) :: rest) s = (.ok es, s')) :
    ∃ e? t others, emission m name d s = (.ok e?, t) ∧ emissions m rest t = (.ok others, s') ∧
      es = e?.toList ++ others := by
  rw [emissions] at h
  obtain ⟨e?, t, he, h⟩ := bind_eq_ok h
  obtain ⟨others, t', hothers, h⟩ := bind_eq_ok h
  obtain ⟨rfl, rfl⟩ := pure_eq_ok h
  exact ⟨e?, t, others, he, hothers, rfl⟩

theorem emissions_cons_run {rest : Table Definition} {es : List Emission} {e? : Option Emission}
    {t : Session} (he : emission m name d s = (.ok e?, t))
    (hrest : emissions m rest t = (.ok es, s')) :
    emissions m ((name, d) :: rest) s = (.ok (e?.toList ++ es), s') := by
  rw [emissions, bind_run, he]
  dsimp only
  rw [bind_run, hrest]
  rfl

/-- The emissions of definitions are those of the first ones and then those of
the others. -/
theorem emissions_append {before after : Table Definition} {es : List Emission}
    (h : emissions m (before ++ after) s = (.ok es, s')) :
    ∃ es₁ es₂ t, emissions m before s = (.ok es₁, t) ∧ emissions m after t = (.ok es₂, s') ∧
      es = es₁ ++ es₂ := by
  induction before generalizing s es with
  | nil => exact ⟨[], es, s, rfl, h, rfl⟩
  | cons entry rest ih =>
    obtain ⟨e?, t, others, he, hothers, rfl⟩ := emissions_cons_eq_ok h
    obtain ⟨es₁, es₂, t', hfirst, hsecond, rfl⟩ := ih hothers
    exact ⟨e?.toList ++ es₁, es₂, t', emissions_cons_run he hfirst, hsecond,
      (List.append_assoc _ _ _).symm⟩

/-- An emission comes from a definition, and the emissions before it from the
definitions before that one. -/
theorem emissions_split {definitions : Table Definition} {before after : List Emission}
    (h : emissions m definitions s = (.ok (before ++ e :: after), s')) :
    ∃ visited name d later t t', definitions = visited ++ (name, d) :: later ∧
      emissions m visited s = (.ok before, t) ∧ emission m name d t = (.ok (some e), t') := by
  induction definitions generalizing s before with
  | nil =>
    obtain ⟨hnil, -⟩ := pure_eq_ok h
    simp at hnil
  | cons entry rest ih =>
    obtain ⟨name, d⟩ := entry
    obtain ⟨e?, t, others, hfirst, hothers, hsplit⟩ := emissions_cons_eq_ok h
    cases e? with
    | none =>
      obtain rfl : others = before ++ e :: after := hsplit.symm
      obtain ⟨visited, n, d', later, u, u', rfl, hbefore, he⟩ := ih hothers
      exact ⟨(name, d) :: visited, n, d', later, u, u', rfl, emissions_cons_run hfirst hbefore, he⟩
    | some first =>
      cases before with
      | nil =>
        obtain ⟨rfl, -⟩ := List.cons.inj hsplit
        exact ⟨[], name, d, rest, s, t, rfl, rfl, hfirst⟩
      | cons e₁ before =>
        obtain ⟨rfl, htail⟩ := List.cons.inj hsplit
        obtain rfl : others = before ++ e :: after := htail.symm
        obtain ⟨visited, n, d', later, u, u', rfl, hbefore, he⟩ := ih hothers
        exact ⟨(name, d) :: visited, n, d', later, u, u', rfl, emissions_cons_run hfirst hbefore,
          he⟩

/-- Every emission is that of a definition. -/
theorem emission_of_mem_emissions {definitions : Table Definition} {es : List Emission}
    (h : emissions m definitions s = (.ok es, s')) (he : e ∈ es) :
    ∃ name d t t', (name, d) ∈ definitions ∧ emission m name d t = (.ok (some e), t') := by
  obtain ⟨before, after, rfl⟩ := List.append_of_mem he
  obtain ⟨visited, name, d, later, t, t', rfl, -, hemission⟩ := emissions_split h
  exact ⟨name, d, t, t', List.mem_append_right _ List.mem_cons_self, hemission⟩

/-- Every definition is visited. -/
theorem emission_of_mem {definitions : Table Definition} {es : List Emission}
    (h : emissions m definitions s = (.ok es, s')) (hd : (name, d) ∈ definitions) :
    ∃ e? t t', emission m name d t = (.ok e?, t') ∧ ∀ e ∈ e?, e ∈ es := by
  obtain ⟨before, after, rfl⟩ := List.append_of_mem hd
  obtain ⟨es₁, es₂, t, -, hafter, rfl⟩ := emissions_append h
  obtain ⟨e?, t', others, hfirst, -, rfl⟩ := emissions_cons_eq_ok hafter
  exact ⟨e?, t, t', hfirst, fun e he =>
    List.mem_append_right _ (List.mem_append_left _ (Option.mem_toList.mpr he))⟩

end Step

/-! ## Plans -/

/-- A plan holds the emissions of all definitions, and what the session has
come to after them. -/
theorem Plan.ofModel_eq_ok {m : Model} {plan : Plan} (h : Plan.ofModel m = .ok plan) :
    ∃ enabled s, m.collectDrafts.result = .ok enabled ∧
      Step.emissions m m.definitions (sessionFor m.collectDrafts enabled) =
        (.ok plan.emissions, s) ∧
      plan.libraries = s.registry.referenced ∧ plan.diagnostics = s.diagnostics := by
  simp only [ofModel] at h
  split at h
  · cases h
  · next enabled hdrafts =>
    split at h
    · cases h
    · next es s hrun =>
      cases h
      exact ⟨enabled, s, hdrafts, hrun, rfl, rfl⟩

end SchemaTypes
