import SchemaTypes.Proofs.ClassBody
import SchemaTypes.Proofs.Frame
import SchemaTypes.Proofs.Shown

/-!
# When types are resolved

`Step.Resolves` lists the sessions in which something is looked up while a definition
is visited: an included definition, or the type of an element, of a foreign key, of a
parameter or of a result.  A loop has come to an entry in the session that it leaves behind
after the entries before.  It does not matter how the visit ends.

Where nothing is being written before the visit, its own definition is being written
while its elements and foreign keys are resolved, and nothing is while the rest is looked
up (`Step.Resolves.context`).  All types that a visit emits come from these sessions
(`Step.emission_types`).
-/

namespace SchemaTypes

/-- A declaration that mentions no types. -/
inductive Declaration.IsPlain : Declaration → Prop
  | singularClass {singular full : String} {doc : Option String} {drafts : Bool} :
      IsPlain (.singularClass singular doc full drafts)
  | pluralClass {plural singular full : String} {drafts : Bool} :
      IsPlain (.pluralClass plural singular full drafts)
  | constants {name : String} {doc : Option String} {members : List EnumMember} :
      IsPlain (.constants name doc members)

theorem Declaration.IsPlain.types {decl : Declaration} (h : decl.IsPlain) (own : Bool) :
    decl.types own = [] := by
  cases h <;> rfl

/-- What is looked up while a definition is visited. -/
inductive Lookup
  /-- The type of an element. -/
  | type (element : Definition)
  /-- An included definition. -/
  | included (name : String)

/-- A definition as the owner of the elements of a class. -/
def Model.owner (m : Model) (name : String) (d : Definition) : ClassOwner :=
  ⟨name, (m.inflection (m.nameParts name)).singular, (m.nameParts name).path, d⟩

namespace Step

variable {α β : Type} {m : Model} {home : Path} {name : String} {d : Definition}

/-- A step succeeds and leaves a session behind. -/
def Leaves (x : Step α) (s t : Session) : Prop := ∃ a, x s = (.ok a, t)

namespace Leaves

variable {x : Step α} {next : α → Step β} {s t u : Session}

theorem pure (a : α) (s : Session) : Leaves (Pure.pure a) s s := ⟨a, rfl⟩

theorem bind {a : α} (h : x s = (.ok a, t)) (hnext : Leaves (next a) t u) :
    Leaves (x >>= next) s u := by
  obtain ⟨b, hb⟩ := hnext
  exact ⟨b, by rw [bind_run, h]; exact hb⟩

theorem andPure {f : α → β} (h : Leaves x s t) : Leaves (x >>= fun a => Pure.pure (f a)) s t := by
  obtain ⟨a, ha⟩ := h
  exact bind ha (pure _ t)

theorem kept {R : Session → Session → Prop} (h : Leaves x s t) (hx : Keeps R x) : R s t := by
  obtain ⟨a, ha⟩ := h
  have hkept := hx s
  rwa [ha] at hkept

/-- A step that takes nothing back leaves the same definitions being written. -/
theorem context_eq (h : Leaves x s t) (hx : Keeps Session.Grows x) : t.context = s.context :=
  (h.kept hx).context

end Leaves

/-- The type of an element is found in a session. -/
def FindsType (m : Model) (home : Path) (t : Session) (element : Definition) (type : TypeInfo) :
    Prop :=
  ∃ hint, (m.resolve (t.site home) element hint).outcome = .ok type

theorem findsType_of_resolve {element : Definition} {hint : String} {type : TypeInfo}
    {s s' : Session}
    (h : resolve home (fun site => m.resolve site element hint) s = (.ok type, s')) :
    FindsType m home s element type :=
  ⟨hint, (Prod.mk.inj h).1⟩

/-! ## Moments of a visit -/

/-- The types of a signature are resolved: those of the parameters, and then that of the
result. -/
inductive SignatureResolves (m : Model) (home : Path) (operation : String)
    (entity? : Option String) (d : Definition) (s : Session) : Definition → Session → Prop
  | parameter {before after : Table Definition} {n : String} {element : Definition}
      {t : Session} :
      d.params.getD [] = before ++ (n, element) :: after → element.isSelfReference = false →
      Leaves (parameters m home operation before) s t →
      SignatureResolves m home operation entity? d s element t
  | result {returns : Definition} {t : Session} :
      d.returns = some returns → Leaves (parameters m home operation (d.params.getD [])) s t →
      SignatureResolves m home operation entity? d s ((entity?.map returns.boundTo).getD returns) t

/-- The types of the own elements of a definition are resolved, each before those of the
foreign keys that it contributes. -/
inductive BodyResolves (m : Model) (o : ClassOwner) (s : Session) : Definition → Session → Prop
  | property {before after : Table Definition} {n : String} {element : Definition}
      {t : Session} :
      o.definition.ownElements = before ++ (n, element) :: after →
      m.isInherited o.definition n = false → Leaves (bodyOf m o before) s t →
      BodyResolves m o s element t
  | foreignKey {before after : Table Definition} {n : String} {element association : Definition}
      {first rest : KeyElements} {suffix : String} {key : Definition} {t u v w : Session} :
      o.definition.ownElements = before ++ (n, element) :: after →
      m.isInherited o.definition n = false → Leaves (bodyOf m o before) s t →
      Leaves (resolve o.home fun site => m.resolve site element (o.hint n)) t u →
      m.chase element = .ok association → association.isManagedToOne = true →
      ask (m.foreignKeys association) u = (.ok (first ++ (suffix, key) :: rest), v) →
      (m.allElements o.definition).get? (n ++ "_" ++ suffix) = none →
      Leaves (foreignKeyProperties m o n element first) v w →
      BodyResolves m o s (synthetic element key) w

/-- What comes before the function of a definition: findings about its names. -/
def checkNames (m : Model) (name : String) (kind : Kind) : Step Unit := do
  for issue in (m.inflectionWithIssues (m.nameParts name)).2 do
    report (.warn name issue.describe)
  if kind = .entity then
    checkCollisions m name (m.nameParts name) (m.inflection (m.nameParts name))

/-- A visit comes to the function of a definition. -/
def Begins (m : Model) (name : String) (d : Definition) (s t : Session) : Prop :=
  ∃ kind, isLocalized name = false ∧ d.kind = some kind ∧
    (kind = .entity ∨ kind = .aspect ∨ kind = .type ∧ d.isStructure = true) ∧
    Leaves (checkNames m name kind) { s with imports := [] } t

/-- While a definition is visited from a session on, something is looked up in a session.
Here `own` stands for the own elements of the definition and their foreign keys. -/
inductive Resolves (m : Model) (name : String) (d : Definition) (s : Session) :
    (own : Bool) → Lookup → Session → Prop
  | included {before after : List String} {n : String} {t u : Session} :
      Begins m name d s t → d.ancestors = before ++ n :: after →
      Leaves (ancestors m (m.nameParts name).path before) t u →
      Resolves m name d s false (.included n) u
  | own {element : Definition} {t u v : Session} :
      Begins m name d s t → Leaves (ancestors m (m.nameParts name).path d.ancestors) t u →
      BodyResolves m (m.owner name d) (u.push name) element v →
      Resolves m name d s true (.type element) v
  | action {before after : Table Definition} {n : String} {action element : Definition}
      {t u v w x : Session} :
      Begins m name d s t → Leaves (ancestors m (m.nameParts name).path d.ancestors) t u →
      Leaves (within name (bodyOf m (m.owner name d) d.ownElements)) u v →
      d.actions.getD [] = before ++ (n, action) :: after →
      Leaves (boundActions m (m.nameParts name).path name before) v w →
      SignatureResolves m (m.nameParts name).path n (some name) action w element x →
      Resolves m name d s false (.type element) x
  | plainType : isLocalized name = false → d.kind = some .type → d.isStructure = false →
      d.isEnum = false → Resolves m name d s false (.type d) { s with imports := [] }
  | operation {kind : Kind} {element : Definition} {t : Session} :
      isLocalized name = false → d.kind = some kind → kind.isOperation = true →
      SignatureResolves m (m.nameParts name).path (Naming.sanitize (m.nameParts name).name) none d
        { s with imports := [] } element t →
      Resolves m name d s false (.type element) t
  | event {before after : Table Definition} {n : String} {element : Definition} {t : Session} :
      isLocalized name = false → d.kind = some .event →
      d.ownElements = before ++ (n, element) :: after →
      Leaves (eventProperties m (m.nameParts name).path (m.nameParts name).name before)
        { s with imports := [] } t →
      Resolves m name d s false (.type element) t

/-! ## The definition being written -/

theorem SignatureResolves.context {operation : String} {entity? : Option String}
    {element : Definition} {s t : Session}
    (h : SignatureResolves m home operation entity? d s element t) : t.context = s.context := by
  cases h with
  | parameter _ _ hrun => exact hrun.context_eq (.parameters Session.grows_frame _ _)
  | result _ hrun => exact hrun.context_eq (.parameters Session.grows_frame _ _)

theorem bodyOf_grows (o : ClassOwner) (elements : Table Definition) :
    Keeps Session.Grows (bodyOf m o elements) :=
  .bodyOf Session.grows_frame o (fun _ _ => trivial) elements

theorem BodyResolves.context {o : ClassOwner} {element : Definition} {s t : Session}
    (h : BodyResolves m o s element t) : t.context = s.context := by
  cases h with
  | property _ _ hrun => exact hrun.context_eq (bodyOf_grows o _)
  | foreignKey _ _ hrun htype _ _ hkeys _ hothers =>
    have hasked := Leaves.context_eq ⟨_, hkeys⟩ (.ask Session.grows_frame _ _)
    have hproperties := hothers.context_eq
      (.foreignKeyProperties Session.grows_frame o (fun _ _ => trivial) _ _ _)
    rw [hproperties, hasked, htype.context_eq (.resolve Session.grows_frame _ _),
      hrun.context_eq (bodyOf_grows o _)]

theorem checkNames_grows (kind : Kind) : Keeps Session.Grows (checkNames m name kind) := by
  have hwarnings := Keeps.warnings Session.grows_frame name (fun _ => trivial)
  refine .bind Session.grows_frame (hwarnings _) fun _ => ?_
  split
  · exact checkCollisions_grows _ _ _
  · exact .pure Session.grows_frame _

theorem Begins.context {s t : Session} (h : Begins m name d s t) : t.context = s.context := by
  obtain ⟨kind, -, -, -, hrun⟩ := h
  exact hrun.context_eq (checkNames_grows kind)

/-- While a definition is visited it is being written exactly while its own elements and
foreign keys are resolved. -/
theorem Resolves.context {own : Bool} {lookup : Lookup} {s t : Session}
    (h : Resolves m name d s own lookup t) (hs : s.context = []) :
    t.context = if own then [name] else [] := by
  have hancestors : ∀ {names t u}, Begins m name d s t →
      Leaves (ancestors m (m.nameParts name).path names) t u → u.context = [] := by
    intro names t u hbegins hrun
    rw [hrun.context_eq (.ancestors Session.grows_frame names), hbegins.context, hs]
  cases h with
  | included hbegins _ hrun => exact hancestors hbegins hrun
  | @own _ _ u _ hbegins hrun hbody =>
    have hpushed : (u.push name).context = [name] := by
      rw [Session.push, hancestors hbegins hrun, List.nil_append]
    exact hbody.context.trans hpushed
  | action hbegins hrun hbody _ hactions hsignature =>
    rw [hsignature.context, hactions.context_eq (.boundActions Session.grows_frame name _),
      hbody.context_eq (.within Session.grows_frame name (bodyOf_grows _ _))]
    exact hancestors hbegins hrun
  | plainType => exact hs
  | operation _ _ _ hsignature => exact hsignature.context.trans hs
  | event _ _ _ hrun => exact (hrun.context_eq (.eventProperties Session.grows_frame _ _)).trans hs

/-! ## Where types come from -/

theorem mem_of_parameters {operation : String} {p : Parameter} :
    ∀ {params : Table Definition} {found : List Parameter} {s s' : Session},
      parameters m home operation params s = (.ok found, s') → p ∈ found →
      ∃ before n element after t, params = before ++ (n, element) :: after ∧
        element.isSelfReference = false ∧
        Leaves (parameters m home operation before) s t ∧ FindsType m home t element p.type
  | [], _, s, _, h, hp => by
    obtain ⟨rfl, -⟩ := pure_eq_ok h
    cases hp
  | (n, element) :: rest, _, s, _, h, hp => by
    rcases parameters_cons_eq_ok h with
      ⟨hself, h⟩ | ⟨hself, type, u, others, htype, hothers, rfl⟩
    · obtain ⟨before, n', x, after, t, rfl, hx, hrun, hfinds⟩ := mem_of_parameters h hp
      refine ⟨(n, element) :: before, n', x, after, t, rfl, hx, ?_, hfinds⟩
      rw [parameters, if_pos hself]
      exact hrun
    · rcases List.mem_cons.mp hp with rfl | hp
      · exact ⟨[], n, element, rest, s, rfl, hself, .pure _ s, findsType_of_resolve htype⟩
      · obtain ⟨before, n', x, after, t, rfl, hx, hrun, hfinds⟩ :=
          mem_of_parameters hothers hp
        refine ⟨(n, element) :: before, n', x, after, t, rfl, hx, ?_, hfinds⟩
        rw [parameters, if_neg (by simp [hself])]
        exact .bind htype hrun.andPure

theorem mem_of_eventProperties {event : String} {p : Property} :
    ∀ {elements : Table Definition} {found : List Property} {s s' : Session},
      eventProperties m home event elements s = (.ok found, s') → p ∈ found →
      ∃ before n element after t, elements = before ++ (n, element) :: after ∧
        Leaves (eventProperties m home event before) s t ∧ FindsType m home t element p.type
  | [], _, s, _, h, hp => by
    obtain ⟨rfl, -⟩ := pure_eq_ok h
    cases hp
  | (n, element) :: rest, _, s, _, h, hp => by
    obtain ⟨type, u, others, htype, hothers, rfl⟩ := eventProperties_cons_eq_ok h
    rcases List.mem_cons.mp hp with rfl | hp
    · exact ⟨[], n, element, rest, s, rfl, .pure _ s, findsType_of_resolve htype⟩
    · obtain ⟨before, n', x, after, t, rfl, hrun, hfinds⟩ :=
        mem_of_eventProperties hothers hp
      exact ⟨(n, element) :: before, n', x, after, t, rfl, .bind htype hrun.andPure, hfinds⟩

theorem mem_of_boundActions {entity : String} {a : BoundAction} :
    ∀ {actions : Table Definition} {found : List BoundAction} {s s' : Session},
      boundActions m home entity actions s = (.ok found, s') → a ∈ found →
      ∃ before n action after t t', actions = before ++ (n, action) :: after ∧
        Leaves (boundActions m home entity before) s t ∧
        signature m home n (some entity) action t = (.ok a.signature, t')
  | [], _, s, _, h, ha => by
    obtain ⟨rfl, -⟩ := pure_eq_ok h
    cases ha
  | (n, action) :: rest, _, s, _, h, ha => by
    obtain ⟨signature, u, others, hsignature, hothers, rfl⟩ := boundActions_cons_eq_ok h
    rcases List.mem_cons.mp ha with rfl | ha
    · exact ⟨[], n, action, rest, s, u, rfl, .pure _ s, hsignature⟩
    · obtain ⟨before, n', x, after, t, t', rfl, hrun, hx⟩ :=
        mem_of_boundActions hothers ha
      exact ⟨(n, action) :: before, n', x, after, t, t', rfl, .bind hsignature hrun.andPure, hx⟩

theorem signature_types {operation : String} {entity? : Option String} {found : Signature}
    {type : TypeInfo} {s s' : Session}
    (h : signature m home operation entity? d s = (.ok found, s')) (htype : type ∈ found.types) :
    ∃ element t, SignatureResolves m home operation entity? d s element t ∧
      FindsType m home t element type := by
  obtain ⟨all, t, given, hparameters, hresult, rfl⟩ := signature_eq_ok h
  rcases List.mem_append.mp htype with htype | htype
  · obtain ⟨p, hp, rfl⟩ := List.mem_map.mp htype
    obtain ⟨before, n, element, after, u, hsplit, helement, hrun, hfinds⟩ :=
      mem_of_parameters hparameters hp
    exact ⟨element, u, .parameter hsplit helement hrun, hfinds⟩
  · obtain rfl := Option.mem_toList.mp htype
    cases hreturns : d.returns with
    | none =>
      simp only [result, hreturns] at hresult
      cases hresult
    | some returns =>
      simp only [result, hreturns] at hresult
      obtain ⟨type, u, hfound, hresult⟩ := bind_eq_ok hresult
      cases hresult
      exact ⟨_, t, .result hreturns ⟨_, hparameters⟩, findsType_of_resolve hfound⟩

theorem mem_of_foreignKeyProperties {o : ClassOwner} {n : String} {element : Definition}
    {p : Property} :
    ∀ {keys : KeyElements} {found : List Property} {s s' : Session},
      foreignKeyProperties m o n element keys s = (.ok found, s') → p ∈ found →
      ∃ first suffix key rest t, keys = first ++ (suffix, key) :: rest ∧
        (m.allElements o.definition).get? (n ++ "_" ++ suffix) = none ∧
        Leaves (foreignKeyProperties m o n element first) s t ∧
        FindsType m o.home t (synthetic element key) p.type
  | [], _, s, _, h, hp => by
    obtain ⟨rfl, -⟩ := pure_eq_ok h
    cases hp
  | (suffix, key) :: rest, _, s, _, h, hp => by
    rcases foreignKeyProperties_cons_eq_ok h with
      ⟨declared, u, hdeclared, hreport, h⟩ | ⟨hdeclared, type, u, others, htype, hothers, rfl⟩
    · obtain ⟨first, suffix', key', rest', t, rfl, hnone, hrun, hfinds⟩ :=
        mem_of_foreignKeyProperties h hp
      refine ⟨(suffix, key) :: first, suffix', key', rest', t, rfl, hnone, ?_, hfinds⟩
      rw [foreignKeyProperties]
      simp only [hdeclared]
      rcases hreport with ⟨hforeign, rfl⟩ | ⟨hforeign, rfl⟩
      · rw [if_pos hforeign]
        exact .bind rfl hrun
      · rw [if_neg (not_not_intro hforeign)]
        exact hrun
    · rcases List.mem_cons.mp hp with rfl | hp
      · exact ⟨[], suffix, key, rest, s, rfl, hdeclared, .pure _ s, findsType_of_resolve htype⟩
      · obtain ⟨first, suffix', key', rest', t, rfl, hnone, hrun, hfinds⟩ :=
          mem_of_foreignKeyProperties hothers hp
        refine ⟨(suffix, key) :: first, suffix', key', rest', t, rfl, hnone, ?_, hfinds⟩
        rw [foreignKeyProperties]
        simp only [hdeclared]
        exact .bind htype hrun.andPure

theorem mem_of_bodyOf {o : ClassOwner} {p : Property} :
    ∀ {elements : Table Definition} {body : ClassBody} {s s' : Session},
      bodyOf m o elements s = (.ok body, s') → p ∈ body.properties →
      ∃ before n element after t first t', elements = before ++ (n, element) :: after ∧
        m.isInherited o.definition n = false ∧ Leaves (bodyOf m o before) s t ∧
        elementBody m o n element t = (.ok first, t') ∧ p ∈ first.properties
  | [], _, s, _, h, hp => by
    obtain ⟨rfl, -⟩ := pure_eq_ok h
    cases hp
  | (n, element) :: rest, _, s, _, h, hp => by
    rcases bodyOf_cons_eq_ok h with
      ⟨hinherited, h⟩ | ⟨hown, first, u, others, hfirst, hothers, rfl⟩
    · obtain ⟨before, n', x, after, t, first, t', rfl, hown, hrun, hfirst, hp⟩ :=
        mem_of_bodyOf h hp
      refine ⟨(n, element) :: before, n', x, after, t, first, t', rfl, hown, ?_, hfirst,
        hp⟩
      rw [bodyOf, if_pos hinherited]
      exact hrun
    · rcases List.mem_append.mp hp with hp | hp
      · exact ⟨[], n, element, rest, s, first, u, rfl, hown, .pure _ s, hfirst, hp⟩
      · obtain ⟨before, n', x, after, t, first', t', rfl, hown', hrun, hfirst', hp⟩ :=
          mem_of_bodyOf hothers hp
        refine ⟨(n, element) :: before, n', x, after, t, first', t', rfl, hown', ?_, hfirst',
          hp⟩
        rw [bodyOf, if_neg (by simp [hown])]
        exact .bind hfirst hrun.andPure

/-- The type of a property of a class body is that of an own element, or of a foreign key
that it contributes. -/
theorem bodyOf_types {o : ClassOwner} {body : ClassBody} {p : Property} {s s' : Session}
    (h : bodyOf m o o.definition.ownElements s = (.ok body, s')) (hp : p ∈ body.properties) :
    ∃ element t, BodyResolves m o s element t ∧ FindsType m o.home t element p.type := by
  obtain ⟨before, n, element, after, t, first, t', hsplit, hown, hrun, hfirst, hp⟩ :=
    mem_of_bodyOf h hp
  obtain ⟨type, u, foreignKeys, htype, hforeign, rfl⟩ := elementBody_eq_ok hfirst
  rcases List.mem_cons.mp hp with rfl | hp
  · exact ⟨element, t, .property hsplit hown hrun, findsType_of_resolve htype⟩
  · obtain ⟨association, hchase, hkeys⟩ := foreignKeysOf_eq_ok hforeign
    rcases hkeys with ⟨hmanaged, keys, v, hkeys, hproperties⟩ | ⟨-, rfl, -⟩
    · obtain ⟨first, suffix, key, rest, w, rfl, hnone, hothers, hfinds⟩ :=
        mem_of_foreignKeyProperties hproperties hp
      exact ⟨_, w, .foreignKey hsplit hown hrun ⟨type, htype⟩ hchase hmanaged hkeys hnone hothers,
        hfinds⟩
    · cases hp

theorem checkNames_of_structured {kind : Kind} {u : PUnit} {s t t' : Session}
    (hreports : (forIn (m.inflectionWithIssues (m.nameParts name)).2 PUnit.unit fun issue _ => do
      report (.warn name issue.describe)
      pure (ForInStep.yield PUnit.unit) : Step PUnit) s = (.ok u, t))
    (hcheck : kind = .entity ∧ checkCollisions m name (m.nameParts name)
        (m.inflection (m.nameParts name)) t = (.ok (), t') ∨ kind ≠ .entity ∧ t' = t) :
    Leaves (checkNames m name kind) s t' := by
  refine .bind hreports ?_
  rcases hcheck with ⟨hkind, hcheck⟩ | ⟨hkind, rfl⟩
  · rw [if_pos hkind]
    exact ⟨(), hcheck⟩
  · rw [if_neg hkind]
    exact .pure _ _

/-- Only the class body of a structured definition mentions types. -/
theorem structured_types {kind : Kind} {e : Emission} {s s' : Session}
    (h : structured m name d kind s = (.ok e, s')) :
    ∃ t a enums, Leaves (checkNames m name kind) s t ∧
      aspect m (m.owner name d) kind t = (.ok (a, enums), s') ∧
      e.path = (m.nameParts name).path ∧ e.HasBody name a ∧
      ∀ p ∈ e.placements, ∀ decl ∈ p.declarations, decl = .aspect a ∨ decl.IsPlain := by
  obtain ⟨u, t, hreports, t', hcheck, a, enums, haspect, rfl⟩ := structured_eq_ok h
  have hsingular := (aspect_renders haspect).1
  obtain ⟨more, hclasses, hmore⟩ : ∃ more, classes name d kind (m.inflection (m.nameParts name))
      (kind = .entity ∧ s'.isDraftEnabled name) =
        .singularClass a.singular d.doc name (kind = .entity ∧ s'.isDraftEnabled name) :: more ∧
      ∀ decl ∈ more, decl.IsPlain := by
    rw [classes, hsingular]
    refine ⟨_, rfl, fun decl hdecl => ?_⟩
    split at hdecl
    · obtain rfl := List.mem_singleton.mp hdecl
      exact .pluralClass
    · cases hdecl
  refine ⟨t', a, enums, checkNames_of_structured hreports hcheck, haspect, rfl, ?_, ?_⟩
  · exact ⟨_, List.mem_append_right _ List.mem_cons_self, d.doc, _, more, by rw [hclasses]⟩
  · intro p hp decl hdecl
    rcases List.mem_append.mp hp with henum | hown
    · obtain ⟨enum, -, rfl⟩ := List.mem_map.mp henum
      obtain rfl := List.mem_singleton.mp hdecl
      exact Or.inr .constants
    · obtain rfl := List.mem_singleton.mp hown
      rw [hclasses] at hdecl
      rcases List.mem_cons.mp hdecl with rfl | hclass
      · exact Or.inl rfl
      · rcases List.mem_cons.mp hclass with rfl | hplural
        · exact Or.inr .singularClass
        · exact Or.inr (hmore decl hplural)

/-- The types in the class body of a definition are resolved while it is visited. -/
theorem aspect_types {kind : Kind} {a : Aspect} {enums : List InlineEnum} {own : Bool}
    {type : TypeInfo} {s t t' : Session} (hbegins : Begins m name d s t)
    (h : aspect m (m.owner name d) kind t = (.ok (a, enums), t'))
    (htype : type ∈ (Declaration.aspect a).types own) :
    ∃ element v, Resolves m name d s own (.type element) v ∧
      FindsType m (m.nameParts name).path v element type := by
  obtain ⟨found, u, hancestors, body, v, hbody, actions, hactions, -, rfl⟩ :=
    aspect_eq_ok h
  cases own with
  | true =>
    obtain ⟨p, hp, rfl⟩ := List.mem_map.mp htype
    obtain ⟨element, w, hresolves, hfinds⟩ := bodyOf_types hbody hp
    exact ⟨element, w, .own hbegins ⟨found, hancestors⟩ hresolves, hfinds⟩
  | false =>
    obtain ⟨b, hb, htype⟩ := List.mem_flatMap.mp htype
    obtain ⟨before, n, action, after, w, w', hsplit, hearlier, hsignature⟩ :=
      mem_of_boundActions hactions hb
    obtain ⟨element, x, hresolves, hfinds⟩ := signature_types hsignature htype
    have hwithin : Leaves (within name (bodyOf m (m.owner name d) d.ownElements)) u v.pop := by
      have hbody : bodyOf m (m.owner name d) d.ownElements (u.push name) = (.ok body, v) := hbody
      exact ⟨body, by rw [within, hbody]⟩
    exact ⟨element, x, .action hbegins ⟨found, hancestors⟩ hwithin hsplit hearlier hresolves,
      hfinds⟩

/-- The types that a definition emits are resolved while it is visited, and those of the
class body as types of its own elements and foreign keys. -/
theorem emission_types {e : Emission} {s s' : Session}
    (h : emission m name d s = (.ok (some e), s')) :
    ∀ p ∈ e.placements, ∀ decl ∈ p.declarations,
      (∀ a, decl = .aspect a → e.HasBody name a) ∧ ∀ own, ∀ type ∈ decl.types own,
        ∃ element t, Resolves m name d s own (.type element) t ∧
          FindsType m e.path t element type := by
  rcases emission_eq_ok h with ⟨-, hnone, -⟩ | ⟨kind, made?, hlocal, hkind, hmade, hmap⟩
  · cases hnone
  obtain ⟨made, rfl, rfl⟩ := Option.map_eq_some_iff.mp hmap.symm
  intro p hp decl hdecl
  cases hmade with
  | structured hkinds he =>
    obtain ⟨t, a, enums, hcheck, haspect, hpath, hbody, hdeclarations⟩ := structured_types he
    have hbegins : Begins m name d s t := ⟨kind, hlocal, hkind, hkinds, hcheck⟩
    rcases hdeclarations p hp decl hdecl with rfl | hplain
    · refine ⟨fun b hb => by cases hb; exact hbody, fun own type htype => ?_⟩
      simp only [hpath]
      exact aspect_types hbegins haspect htype
    · refine ⟨fun b hb => ?_, fun own type htype => ?_⟩
      · subst hb
        cases hplain
      · rw [hplain.types] at htype
        cases htype
  | plainType hplain he =>
    rcases plainType_eq_ok he with ⟨-, members, henum, rfl⟩ | ⟨found, ⟨henum, hfound⟩, rfl⟩
    · obtain rfl := List.mem_singleton.mp hp
      obtain rfl := List.mem_singleton.mp hdecl
      exact ⟨nofun, fun own type htype => by cases htype⟩
    · obtain rfl := List.mem_singleton.mp hp
      obtain rfl := List.mem_singleton.mp hdecl
      refine ⟨nofun, fun own type htype => ?_⟩
      cases own with
      | true => cases htype
      | false =>
        obtain rfl := List.mem_singleton.mp htype
        exact ⟨d, _, .plainType hlocal hkind hplain henum, findsType_of_resolve hfound⟩
  | operation hkinds he =>
    obtain ⟨signature, hsignature, rfl⟩ := operation_eq_ok he
    obtain rfl := List.mem_singleton.mp hp
    obtain rfl := List.mem_singleton.mp hdecl
    refine ⟨nofun, fun own type htype => ?_⟩
    cases own with
    | true => cases htype
    | false =>
      obtain ⟨element, t, hresolves, hfinds⟩ := signature_types hsignature htype
      exact ⟨element, t, .operation hlocal hkind hkinds hresolves, hfinds⟩
  | event he =>
    obtain ⟨properties, hproperties, rfl⟩ := event_eq_ok he
    obtain rfl := List.mem_singleton.mp hp
    obtain rfl := List.mem_singleton.mp hdecl
    refine ⟨nofun, fun own type htype => ?_⟩
    cases own with
    | true => cases htype
    | false =>
      obtain ⟨q, hq, rfl⟩ := List.mem_map.mp htype
      obtain ⟨before, n, element, after, t, hsplit, hearlier, hfinds⟩ :=
        mem_of_eventProperties hproperties hq
      exact ⟨element, t, .event hlocal hkind hsplit hearlier, hfinds⟩
  | service =>
    obtain rfl := List.mem_singleton.mp hp
    obtain rfl := List.mem_singleton.mp hdecl
    exact ⟨nofun, fun own type htype => by cases htype⟩

end Step

end SchemaTypes
