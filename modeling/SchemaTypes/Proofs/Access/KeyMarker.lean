import SchemaTypes.Proofs.Access.Leaves
import SchemaTypes.Proofs.Access.References
import SchemaTypes.Proofs.ForeignKeys

/-!
# Keys are marked

The finished type of a key is wrapped in a marker, `__.Key<...>`, and a key always has a
value.  In the structured mode the property of an element is one line with its finished
type, unless the element is a structure that is written in place and has members.  Such a
structure is printed by its members, and its finished type is of no use to it.  So a key is
marked exactly if it is no such structure (`compile_keyMarks`), and one that is loses its
marker (`depots_unmarked`).
-/

namespace SchemaTypes

/-! ## Types of keys -/

namespace Model

variable {m : Model} {site : Site} {levels : Nat} {outermost : Bool} {element : Definition}
  {hint : String} {info : TypeInfo}

theorem resolveName_notNull {name : String}
    (h : (m.resolveName site name element hint true).outcome = .ok info) : info.notNull = true := by
  rcases resolveName_eq_ok h with ⟨_, _, _, -, -, -, rfl⟩ | ⟨-, hnotNull⟩
  · rfl
  · exact hnotNull

/-- A key always has a value. -/
theorem resolveWithin_key (hkey : element.key = true)
    (h : (m.resolveWithin site levels outermost element hint).outcome = .ok info) :
    info.notNull = true := by
  cases levels with
  | zero => cases h
  | succ levels =>
    rw [resolveWithin] at h
    simp only [hkey, Bool.or_true] at h
    split at h
    · obtain ⟨item, -, rfl, -⟩ := Resolution.andThen_found_eq_ok h
      rfl
    · split at h
      · cases h
        rfl
      · split at h
        · obtain ⟨members, -, rfl, -⟩ := Resolution.andThen_found_eq_ok h
          rfl
        · cases h
        · obtain ⟨d, -, rfl⟩ := resolveAccess_eq_ok h
          rfl
        · exact resolveName_notNull h

/-- The type of an element that is no leaf has members. -/
theorem resolveWithin_nested (hleaf : element.isLeaf = false)
    (h : (m.resolveWithin site levels outermost element hint).outcome = .ok info) :
    ∃ first members, info = .inline (element.notNull || element.key) (first :: members) := by
  obtain ⟨hinline, helements⟩ : element.isInline = true ∧ element.ownElements ≠ [] := by
    simpa [Definition.isLeaf] using hleaf
  obtain ⟨levels', members, -, rfl, hmembers⟩ := resolveWithin_inline hinline h
  cases members with
  | cons first members => exact ⟨first, members, rfl⟩
  | nil =>
    obtain ⟨entry, hentry⟩ := List.exists_mem_of_ne_nil _ helements
    obtain ⟨info, hinfo, -⟩ := mem_of_forEntries hmembers hentry
    cases hinfo

end Model

/-! ## Properties of keys -/

namespace Step

variable {m : Model} {site : Site} {o : ClassOwner} {property : String} {element : Definition}

/-- An own element is declared by a property of its type. -/
theorem RendersElement.own_property {known known' : KeyState} {properties : List Property}
    {findings : List Diagnostic}
    (h : RendersElement m site o property element known properties findings known') :
    ∃ type, (m.resolve site element (o.hint property)).outcome = .ok type ∧
      ⟨property, element.doc, element.key, false, type⟩ ∈ properties := by
  cases h with
  | plain htype _ _ => exact ⟨_, htype, List.mem_cons_self⟩
  | association htype _ _ _ => exact ⟨_, htype, List.mem_cons_self⟩

theorem RendersBody.own_property {elements : Table Definition} {known known' : KeyState}
    {properties : List Property} {findings : List Diagnostic}
    (h : RendersBody m site o elements known properties findings known')
    (hmem : (property, element) ∈ elements)
    (hown : m.isInherited o.definition property = false) :
    ∃ type, (m.resolve site element (o.hint property)).outcome = .ok type ∧
      ⟨property, element.doc, element.key, false, type⟩ ∈ properties := by
  induction h with
  | nil => cases hmem
  | inherited hinherited _ ih =>
    rcases List.mem_cons.mp hmem with heq | hmem
    · cases heq
      rw [hown] at hinherited
      cases hinherited
    · exact ih hmem
  | own _ helement _ ih =>
    rcases List.mem_cons.mp hmem with heq | hmem
    · cases heq
      obtain ⟨type, htype, hproperty⟩ := helement.own_property
      exact ⟨type, htype, List.mem_append_left _ hproperty⟩
    · obtain ⟨type, htype, hproperty⟩ := ih hmem
      exact ⟨type, htype, List.mem_append_right _ hproperty⟩

end Step

/-! ## What is printed -/

/-- How a key is printed: in one line with the marker around the text of its type, or, where
it is a structure that is written in place and has members, as a block of these. -/
def Definition.PrintsKey (element : Definition) (c : Config) (style : PropertyStyle)
    (property : String) (type : TypeInfo) (code : Code) : Prop :=
  if element.isLeaf then
    code = .line (style.opening property ++ "__.Key<" ++ type.text c ++ ">;")
  else
    ∃ members, type = .inline true members ∧
      code = .block (style.opening property ++ "\x7b")
        (TypeInfo.nestedMembers c style.nested members) "\x7d;"

/-- In the structured mode the property of a key is one piece of code after its
documentation. -/
theorem Property.code_key {m : Model} {c : Config} {site : Site} {element : Definition}
    {property hint : String} {type : TypeInfo} (hc : c.inlineMode = .structured)
    (hkey : element.key = true) (h : (m.resolve site element hint).outcome = .ok type)
    (style : PropertyStyle) :
    ∃ code, Property.code c style ⟨property, element.doc, element.key, false, type⟩ =
        docCode element.doc ++ [code] ∧
      element.PrintsKey c style property type code := by
  have hnotNull : type.notNull = true := Model.resolveWithin_key hkey h
  have hend : ">" ++ ";" = ">;" := rfl
  refine ⟨type.nestedProperty c style property ("__.Key<" ++ type.text c ++ ">"), ?_, ?_⟩
  · simp only [Property.code, TypeInfo.propertyCode, hc, Property.typeText, TypeInfo.keyText, hkey]
    rfl
  · cases hleaf : element.isLeaf with
    | true =>
      rw [Definition.PrintsKey, if_pos hleaf,
        TypeInfo.nestedProperty_of_not_nested (Model.resolveWithin_leaf hleaf h),
        PropertyStyle.plain, hnotNull, nullable, if_pos rfl]
      simp only [String.append_assoc, hend]
    | false =>
      obtain ⟨first, members, rfl⟩ := Model.resolveWithin_nested hleaf h
      rw [Definition.PrintsKey, hleaf, if_neg Bool.false_ne_true, hkey, Bool.or_true,
        TypeInfo.nestedProperty]
      exact ⟨_, rfl, rfl⟩

/-- In the structured mode every class body of the output has a property for every key that
its definition introduces.  The property is one line with the marker around its type, unless
the key is a structure that is written in place and has members. -/
theorem compile_keyMarks {m : Model} {c : Config} (hc : c.inlineMode = .structured) {out : Output}
    (h : compile m c = .ok out) :
    ∃ (plan : Plan) (files sources : Store), Plan.ofModel m = .ok plan ∧
      files.Collects c plan.emissions ∧ List.Forall₂ SourceFile.Closes files sources ∧
      out.files = baseFile :: plan.libraries.map Library.file ++
        sources.map (SourceFile.file c) ∧
      (∀ name, m.GivesAspect name → ∃ a, plan.HasBody name a) ∧
      ∀ name a d, plan.HasBody name a → m.find? name = some d →
        ∀ property element, (property, element) ∈ d.ownElements →
          m.isInherited d property = false → element.key = true →
          ∃ p ∈ a.properties, ∃ code, p.name = property ∧
            (m.resolve ⟨(m.nameParts name).path, some name, .standard⟩ element
              ((m.owner name d).hint property)).outcome = .ok p.type ∧
            p.code c (Aspect.style c) = docCode element.doc ++ [code] ∧
            element.PrintsKey c (Aspect.style c) property p.type code := by
  obtain ⟨plan, hplan, hrender⟩ := compile_eq_ok h
  obtain ⟨sources, hsources, hfiles⟩ := Plan.render_eq_ok hrender
  obtain ⟨files, hcollects, hcloses⟩ := Plan.sources_collect hsources
  refine ⟨plan, files, sources, hplan, hcollects, hcloses, hfiles,
    fun name hgives => hgives.hasBody hplan, ?_⟩
  intro name a d hbody hd property element hmem hown hkey
  obtain ⟨d', s, findings, known, _, _, hd', -, hrenders, -, -⟩ := hbody.rendersBody hplan
  obtain rfl := Model.eq_of_find? hd hd'
  obtain ⟨type, hresolved, hproperty⟩ := hrenders.own_property hmem hown
  obtain ⟨code, hcode, hprints⟩ := Property.code_key hc hkey hresolved (Aspect.style c)
  exact ⟨_, hproperty, code, rfl, hresolved, hcode, hprints⟩

/-- A depot is told apart by its region, a number in it, and a location. -/
def depot : Definition where
  kind := some .entity
  elements := some
    [("region", {
        type := some (.name "cds.Association"), target := some "shop.Regions", key := true }),
     ("number", { type := some (.name "cds.Integer"), key := true }),
     ("location", {
        key := true
        elements := some
          [("row", { type := some (.name "cds.Integer") }),
           ("shelf", { type := some (.name "cds.String") })] })]

/-- Depots in regions. -/
def depots : Model where
  definitions :=
    [("shop.Regions", {
        kind := some .entity
        elements := some [("code", { type := some (.name "cds.String"), key := true })] }),
     ("shop.Depots", depot)]

theorem compile_keyMarks_depots :
    ∃ (out : Output) (plan : Plan) (a : Aspect), compile depots {} = .ok out ∧
      Plan.ofModel depots = .ok plan ∧ plan.HasBody "shop.Depots" a ∧
      (∃ p ∈ a.properties, p.code {} (Aspect.style {}) =
        [.line "declare region?: __.Key<__.Association.to<Region>>;"]) ∧
      ∃ p ∈ a.properties, p.code {} (Aspect.style {}) =
        [.line "declare number?: __.Key<number>;"] := by
  obtain ⟨plan, hplan⟩ := Except.exists_eq_ok (x := Plan.ofModel depots) (by decide +kernel)
  obtain ⟨out, hout⟩ := compile_ok {} hplan
  obtain ⟨plan', files, sources, hplan', -, -, -, hbodies, hkeys⟩ :=
    compile_keyMarks (c := {}) rfl hout
  obtain rfl : plan = plan' := Except.ok.inj (hplan.symm.trans hplan')
  obtain ⟨a, hbody⟩ := hbodies "shop.Depots" ⟨depot, rfl, by decide, Or.inl rfl⟩
  have hline : ∀ property {element} text, (property, element) ∈ depot.ownElements →
      depots.isInherited depot property = false → element.key = true → element.isLeaf = true →
      element.doc = none →
      (depots.resolve ⟨(depots.nameParts "shop.Depots").path, some "shop.Depots", .standard⟩ element
        ((depots.owner "shop.Depots" depot).hint property)).outcome.toOption.map
          (TypeInfo.text {}) = some text →
      ∃ p ∈ a.properties, p.code {} (Aspect.style {}) =
        [.line ((Aspect.style {}).opening property ++ "__.Key<" ++ text ++ ">;")] := by
    intro property element text hmem hown hkey hleaf hdoc htext
    obtain ⟨p, hp, code, -, hresolved, hcode, hprints⟩ :=
      hkeys "shop.Depots" a depot hbody rfl property element hmem hown hkey
    rw [hresolved] at htext
    rw [Definition.PrintsKey, if_pos hleaf, Option.some.inj htext] at hprints
    exact ⟨p, hp, by rw [hcode, hdoc, hprints]; rfl⟩
  refine ⟨out, plan, a, hout, hplan, hbody, ?_, ?_⟩
  · exact hline "region" "__.Association.to<Region>" List.mem_cons_self (by decide) rfl rfl rfl
      (by decide +kernel)
  · exact hline "number" "number" (List.mem_cons_of_mem _ List.mem_cons_self) (by decide) rfl rfl
      rfl (by decide +kernel)

/-- The location is a key of depots that is their own.  It is printed as a block of its members,
and no line of it has the marker. -/
theorem depots_unmarked :
    ∃ (location : Definition) (out : Output) (plan : Plan), compile depots {} = .ok out ∧
      Plan.ofModel depots = .ok plan ∧ depots.find? "shop.Depots" = some depot ∧
      ("location", location) ∈ depot.ownElements ∧
      depots.isInherited depot "location" = false ∧ location.key = true ∧
      plan.openings {} =
        ["declare code?: __.Key<string>;", "declare region?: __.Key<__.Association.to<Region>>;",
          "declare region_code?: __.Key<string>;", "declare number?: __.Key<number>;",
          "declare location?: \x7b"] ∧
      out.diagnostics = [] := by
  have hplans : (Plan.ofModel depots).toOption.map
      (fun plan => (plan.openings {}, plan.diagnostics)) =
      some (["declare code?: __.Key<string>;",
        "declare region?: __.Key<__.Association.to<Region>>;",
        "declare region_code?: __.Key<string>;", "declare number?: __.Key<number>;",
        "declare location?: \x7b"], []) := by
    decide +kernel
  obtain ⟨plan, hplan⟩ := Except.exists_eq_ok (x := Plan.ofModel depots) (by decide +kernel)
  rw [hplan] at hplans
  obtain ⟨hopenings, hdiagnostics⟩ := Prod.mk.inj (Option.some.inj hplans)
  obtain ⟨out, hout, hrender⟩ := compile_written {} hplan
  exact ⟨_, out, plan, hout, hplan, rfl,
    List.mem_cons_of_mem _ (List.mem_cons_of_mem _ List.mem_cons_self), by decide, rfl, hopenings,
    (Plan.render_diagnostics hrender).trans hdiagnostics⟩

end SchemaTypes
