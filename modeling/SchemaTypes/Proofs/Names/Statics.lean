import SchemaTypes.Proofs.Access.Members
import SchemaTypes.Proofs.Names.Elements
import SchemaTypes.Proofs.Names.Enums
import SchemaTypes.Proofs.Stub.Reading

/-!
# Static members

A class of one has static members in three places: in the class body that the function of its
definition returns, in the class itself, and on the class after it is declared.  They are read
off the code line by line (`Code.static?`, `Code.definedOn?`).  Most of them are the same for
every class.  The others stand for the enums that are written in place in the class body, and
have the names of the elements (`Model.staticNames`).

An element that has the name of a member of every class gives none, as far as the name is
listed in `reservedStatics`.  One name is missing there.  So no member of a class has the name
of another one exactly if the class has no enum of this name (`compile_statics`).  The enum of
an element that is called `is_singular` gives a member that is defined again after the class
(`nouns_shadowed`).
-/

namespace SchemaTypes

open Stub (expect readLiteral? EndsName)

/-! ## Reading static members -/

namespace Stub

/-- Reads a property key: an identifier, or a literal. -/
def readKey? : List Char → Option String
  | '\'' :: rest => (readLiteral? ('\'' :: rest)).map (·.1)
  | input => some (String.ofList (input.takeWhile Naming.isIdentifierPart))

end Stub

namespace Code

/-- The static member that a piece of code in a class declares, if it declares one. -/
def static? (code : Code) : Option String :=
  (staticKeywords.findSome? fun keyword => expect keyword code.opening.toList).bind Stub.readKey?

/-- The property that a statement defines on a class, if it defines one. -/
def definedOn? (class_ : String) (code : Code) : Option String :=
  (expect ("Object.defineProperty(" ++ class_ ++ ", ") code.opening.toList).bind fun rest =>
    (readLiteral? rest).map (·.1)

end Code

namespace Stub

theorem expect_eq_none {text : String} {input : List Char} (h : ¬ text.toList <+: input) :
    expect text input = none := by
  cases hexpect : expect text input with
  | none => rfl
  | some rest =>
    obtain ⟨before, hinput, hbefore⟩ := List.dropPrefix?_eq_some_iff.mp hexpect
    exact absurd ⟨rest, by rw [hinput, beq_iff_eq.mp hbefore]⟩ h

theorem head?_of_isIdentifier {name : String} (h : Naming.isIdentifier name = true) :
    ∃ c rest, name.toList = c :: rest ∧ c ≠ '\'' := by
  obtain ⟨c, rest, hname, hstart, -⟩ := Naming.exists_cons_of_isIdentifier h
  refine ⟨c, rest, hname, ?_⟩
  rintro rfl
  exact absurd hstart (by decide +kernel)

theorem quote_eq_cons (name : String) :
    (Naming.quote name).toList = '\'' :: (name.toList.flatMap Naming.escape ++ ['\'']) := by
  simp [Naming.quote]

/-- A property key is read as the name it stands for. -/
theorem readKey?_propertyKey (name : String) {rest : List Char} (h : EndsName rest) :
    readKey? ((Naming.propertyKey name).toList ++ rest) = some name := by
  rw [Naming.propertyKey]
  split
  · next hidentifier =>
    obtain ⟨c, more, hname, hc⟩ := head?_of_isIdentifier hidentifier
    have htake := (span_identifier hidentifier h).1
    rw [hname, List.cons_append] at htake ⊢
    rw [readKey?]
    · rw [htake, ← hname, String.ofList_toList]
    · rintro _ heq
      exact hc (List.cons.inj heq).1
  · have hread := readLiteral?_quote name rest
    rw [quote_eq_cons, List.cons_append] at hread ⊢
    rw [readKey?, hread]
    rfl

end Stub

/-! ## Pieces of code -/

namespace Code

/-- A line with the words before a static member declares the member whose key follows. -/
theorem static?_of_opening {code : Code} {keyword name : String} {rest : List Char}
    (hkeyword : keyword ∈ staticKeywords) (hrest : EndsName rest)
    (h : code.opening.toList = keyword.toList ++ ((Naming.propertyKey name).toList ++ rest)) :
    code.static? = some name := by
  have hfound : (staticKeywords.findSome? fun keyword => expect keyword code.opening.toList) =
      some ((Naming.propertyKey name).toList ++ rest) := by
    rw [h]
    simp only [staticKeywords, List.mem_cons, List.not_mem_nil, or_false] at hkeyword
    rcases hkeyword with rfl | rfl
    · rw [staticKeywords, List.findSome?_cons, Stub.expect_append]
    · have hother : ∀ more, expect "static readonly "
          ("declare static readonly ".toList ++ more) = none := fun _ => rfl
      simp only [staticKeywords, List.findSome?_cons, hother, Stub.expect_append]
  rw [static?, hfound, Option.bind_some, Stub.readKey?_propertyKey name hrest]

/-- A line with none of the words before a static member declares none. -/
theorem static?_eq_none {code : Code}
    (h : ∀ keyword ∈ staticKeywords, ¬ keyword.toList <+: code.opening.toList) :
    code.static? = none := by
  have hnone : (staticKeywords.findSome? fun keyword => expect keyword code.opening.toList) =
      none := List.findSome?_eq_none_iff.mpr fun keyword hkeyword =>
    Stub.expect_eq_none (h keyword hkeyword)
  rw [static?, hnone, Option.bind_none]

/-- A property of a class is no static member, whatever its name is. -/
theorem static?_of_declares {c : Config} {key : String} {code : Code}
    (h : Declares (Aspect.style c) [key] code) : code.static? = none :=
  static?_eq_none h.not_static

/-- Documentation is no static member. -/
theorem static?_of_doc {doc : Option String} {code : Code} (h : code ∈ docCode doc) :
    code.static? = none := by
  refine static?_eq_none fun keyword hkeyword ⟨rest, hrest⟩ => ?_
  have hhead := docCode_head doc code h
  rw [← hrest] at hhead
  simp only [staticKeywords, List.mem_cons, List.not_mem_nil, or_false] at hkeyword
  rcases hkeyword with rfl | rfl
  · exact absurd (hhead 's' rfl) (by decide)
  · exact absurd (hhead 'd' rfl) (by decide)

end Code

theorem PropertyStyle.Declares.code {style : PropertyStyle} {key : String} {code : Code}
    (h : style.Declares key code) : Code.Declares style [key] code := by
  obtain ⟨type, notNull, rfl⟩ := h
  exact .line

/-- A property is one of the pieces of code for it, besides its documentation. -/
theorem Property.code_declares {c : Config} {style : PropertyStyle} {p : Property} {code : Code}
    (h : code ∈ p.code c style) :
    code ∈ docCode p.doc ∨ ∃ key, Code.Declares style [key] code := by
  refine (List.mem_append.mp h).imp_right fun h => ?_
  rw [TypeInfo.propertyCode] at h
  split at h
  · have hlines := TypeInfo.flatProperty_keys c style p.type p.name (p.typeText c)
    obtain ⟨i, hi, rfl⟩ := List.getElem_of_mem h
    exact ⟨_, (hlines.get (hlines.length_eq.symm ▸ hi) hi).code⟩
  · obtain rfl := List.mem_singleton.mp h
    exact ⟨p.name, p.type.nestedProperty_declares c style p.name (p.typeText c)⟩

/-! ## Classes -/

/-- What the function of a definition and the class of one, as they are written, define on the
class: what the body of the class declares that the function returns, what the body of the class
itself declares, and what is defined after it. -/
def writtenStatics (class_ : String) (function singular : List Code) : List String :=
  ((function.flatMap Code.inside).flatMap Code.inside).filterMap Code.static? ++
    (singular.flatMap Code.inside).filterMap Code.static? ++
      singular.filterMap (Code.definedOn? class_)

/-- The class of one has a static member for its drafts, if it has drafts. -/
def draftStatics (drafts : Bool) : List String := if drafts then ["drafts"] else []

namespace Aspect

theorem static?_constantLine (entry : String × String) :
    (constantLine entry).static? = some entry.1 := by
  have hends : EndsName (' ' :: ("= " ++ entry.2 ++ ";").toList) :=
    Stub.endsName_cons (by decide +kernel) _
  have hkeyword : "static readonly " ∈ staticKeywords := List.mem_cons_self
  refine Code.static?_of_opening hkeyword hends ?_
  simp [constantLine, Code.opening]

/-- A line for a member whose key is an identifier declares the member. -/
theorem static?_of_identifier {keyword key : String} {code : Code} (text rest : String)
    (hkeyword : keyword ∈ staticKeywords) (hkey : Naming.isIdentifier key = true)
    (htext : ":".toList <+: text.toList) (h : code.opening = keyword ++ key ++ text ++ rest) :
    code.static? = some key := by
  obtain ⟨more, hmore⟩ := htext
  have hends : EndsName (':' :: (more ++ rest.toList)) :=
    Stub.endsName_cons (by decide +kernel) _
  refine Code.static?_of_opening hkeyword hends ?_
  rw [h, Naming.propertyKey, if_pos hkey]
  simp [← hmore]

/-- The members that say what the class is. -/
theorem staticLines_statics (a : Aspect) :
    a.staticLines.filterMap Code.static? = ["kind", "keys", "elements"] := by
  have hkeyword : "static readonly " ∈ staticKeywords := List.mem_cons_self
  have hdeclare : "declare static readonly " ∈ staticKeywords :=
    List.mem_cons_of_mem _ List.mem_cons_self
  have hkind : (Code.line ("static readonly kind: 'entity' | 'type' | 'aspect' = '" ++
      a.kind.text ++ "';")).static? = some "kind" :=
    static?_of_identifier ": 'entity' | 'type' | 'aspect' = '" (a.kind.text ++ "';") hkeyword
      (by decide +kernel) (by decide) (by simp only [String.append_assoc]; rfl)
  have hkeys : (Code.line ("declare static readonly keys: __.KeysOf<" ++ a.singular ++ ">" ++
      inherited a.ancestors "keys" ++ ";")).static? = some "keys" :=
    static?_of_identifier ": __.KeysOf<" (a.singular ++ ">" ++ inherited a.ancestors "keys" ++ ";")
      hdeclare (by decide +kernel) (by decide) (by simp only [String.append_assoc]; rfl)
  have helements : (Code.line ("declare static readonly elements: __.ElementsOf<" ++ a.singular ++
      ">" ++ inherited a.ancestors "elements" ++ ";")).static? = some "elements" :=
    static?_of_identifier ": __.ElementsOf<"
      (a.singular ++ ">" ++ inherited a.ancestors "elements" ++ ";")
      hdeclare (by decide +kernel) (by decide) (by simp only [String.append_assoc]; rfl)
  simp only [staticLines, List.filterMap_cons, hkind, hkeys, helements, List.filterMap_nil]

/-- The member that lists the bound operations. -/
theorem actionCode_static (c : Config) (a : Aspect) :
    (a.actionCode c).static? = some "actions" := by
  have hopening : ∃ types, (a.actionCode c).opening =
      "declare static readonly actions: " ++ types := by
    simp only [actionCode]
    split
    · exact ⟨_, String.append_assoc ..⟩
    · exact ⟨_, rfl⟩
  obtain ⟨types, htypes⟩ := hopening
  exact static?_of_identifier ": " types (List.mem_cons_of_mem _ List.mem_cons_self)
    (by decide +kernel) (by decide) (by rw [htypes]; rfl)

/-- The class body that a function returns has a static member for each constant, and the ones
that say what the class is. -/
theorem code_statics (c : Config) (a : Aspect) :
    (((a.code c).flatMap Code.inside).flatMap Code.inside).filterMap Code.static? =
      a.constants.map (·.1) ++ ["kind", "keys", "elements", "actions"] := by
  have hproperties : (a.properties.flatMap (Property.code c (style c))).filterMap Code.static? =
      [] := by
    refine List.filterMap_eq_nil_iff.mpr fun code hcode => ?_
    obtain ⟨p, -, hcode⟩ := List.mem_flatMap.mp hcode
    rcases p.code_declares hcode with hdoc | ⟨key, hdeclares⟩
    · exact Code.static?_of_doc hdoc
    · exact Code.static?_of_declares hdeclares
  have hconstants : (a.constants.map constantLine).filterMap Code.static? =
      a.constants.map (·.1) := by
    rw [List.filterMap_map, ← List.filterMap_eq_map]
    exact List.filterMap_congr fun entry _ => static?_constantLine entry
  have hbody := a.body_eq c
  rw [body] at hbody
  rw [hbody]
  simp only [List.filterMap_append, hproperties, hconstants, staticLines_statics,
    List.filterMap_cons, actionCode_static, List.filterMap_nil, List.nil_append,
    List.append_assoc, List.cons_append]

end Aspect

namespace Code

theorem definedOn?_defineProperty (class_ : String) {property : String} (value : String)
    (h : "'" ++ property ++ "'" = Naming.quote property) :
    (defineProperty class_ property value).definedOn? class_ = some property := by
  have hopening : (defineProperty class_ property value).opening.toList =
      ("Object.defineProperty(" ++ class_ ++ ", ").toList ++
        ((Naming.quote property).toList ++ (", \x7b value: " ++ value ++ " \x7d)").toList) := by
    rw [← h]
    simp [defineProperty, opening]
  rw [definedOn?, hopening, Stub.expect_append, Option.bind_some, Stub.readLiteral?_quote]
  rfl

/-- Only a statement for the class defines something on it. -/
theorem definedOn?_eq_none {class_ : String} {code : Code}
    (h : code.opening.toList.head? ≠ some 'O') : code.definedOn? class_ = none := by
  have hnone : expect ("Object.defineProperty(" ++ class_ ++ ", ") code.opening.toList = none := by
    refine Stub.expect_eq_none fun ⟨rest, hrest⟩ => h ?_
    rw [← hrest]
    simp
  rw [definedOn?, hnone, Option.bind_none]

end Code

/-- The class of one declares its drafts. -/
theorem singularClassCode_declared (singular : String) (doc : Option String) (full : String)
    (drafts : Bool) :
    ((singularClassCode singular doc full drafts).flatMap Code.inside).filterMap Code.static? =
      draftStatics drafts := by
  have hdrafts : (Code.line ("declare static readonly drafts: __.DraftOf<" ++ singular ++
      ">;")).static? = some "drafts" :=
    Aspect.static?_of_identifier ": __.DraftOf<" (singular ++ ">;")
      (List.mem_cons_of_mem _ List.mem_cons_self) (by decide +kernel) (by decide)
      (by simp only [String.append_assoc]; rfl)
  have hstatement : ∀ property value, (defineProperty singular property value).inside = [] :=
    fun _ _ => rfl
  rw [singularClassCode, List.flatMap_append, docCode_inside]
  simp only [List.flatMap_cons, hstatement, List.flatMap_nil, List.append_nil, List.nil_append]
  cases drafts with
  | false => rfl
  | true => simp [Code.inside, hdrafts, draftStatics]

/-- After the class of one, two properties are defined on it. -/
theorem singularClassCode_defined (singular : String) (doc : Option String) (full : String)
    (drafts : Bool) :
    (singularClassCode singular doc full drafts).filterMap (Code.definedOn? singular) =
      ["name", "is_singular"] := by
  have hdoc : (docCode doc).filterMap (Code.definedOn? singular) = [] := by
    refine List.filterMap_eq_nil_iff.mpr fun code hcode => Code.definedOn?_eq_none fun hhead => ?_
    rcases docCode_head doc code hcode 'O' hhead with h | h <;> cases h
  have hname := Code.definedOn?_defineProperty singular (Naming.quote full)
    (show "'" ++ "name" ++ "'" = Naming.quote "name" by decide +kernel)
  have hsingular := Code.definedOn?_defineProperty singular "true"
    (show "'" ++ "is_singular" ++ "'" = Naming.quote "is_singular" by decide +kernel)
  rw [singularClassCode, List.filterMap_append, hdoc, List.nil_append, List.filterMap_cons,
    Code.definedOn?_eq_none]
  · simp only [List.filterMap_cons, hname, hsingular, List.filterMap_nil]
  · split <;> simp [Code.opening]

/-! ## Static members from the model -/

namespace Model

/-- The static members of the class of a definition: the enums that are written in place in the
class body, without those that have the name of a reserved member, and the members that every
class has. -/
def staticNames (m : Model) (d : Definition) (drafts : Bool) : List String :=
  (m.inlineEnums d d.ownElements).filter (fun element => !reservedStatics.contains element) ++
    (["kind", "keys", "elements", "actions"] ++ draftStatics drafts ++ ["name", "is_singular"])

/-- Of the members that every class has, one is not reserved. -/
theorem fixedStatics_reserved (drafts : Bool) :
    ∀ member ∈ ["kind", "keys", "elements", "actions"] ++ draftStatics drafts ++
      ["name", "is_singular"], member = "is_singular" ∨ reservedStatics.contains member = true := by
  cases drafts <;> decide

/-- No static member of a class has the name of another one exactly if no enum that is written
in place has the name that is not reserved. -/
theorem staticNames_nodup_iff {m : Model} {d : Definition} (h : (Table.names d.ownElements).Nodup)
    (drafts : Bool) :
    (m.staticNames d drafts).Nodup ↔ "is_singular" ∉ m.inlineEnums d d.ownElements := by
  have henums : (m.inlineEnums d d.ownElements).Nodup := h.sublist (List.filter_sublist.map _)
  have hfixed : (["kind", "keys", "elements", "actions"] ++ draftStatics drafts ++
      ["name", "is_singular"]).Nodup := by
    cases drafts <;> decide
  rw [staticNames, List.nodup_append']
  constructor
  · rintro ⟨-, -, hdisjoint⟩ hshadows
    exact hdisjoint (List.mem_filter.mpr ⟨hshadows, by decide⟩) (by simp)
  · intro hapart
    refine ⟨henums.filter _, hfixed, fun member henum hmember => ?_⟩
    obtain ⟨henum, hfree⟩ := List.mem_filter.mp henum
    rcases fixedStatics_reserved drafts member hmember with rfl | hreserved
    · exact hapart henum
    · rw [hreserved] at hfree
      cases hfree

end Model

/-- The constants of a class body are for the enums that are written in place, without those that
have the name of a reserved member. -/
theorem Step.aspect_enumStatics {m : Model} {o : ClassOwner} {kind : Kind} {a : Aspect}
    {enums : List InlineEnum} {s s' : Session}
    (h : Step.aspect m o kind s = (.ok (a, enums), s')) :
    a.constants.map (·.1) = (m.inlineEnums o.definition o.definition.ownElements).filter
      fun element => !reservedStatics.contains element := by
  obtain ⟨_, _, -, body, _, hbody, _, -, rfl, rfl⟩ := Step.aspect_eq_ok h
  have hproperties : body.enums.map (·.property) =
      m.inlineEnums o.definition o.definition.ownElements := by
    have hpairs := congrArg (List.map Prod.fst) (Step.bodyOf_enums hbody)
    rw [List.map_map, List.map_map] at hpairs
    exact hpairs.trans (List.map_id _)
  rw [← hproperties, List.map_filterMap, ← List.filterMap_eq_filter,
    List.filterMap_map]
  refine List.filterMap_congr fun e _ => ?_
  by_cases hreserved : e.property ∈ reservedStatics <;> simp [Option.guard, hreserved]

/-! ## The output for a model -/

namespace Plan

variable {m : Model} {plan : Plan} {name : String} {a : Aspect} {doc : Option String}
  {drafts : Bool}

/-- A plan holds the class body of a definition, and the class of one with its documentation. -/
def HasClass (plan : Plan) (name : String) (a : Aspect) (doc : Option String) (drafts : Bool) :
    Prop :=
  ∃ e ∈ plan.emissions, ∃ p ∈ e.placements, ∃ more,
    p.declarations = .aspect a :: .singularClass a.singular doc name drafts :: more

theorem HasClass.body (h : plan.HasClass name a doc drafts) : plan.HasBody name a := by
  obtain ⟨e, he, p, hp, more, hdeclarations⟩ := h
  exact ⟨e, he, p, hp, doc, drafts, more, hdeclarations⟩

theorem HasBody.hasClass (h : plan.HasBody name a) :
    ∃ doc drafts, plan.HasClass name a doc drafts := by
  obtain ⟨e, he, p, hp, doc, drafts, more, hdeclarations⟩ := h
  exact ⟨doc, drafts, e, he, p, hp, more, hdeclarations⟩

/-- The static members of a class are those that the model tells, in this order. -/
theorem HasClass.statics (h : plan.HasClass name a doc drafts) (hplan : Plan.ofModel m = .ok plan)
    (c : Config) :
    ∃ d, m.find? name = some d ∧ writtenStatics a.singular ((Declaration.aspect a).code c)
      ((Declaration.singularClass a.singular doc name drafts).code c) = m.staticNames d drafts := by
  obtain ⟨d, kind, enums, s, s', hd, haspect⟩ := h.body.made hplan
  refine ⟨d, hd, ?_⟩
  have hconstants := Step.aspect_enumStatics haspect
  have hfunction := a.code_statics c
  have hdeclared := singularClassCode_declared a.singular doc name drafts
  have hdefined := singularClassCode_defined a.singular doc name drafts
  rw [writtenStatics, Declaration.code, Declaration.code, hfunction, hdeclared, hdefined,
    hconstants, Model.staticNames]
  simp only [List.append_assoc]

end Plan

/-- Every definition that gives a function has a class, and the static members of each class are
those that the model tells.  No one has the name of another one exactly if the class body has no
enum in place for an element that is called `is_singular`. -/
theorem compile_statics (m : Model) (c : Config) (hm : m.NamesElementsOnce) :
    ∀ o, compile m c = .ok o →
      ∃ (plan : Plan) (files sources : Store), Plan.ofModel m = .ok plan ∧
        files.Collects c plan.emissions ∧ List.Forall₂ SourceFile.Closes files sources ∧
        o.files = baseFile :: plan.libraries.map Library.file ++ sources.map (SourceFile.file c) ∧
        (∀ name, m.GivesAspect name → ∃ a doc drafts, plan.HasClass name a doc drafts) ∧
        ∀ name a doc drafts, plan.HasClass name a doc drafts →
          ∃ d statics, m.find? name = some d ∧ statics = m.staticNames d drafts ∧
            writtenStatics a.singular ((Declaration.aspect a).code c)
              ((Declaration.singularClass a.singular doc name drafts).code c) = statics ∧
            (statics.Nodup ↔ "is_singular" ∉ m.inlineEnums d d.ownElements) := by
  intro o h
  obtain ⟨plan, hplan, hrender⟩ := compile_eq_ok h
  obtain ⟨sources, hsources, hfiles⟩ := Plan.render_eq_ok hrender
  obtain ⟨files, hcollects, hcloses⟩ := Plan.sources_collect hsources
  refine ⟨plan, files, sources, hplan, hcollects, hcloses, hfiles, fun name hgives => ?_,
    fun name a doc drafts hclass => ?_⟩
  · obtain ⟨a, hbody⟩ := hgives.hasBody hplan
    exact ⟨a, hbody.hasClass⟩
  · obtain ⟨d, hd, hstatics⟩ := hclass.statics hplan c
    exact ⟨d, _, hd, rfl, hstatics, Model.staticNames_nodup_iff (hm.ownElements hd) drafts⟩

/-- A lamp with enums that are written in place, one of which has the name of a member that every
class has. -/
def lamps : Model where
  definitions :=
    [("Lamps", {
        kind := some .entity
        elements := some [
          ("ID", { type := some (.name "cds.UUID"), key := true }),
          ("light-colour", {
            type := some (.name "cds.String")
            values := some [("warm", ⟨none, none⟩)] }),
          ("kind", {
            type := some (.name "cds.String")
            values := some [("desk", ⟨none, none⟩)] })] })]

theorem compile_statics_lamps :
    lamps.NamesElementsOnce ∧ ∃ (o : Output) (plan : Plan) (a : Aspect) (doc : Option String)
      (drafts : Bool) (statics : List String), compile lamps {} = .ok o ∧
      Plan.ofModel lamps = .ok plan ∧ plan.HasClass "Lamps" a doc drafts ∧
      writtenStatics a.singular ((Declaration.aspect a).code {})
        ((Declaration.singularClass a.singular doc "Lamps" drafts).code {}) = statics ∧
      statics = ["light-colour", "kind", "keys", "elements", "actions"] ++ draftStatics drafts ++
        ["name", "is_singular"] ∧ statics.Nodup := by
  have hm : lamps.NamesElementsOnce := by decide
  obtain ⟨plan, hplan⟩ := Except.exists_eq_ok (x := Plan.ofModel lamps) (by decide +kernel)
  obtain ⟨o, ho⟩ := compile_ok {} hplan
  obtain ⟨plan', _, _, hplan', -, -, -, hgives, hclasses⟩ := compile_statics lamps {} hm o ho
  obtain rfl : plan = plan' := Except.ok.inj (hplan.symm.trans hplan')
  obtain ⟨a, doc, drafts, hclass⟩ := hgives "Lamps" ⟨_, rfl, by decide, Or.inl rfl⟩
  obtain ⟨d, statics, hd, hnames, hwritten, hnodup⟩ := hclasses _ _ _ _ hclass
  obtain rfl := Option.some.inj (hd.symm.trans rfl)
  refine ⟨hm, o, plan, a, doc, drafts, statics, ho, hplan, hclass, hwritten, ?_,
    hnodup.mpr (by decide)⟩
  rw [hnames]
  cases drafts <;> decide

/-- A noun with an enum for whether it stands for one thing. -/
def nouns : Model where
  definitions :=
    [("Nouns", {
        kind := some .entity
        elements := some [
          ("ID", { type := some (.name "cds.UUID"), key := true }),
          ("is_singular", {
            type := some (.name "cds.String")
            values := some [("yes", ⟨none, none⟩)] })] })]

/-- The class declares a static member for the enum, the same one is defined after the class, and
nothing is found about it. -/
theorem nouns_shadowed :
    nouns.NamesElementsOnce ∧ ∃ (o : Output) (plan : Plan) (a : Aspect) (doc : Option String)
      (drafts : Bool) (statics : List String), compile nouns {} = .ok o ∧ o.diagnostics = [] ∧
      Plan.ofModel nouns = .ok plan ∧ plan.HasClass "Nouns" a doc drafts ∧
      writtenStatics a.singular ((Declaration.aspect a).code {})
        ((Declaration.singularClass a.singular doc "Nouns" drafts).code {}) = statics ∧
      statics = ["is_singular", "kind", "keys", "elements", "actions"] ++ draftStatics drafts ++
        ["name", "is_singular"] ∧ ¬ statics.Nodup := by
  have hdiagnostics : (Plan.ofModel nouns).toOption.map (·.diagnostics) = some [] := by
    decide +kernel
  obtain ⟨plan, hplan⟩ := Except.exists_eq_ok (x := Plan.ofModel nouns) (by decide +kernel)
  rw [hplan] at hdiagnostics
  obtain ⟨o, ho, hrender⟩ := compile_written {} hplan
  have hgives : nouns.GivesAspect "Nouns" := ⟨_, rfl, by decide, Or.inl rfl⟩
  obtain ⟨a, hbody⟩ := hgives.hasBody hplan
  obtain ⟨doc, drafts, hclass⟩ := hbody.hasClass
  obtain ⟨d, hd, hwritten⟩ := hclass.statics hplan {}
  obtain rfl := Option.some.inj (hd.symm.trans rfl)
  refine ⟨by decide, o, plan, a, doc, drafts, _, ho, ?_, hplan, hclass, hwritten, ?_, ?_⟩
  · exact (Plan.render_diagnostics hrender).trans (Option.some.inj hdiagnostics)
  · cases drafts <;> decide
  · cases drafts <;> decide

end SchemaTypes
