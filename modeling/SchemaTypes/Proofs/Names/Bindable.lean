import SchemaTypes.Proofs.Declaration
import SchemaTypes.Proofs.Files.Directories
import SchemaTypes.Proofs.Names.Classes
import SchemaTypes.Proofs.Stub.Parents

/-!
# Names that can be bound

The generated code exports classes, type aliases, constants and functions.  A name can be
bound where it is an identifier and no reserved word.

`Naming.sanitize` makes such a name of every name, unless it starts with a digit of a
script other than the Latin one (`Naming.isBindable_sanitize`).  The names of operations
and of the constants of enums that are written in place are sanitized.  The names of
classes and type aliases are not: they can be bound only if the names of the model give
names that can (`compile_exports`).  An event that is named by a reserved word shows that they need
not (`delete_reserved`).
-/

namespace SchemaTypes

namespace Naming

/-! ## Identifiers -/

/-- Whether a name can be bound: it is an identifier and no reserved word. -/
def isBindable (name : String) : Bool := isIdentifier name && !isReserved name

/-- Whether the first character is no digit of a script other than the Latin one. -/
def startsSafely (name : String) : Bool :=
  match name.toList with
  | [] => true
  | c :: _ => !Text.isNumeric c || Text.isAlphabetic c || c.isDigit

section First

variable {name : String} {c : Char} {rest : List Char}

theorem startsWithDigit_of_cons (h : name.toList = c :: rest) :
    startsWithDigit name = c.isDigit := by
  rw [startsWithDigit, h]

theorem startsSafely_of_cons (h : name.toList = c :: rest) :
    startsSafely name = (!Text.isNumeric c || Text.isAlphabetic c || c.isDigit) := by
  rw [startsSafely, h]

end First

theorem not_isNumeric_of_mark {c : Char} (h : c = '_' ∨ c = '$') : Text.isNumeric c = false := by
  rcases h with rfl | rfl <;> decide

/-- A character that an identifier can go on with can start one, unless it is a digit. -/
theorem isIdentifierStart_of_part {c : Char} (h : isIdentifierPart c = true) :
    isIdentifierStart c = (!Text.isNumeric c || Text.isAlphabetic c) := by
  by_cases hmark : c = '_' ∨ c = '$'
  · rw [not_isNumeric_of_mark hmark]
    rcases hmark with rfl | rfl <;> rfl
  · have hunder : (c == '_') = false := beq_eq_false_iff_ne.mpr fun heq => hmark (.inl heq)
    have hdollar : (c == '$') = false := beq_eq_false_iff_ne.mpr fun heq => hmark (.inr heq)
    rw [isIdentifierPart, isAlphanumeric, hunder, hdollar] at h
    rw [isIdentifierStart, hunder, hdollar]
    cases hletter : Text.isAlphabetic c <;> cases hdigit : Text.isNumeric c <;>
      simp [hletter, hdigit] at h ⊢

/-- What an identifier can hold at the place of a character. -/
def safeChar (c : Char) : Char := if isIdentifierPart c then c else '_'

theorem isIdentifierPart_safeChar (c : Char) : isIdentifierPart (safeChar c) = true := by
  rw [safeChar]
  split
  · assumption
  · rfl

/-- A character is kept, or it is no digit and replaced by a mark. -/
theorem safeChar_cases (c : Char) :
    isIdentifierPart c = true ∧ safeChar c = c ∨
      Text.isNumeric c = false ∧ safeChar c = '_' := by
  by_cases hpart : isIdentifierPart c = true
  · exact .inl ⟨hpart, if_pos hpart⟩
  · refine .inr ⟨?_, if_neg hpart⟩
    simp only [isIdentifierPart, isAlphanumeric, Bool.or_eq_true, not_or] at hpart
    simpa using hpart.1.1.2

/-! ## Reserved words -/

theorem not_isReserved_mark (name : String) : isReserved ("_" ++ name) = false := by
  have hnone : ∀ w ∈ reservedWords, w.toList.head? ≠ some '_' := by decide
  rw [isReserved, List.contains_eq_mem, decide_eq_false_iff_not]
  exact fun h => hnone _ h (by simp)

/-- A reserved word starts with a letter. -/
theorem isAlphabetic_of_isReserved {name : String} (h : isReserved name = true) :
    name.toList.head?.all Text.isAlphabetic = true := by
  have hall : ∀ w ∈ reservedWords, w.toList.head?.all Text.isAlphabetic = true := by decide
  exact hall name (List.contains_iff_mem.mp h)

/-! ## Sanitized names -/

/-- With `_` in front, a name can be bound if it holds nothing but letters, digits and
marks. -/
theorem isBindable_mark {name : String} (h : name.toList.all isIdentifierPart = true) :
    isBindable ("_" ++ name) = true := by
  have hcons : ("_" ++ name).toList = '_' :: name.toList := by simp
  rw [isBindable, isIdentifier_of_cons hcons, not_isReserved_mark, h]
  rfl

/-- What starts with an identifier starts safely. -/
theorem startsSafely_append {name : String} (h : isIdentifier name = true) (more : String) :
    startsSafely (name ++ more) = true := by
  obtain ⟨c, rest, hname, hstart, -⟩ := exists_cons_of_isIdentifier h
  have hcons : (name ++ more).toList = c :: (rest ++ more.toList) := by simp [hname]
  rw [startsSafely_of_cons hcons,
    ← isIdentifierStart_of_part (isIdentifierPart_of_start hstart), hstart]
  rfl

theorem sanitize_eq {name safe : String} (h : String.ofList (name.toList.map safeChar) = safe) :
    sanitize name =
      if safe == "" || startsWithDigit safe || isReserved safe then "_" ++ safe else safe := by
  rw [← h]
  rfl

/-- Sanitized names can be bound, unless they start with a digit of a script other than
the Latin one. -/
theorem isBindable_sanitize (name : String) : isBindable (sanitize name) = startsSafely name := by
  cases hname : name.toList with
  | nil =>
    have hempty : String.ofList (name.toList.map safeChar) = "" := by rw [hname]; rfl
    rw [sanitize_eq hempty, startsSafely, hname]
    decide
  | cons c rest =>
    obtain ⟨safe, hsafe⟩ : ∃ safe, String.ofList (name.toList.map safeChar) = safe := ⟨_, rfl⟩
    have hcons : safe.toList = safeChar c :: rest.map safeChar := by
      rw [← hsafe, String.toList_ofList, hname, List.map_cons]
    have hparts : (rest.map safeChar).all isIdentifierPart = true := by
      simp [isIdentifierPart_safeChar]
    have hnonempty : (safe == "") = false := by
      rw [beq_eq_false_iff_ne]
      rintro rfl
      cases hcons
    rw [sanitize_eq hsafe, hnonempty, Bool.false_or, startsWithDigit_of_cons hcons,
      startsSafely_of_cons hname]
    split
    · next hmended =>
      -- With `_` in front it can be bound, and only a letter or a Latin digit has led to this.
      rw [isBindable_mark (by rw [hcons, List.all_cons, isIdentifierPart_safeChar, hparts]; rfl)]
      rcases safeChar_cases c with ⟨-, hchar⟩ | ⟨hdigit, -⟩
      · rw [hchar] at hcons hmended
        rcases (Bool.or_eq_true _ _).mp hmended with hdigit | hreserved
        · rw [hdigit, Bool.or_true]
        · have hletter := isAlphabetic_of_isReserved hreserved
          rw [hcons] at hletter
          have hletter : Text.isAlphabetic c = true := hletter
          rw [hletter, Bool.or_true, Bool.true_or]
      · rw [hdigit]
        rfl
    · next hkept =>
      rw [Bool.or_eq_true, not_or, Bool.not_eq_true, Bool.not_eq_true] at hkept
      rw [isBindable, hkept.2, isIdentifier_of_cons hcons, hparts, Bool.and_true, Bool.not_false,
        Bool.and_true]
      rcases safeChar_cases c with ⟨hpart, hchar⟩ | ⟨hdigit, hchar⟩
      · rw [hchar] at hkept
        rw [hchar, isIdentifierStart_of_part hpart, hkept.1, Bool.or_false]
      · rw [hchar, hdigit]
        rfl

end Naming

/-! ## Exported names -/

/-- The names an emission exports, with their sorts. -/
def Emission.exports (e : Emission) : List (ExportSort × String) :=
  e.placements.flatMap fun p => p.declarations.flatMap Declaration.exports

/-- The names that the definitions of a namespace export. -/
def Plan.exports (plan : Plan) (space : String) : List (ExportSort × String) :=
  (Store.emissionsOf space plan.emissions).flatMap Emission.exports

/-- Exported names can all be bound. -/
def AllBindable (exports : List (ExportSort × String)) : Prop :=
  ∀ entry ∈ exports, Naming.isBindable entry.2 = true

namespace Model

/-- The name of an operation that stands on its own. -/
def operationNames (m : Model) (name : String) (d : Definition) : List String :=
  if Step.isLocalized name then []
  else if d.kind.any Kind.isOperation then [(m.nameParts name).name]
  else []

/-- The names of a definition give names that can be bound. -/
structure NamesBindable (m : Model) (name : String) (d : Definition) : Prop where
  types : ∀ n ∈ m.typeNames name d, Naming.isBindable n = true
  operations : ∀ n ∈ m.operationNames name d, Naming.startsSafely n = true

end Model

namespace Step

variable {m : Model} {name : String} {d : Definition} {s s' : Session} {e : Emission}

theorem isBindable_aspectName {singular : String} (h : Naming.isBindable singular = true) :
    Naming.isBindable (aspectName singular) = true := by
  rw [Naming.isBindable, Bool.and_eq_true] at h
  have hparts : (singular ++ "Aspect").toList.all Naming.isIdentifierPart = true := by
    rw [String.toList_append, List.all_append, Naming.all_isIdentifierPart h.1]
    decide
  rw [aspectName, String.append_assoc]
  exact Naming.isBindable_mark hparts

theorem isBindable_hint {o : ClassOwner} (h : Naming.isBindable o.singular = true)
    (element : String) : Naming.isBindable (o.hint element) = true := by
  rw [Naming.isBindable, Bool.and_eq_true] at h
  rw [ClassOwner.hint, Naming.isBindable_sanitize, String.append_assoc]
  exact Naming.startsSafely_append h.1 _

/-- The names that a structured definition exports follow from the names of its classes. -/
theorem structured_bindable {kind : Kind} (h : structured m name d kind s = (.ok e, s')) :
    AllBindable e.exports ↔ ∀ n ∈ (m.inflection (m.nameParts name)).singular ::
      (if kind = .entity then [(m.inflection (m.nameParts name)).plural] else []),
        Naming.isBindable n = true := by
  obtain ⟨_, _, -, _, -, a, enums, haspect, rfl⟩ := structured_eq_ok h
  obtain ⟨_, _, -, body, _, hbody, _, -, rfl, rfl⟩ := aspect_eq_ok haspect
  have hconstants := bodyOf_constants hbody
  generalize m.inflection (m.nameParts name) = names at hconstants ⊢
  have hclasses : ∀ drafts, (classes name d kind names drafts).flatMap Declaration.exports =
      (names.singular :: if kind = .entity then [names.plural] else []).map (.classType, ·) := by
    intro drafts
    rw [classes]
    split <;> rfl
  simp only [AllBindable, Emission.exports, InlineEnum.placement, List.flatMap_append,
    List.flatMap_cons, List.flatMap_nil, List.append_nil, hclasses, List.flatMap_map,
    Declaration.exports]
  constructor
  · intro hall n hn
    refine hall (.classType, n) (List.mem_append_right _ (List.mem_append_right _ ?_))
    exact List.mem_map_of_mem hn
  · intro hall entry hentry
    have hsingular := hall names.singular List.mem_cons_self
    rcases List.mem_append.mp hentry with hentry | hentry
    · obtain ⟨enum, henum, hentry⟩ := List.mem_flatMap.mp hentry
      have hconstant : entry.2 = enum.constant := by
        simp only [List.mem_cons, List.not_mem_nil, or_false] at hentry
        rcases hentry with rfl | rfl <;> rfl
      rw [hconstant, hconstants enum henum]
      exact isBindable_hint hsingular _
    · rcases List.mem_append.mp hentry with hentry | hentry
      · rw [List.mem_singleton.mp hentry]
        exact isBindable_aspectName hsingular
      · obtain ⟨n, hn, rfl⟩ := List.mem_map.mp hentry
        exact hall n hn

/-- What a definition exports can be bound exactly if its names give names that can. -/
theorem emission_bindable (hd : m.find? name = some d)
    (h : emission m name d s = (.ok (some e), s')) :
    AllBindable e.exports ↔ m.NamesBindable name d := by
  rcases emission_eq_ok h with ⟨-, hnone, -⟩ | ⟨kind, made?, hlocal, hkind, hmade, hmap⟩
  · cases hnone
  obtain ⟨made, rfl, rfl⟩ := Option.map_eq_some_iff.mp hmap.symm
  have hsame : ∀ imports, ({ made with imports } : Emission).exports = made.exports := fun _ => rfl
  have hiff : m.NamesBindable name d ↔ (∀ n ∈ m.typeNames name d, Naming.isBindable n = true) ∧
      ∀ n ∈ m.operationNames name d, Naming.startsSafely n = true :=
    ⟨fun h => ⟨h.types, h.operations⟩, fun h => ⟨h.1, h.2⟩⟩
  rw [hsame, hiff, Model.typeNames, Model.operationNames, hlocal, if_neg Bool.false_ne_true,
    if_neg Bool.false_ne_true, hkind]
  cases hmade with
  | structured hkinds he =>
    rw [structured_bindable he]
    rcases hkinds with rfl | rfl | ⟨rfl, -⟩ <;> simp [Kind.isOperation]
  | plainType _ he =>
    rw [Model.singular_of_uninflected hd (hkind ▸ rfl)]
    rcases plainType_eq_ok he with ⟨-, members, -, rfl⟩ | ⟨type, -, rfl⟩ <;>
      simp [AllBindable, Emission.exports, Declaration.exports, Kind.isOperation]
  | @operation kind _ hkinds he =>
    obtain ⟨_, -, rfl⟩ := operation_eq_ok he
    cases kind <;>
      simp [AllBindable, Emission.exports, Declaration.exports, Kind.isOperation,
        Naming.isBindable_sanitize] at hkinds ⊢
  | event he =>
    rw [Model.singular_of_uninflected hd (hkind ▸ rfl)]
    obtain ⟨_, -, rfl⟩ := event_eq_ok he
    simp [AllBindable, Emission.exports, Declaration.exports, Kind.isOperation]
  | service =>
    simp [AllBindable, Emission.exports, Declaration.exports, Kind.isOperation,
      Model.serviceEmission]

/-- A definition that nothing is emitted for has no names. -/
theorem bindable_of_no_emission (h : emission m name d s = (.ok none, s')) :
    m.NamesBindable name d := by
  have hnone : m.typeNames name d = [] ∧ m.operationNames name d = [] := by
    rw [Model.typeNames, Model.operationNames]
    rcases emission_eq_ok h with ⟨hlocal | hkind, -, -⟩ | ⟨kind, made?, hlocal, hkind, hmade, hmap⟩
    · simp [hlocal]
    · simp [hkind]
    · obtain rfl := Option.map_eq_none_iff.mp hmap.symm
      cases hmade with
      | nothing hkinds => rcases hkinds with rfl | rfl | rfl <;> simp [hkind, Kind.isOperation]
  exact ⟨by simp [hnone.1], by simp [hnone.2]⟩

end Step

/-- What a namespace exports can be bound exactly if its definitions give names that
can. -/
theorem Plan.exports_bindable_iff {m : Model} {plan : Plan} (h : Plan.ofModel m = .ok plan)
    (space : String) :
    AllBindable (plan.exports space) ↔ ∀ entry ∈ m.definitions,
      (m.fileSpace? entry.1 entry.2).map Path.dotted = some space →
        m.NamesBindable entry.1 entry.2 := by
  obtain ⟨_, _, -, hrun, -⟩ := ofModel_eq_ok h
  constructor
  · rintro hall ⟨name, d⟩ hd hspace
    obtain ⟨e?, t, t', he, hmem⟩ := Step.emission_of_mem hrun hd
    cases e? with
    | none => exact Step.bindable_of_no_emission he
    | some e =>
      refine (Step.emission_bindable (Model.find?_eq_some_iff.mpr hd) he).mp fun x hx => ?_
      have hpath := Step.emission_path he
      rw [← hpath] at hspace
      have hdotted : e.path.dotted = space := Option.some.inj hspace
      refine hall x (List.mem_flatMap.mpr ⟨e, List.mem_filter.mpr ⟨hmem e rfl, ?_⟩, hx⟩)
      exact decide_eq_true hdotted
  · intro hall x hx
    obtain ⟨e, he, hx⟩ := List.mem_flatMap.mp hx
    obtain ⟨he, hdotted⟩ := List.mem_filter.mp he
    obtain ⟨name, d, t, t', hd, hemission⟩ := Step.emission_of_mem_emissions hrun he
    have hpath := Step.emission_path hemission
    refine (Step.emission_bindable (Model.find?_eq_some_iff.mpr hd) hemission).mpr
      (hall (name, d) hd ?_) x hx
    rw [← hpath]
    exact congrArg some (of_decide_eq_true hdotted)

/-! ## Fixed type layers -/

/-- The words that stand before names that are exported. -/
def exportKeywords : List String :=
  [ExportSort.classType, .typeAlias, .constant, .declaredConstant, .function].map
    ExportSort.keyword

/-- The name that a line exports: what stands between the words and a blank or a type
parameter. -/
def introducedName? (line : List Char) : Option String :=
  (exportKeywords.findSome? fun keyword =>
    Library.after? keyword (line.dropWhile Text.isBlank)).map fun rest =>
      String.ofList (rest.takeWhile fun c => c != ' ' && c != '<')

/-- The names that the lines of a type layer export. -/
def GeneratedFile.introducedNames (f : GeneratedFile) : List String :=
  (Text.splitOn '\n' f.types).filterMap fun line => introducedName? line.toList

/-- It is one line, and if it exports a name, then one that can be bound. -/
def isBindableLine (line : List Char) : Bool :=
  !line.contains '\n' && (introducedName? line).all Naming.isBindable

/-- The characters of a literal are found by unification, which is faster than reading
them off the literal. -/
theorem isBindableLine_cons {line : List Char} {rest : List String}
    (h : isBindableLine line = true) (hrest : ∀ s ∈ rest, isBindableLine s.toList = true) :
    ∀ s ∈ String.ofList line :: rest, isBindableLine s.toList = true := by
  simpa using ⟨h, hrest⟩

theorem GeneratedFile.introducedNames_bindable {f : GeneratedFile} {lines : List String}
    (hne : lines ≠ []) (h : ∀ s ∈ lines, isBindableLine s.toList = true)
    (htypes : f.types = Text.join "\n" lines) :
    ∀ n ∈ f.introducedNames, Naming.isBindable n = true := by
  have hplain : ∀ s ∈ lines, '\n' ∉ s.toList := by
    intro s hs
    have hline := h s hs
    rw [isBindableLine, Bool.and_eq_true] at hline
    simpa using hline.1
  have hsplit : Text.splitOn '\n' f.types = lines := by
    rw [htypes]
    exact @Text.splitOn_join '\n' _ hne hplain
  intro n hn
  rw [introducedNames, hsplit] at hn
  obtain ⟨s, hs, hname⟩ := List.mem_filterMap.mp hn
  have hline := h s hs
  rw [isBindableLine, hname, Bool.and_eq_true] at hline
  exact hline.2

theorem baseFile_bindable : ∀ n ∈ baseFile.introducedNames, Naming.isBindable n = true := by
  refine GeneratedFile.introducedNames_bindable (List.cons_ne_nil _ _) ?_ rfl
  repeat refine isBindableLine_cons (by decide +kernel) ?_
  exact nofun

theorem hanaFile_bindable {path : Path} :
    ∀ n ∈ (Library.file ⟨path, hanaSource⟩).introducedNames, Naming.isBindable n = true := by
  have hlines : ∃ lines : List String, hanaSource = Text.join "\n" lines ∧ lines ≠ [] ∧
      ∀ s ∈ lines, isBindableLine s.toList = true := by
    refine ⟨_, rfl, List.cons_ne_nil _ _, ?_⟩
    repeat refine isBindableLine_cons (by decide +kernel) ?_
    exact nofun
  obtain ⟨lines, hsource, hne, hlines⟩ := hlines
  refine GeneratedFile.introducedNames_bindable (List.cons_ne_nil banner ("" :: lines)) ?_ ?_
  · refine isBindableLine_cons (by decide +kernel) (isBindableLine_cons (by decide +kernel) hlines)
  · rw [Library.file, hsource, Text.join_cons (List.cons_ne_nil _ _), Text.join_cons hne]
    simp only [String.append_assoc]
    rfl

/-! ## The output for a model -/

/-- The names that the base namespace and the libraries export can all be bound.  What the
code for a model exports are the names that its definitions export, each in a line of its own,
and those in a file can be bound exactly if the definitions of the file give names that can. -/
theorem compile_exports {m : Model} {c : Config} {o : Output} (h : compile m c = .ok o) :
    ∃ (plan : Plan) (files sources : Store), Plan.ofModel m = .ok plan ∧
      files.Collects c plan.emissions ∧ List.Forall₂ SourceFile.Closes files sources ∧
      o.files = baseFile :: plan.libraries.map Library.file ++ sources.map (SourceFile.file c) ∧
      (∀ f ∈ baseFile :: plan.libraries.map Library.file, ∀ n ∈ f.introducedNames,
        Naming.isBindable n = true) ∧
      (∀ e ∈ plan.emissions, ∀ p ∈ e.placements, ∀ code ∈ p.code c, ∀ sort : ExportSort,
        sort.keyword.toList <+: code.opening.toList →
          ∃ n, (sort, n) ∈ e.exports ∧ (sort.opening n).toList <+: code.opening.toList) ∧
      (∀ e ∈ plan.emissions, ∀ p ∈ e.placements, ∀ d ∈ p.declarations,
        ∀ sort n, (sort, n) ∈ d.exports →
          ∃ line ∈ Code.lines (d.code c), (sort.opening n).toList <+: line.toList) ∧
      ∀ file ∈ files, AllBindable (plan.exports file.path.dotted) ↔
        ∀ entry ∈ m.definitions,
          (m.fileSpace? entry.1 entry.2).map Path.dotted = some file.path.dotted →
            m.NamesBindable entry.1 entry.2 := by
  obtain ⟨plan, hplan, hrender⟩ := compile_eq_ok h
  obtain ⟨sources, hsources, hfiles⟩ := Plan.render_eq_ok hrender
  obtain ⟨files, hcollects, hcloses⟩ := Plan.sources_collect hsources
  obtain ⟨r, hr, hreferenced⟩ := Plan.libraries_eq hplan
  refine ⟨plan, files, sources, hplan, hcollects, hcloses, hfiles, fun f hf => ?_,
    fun e _ p hp code hcode sort hkeyword => ?_,
    fun _ _ _ _ d _ _ _ hn => d.exports_code c hn,
    fun file _ => plan.exports_bindable_iff hplan _⟩
  · rcases List.mem_cons.mp hf with rfl | hf
    · exact baseFile_bindable
    · obtain ⟨lib, hlib, rfl⟩ := List.mem_map.mp hf
      have hstandard := Registry.mem_libraries_of_referenced (hreferenced ▸ hlib)
      rw [hr] at hstandard
      obtain rfl : lib = ⟨Path.ofDotted "cds.hana", hanaSource⟩ := List.mem_singleton.mp hstandard
      exact hanaFile_bindable
  · obtain ⟨d, hd, hcode⟩ := List.mem_flatMap.mp hcode
    obtain ⟨n, hn, hopening⟩ := Declaration.exports_of_keyword c hcode hkeyword
    exact ⟨n, List.mem_flatMap.mpr ⟨p, hp, List.mem_flatMap.mpr ⟨d, hd, hn⟩⟩, hopening⟩

theorem compile_exports_shelf :
    ∃ (o : Output) (plan : Plan) (files : Store), compile shelf {} = .ok o ∧
      Plan.ofModel shelf = .ok plan ∧ files.Collects {} plan.emissions ∧
      plan.exports "people" = [(.function, "_AuthorAspect"), (.classType, "Author"),
        (.classType, "Authors")] ∧
      ∀ file ∈ files, AllBindable (plan.exports file.path.dotted) := by
  have hnames : ∀ entry ∈ shelf.definitions,
      (∀ n ∈ shelf.typeNames entry.1 entry.2, Naming.isBindable n = true) ∧
        ∀ n ∈ shelf.operationNames entry.1 entry.2, Naming.startsSafely n = true := by
    decide +kernel
  have hexports : (Plan.ofModel shelf).toOption.map (fun plan => plan.exports "people") =
      some [(.function, "_AuthorAspect"), (.classType, "Author"), (.classType, "Authors")] := by
    decide +kernel
  obtain ⟨plan, hplan⟩ := Except.exists_eq_ok (x := Plan.ofModel shelf) (by decide +kernel)
  rw [hplan] at hexports
  obtain ⟨o, ho⟩ := compile_ok {} hplan
  obtain ⟨plan', files, sources, hplan', hcollects, -, -, -, -, -, hbindable⟩ := compile_exports ho
  obtain rfl : plan = plan' := Except.ok.inj (hplan.symm.trans hplan')
  refine ⟨o, plan, files, ho, hplan, hcollects, Option.some.inj hexports, fun file hfile => ?_⟩
  refine (hbindable file hfile).mpr fun entry hentry _ => ?_
  exact ⟨(hnames entry hentry).1, (hnames entry hentry).2⟩

/-- An event whose name is a reserved word. -/
def deletions : Model where
  definitions :=
    [("shop.delete", {
        kind := some .event
        elements := some [("ID", { type := some (.name "cds.UUID") })] })]

/-- The class of the event has a reserved word for its name. -/
theorem delete_reserved :
    ∃ (o : Output) (plan : Plan) (file source : SourceFile), compile deletions {} = .ok o ∧
      Plan.ofModel deletions = .ok plan ∧ Store.Collects {} plan.emissions [file] ∧
      file.Closes source ∧ o.files = [baseFile, source.file {}] ∧
      plan.exports file.path.dotted = [(.classType, "delete")] ∧
      Naming.isReserved "delete" = true ∧ ¬ AllBindable (plan.exports file.path.dotted) := by
  have hresult : (Plan.ofModel deletions).toOption.map (fun plan =>
      (plan.fileSpaces, plan.exports "shop", plan.libraries)) =
      some (["shop"], [(.classType, "delete")], []) := by
    decide +kernel
  obtain ⟨plan, hplan⟩ := Except.exists_eq_ok (x := Plan.ofModel deletions) (by decide +kernel)
  rw [hplan] at hresult
  simp only [Except.toOption, Option.map_some, Option.some.injEq, Prod.mk.injEq] at hresult
  obtain ⟨hfileSpaces, hexports, hlibraries⟩ := hresult
  obtain ⟨o, file, source, ho, -, hcollects, hclosed, hdotted, hfiles⟩ :=
    compile_oneFile {} hplan hfileSpaces hlibraries
  rw [← hdotted] at hexports
  refine ⟨o, plan, file, source, ho, hplan, hcollects, hclosed, hfiles, hexports, by decide, ?_⟩
  rw [hexports]
  intro hall
  exact absurd (hall _ List.mem_cons_self) (by decide)

end SchemaTypes
