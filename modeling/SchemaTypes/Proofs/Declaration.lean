import SchemaTypes.Plan.Emission

/-!
# Exported names are written

The code of a declaration exports its names in turn (`Declaration.code_exports`).  So for
every name that the declaration exports there is a line in its code that exports the name
(`Declaration.exports_code`), and the code exports no other names
(`Declaration.exports_of_keyword`).
-/

namespace SchemaTypes

/-- What a line that exports a name starts with. -/
def ExportSort.opening (sort : ExportSort) (name : String) : String :=
  match sort with
  | .classType => "export class " ++ name ++ " "
  | .typeAlias => "export type " ++ name ++ " = "
  | .constant => "export const " ++ name ++ " = "
  | .declaredConstant => "export declare const " ++ name ++ ": "
  | .function => "export function " ++ name ++ "<"

namespace Code

/-- The first line of a piece of code, without indentation. -/
def opening : Code → String
  | .line text => text
  | .block opening _ _ => opening

theorem opening_mem_linesAt (depth : Nat) (code : Code) :
    indented depth code.opening ∈ linesAt depth code := by
  cases code <;> simp [opening, linesAt]

theorem mem_linesAllAt {depth : Nat} {codes : List Code} {line : String} :
    line ∈ linesAllAt depth codes ↔ ∃ code ∈ codes, line ∈ linesAt depth code := by
  induction codes with
  | nil => simp [linesAllAt]
  | cons code rest ih => simp [linesAllAt, ih]

theorem opening_mem_lines {codes : List Code} {code : Code} (h : code ∈ codes) :
    code.opening ∈ lines codes := by
  refine mem_linesAllAt.mpr ⟨code, h, ?_⟩
  have hmem := opening_mem_linesAt 0 code
  rwa [indented_zero] at hmem

end Code

/-- A text that goes on after a name as it has to. -/
theorem startsWith {text before name stop : String} (long rest : String)
    (hlong : stop.toList <+: long.toList) (htext : text = before ++ name ++ long ++ rest) :
    (before ++ name ++ stop).toList <+: text.toList := by
  obtain ⟨more, hmore⟩ := hlong
  refine ⟨more ++ rest.toList, ?_⟩
  simp only [htext, String.toList_append, ← hmore, List.append_assoc]

/-! ## Words that export -/

namespace ExportSort

/-- The words that stand before a name that is exported. -/
def keyword : ExportSort → String
  | .classType => "export class "
  | .typeAlias => "export type "
  | .constant => "export const "
  | .declaredConstant => "export declare const "
  | .function => "export function "

theorem opening_eq (sort : ExportSort) (name : String) :
    ∃ stop, sort.opening name = sort.keyword ++ name ++ stop := by
  cases sort <;> exact ⟨_, rfl⟩

theorem keyword_opening (sort : ExportSort) (name : String) :
    sort.keyword.toList <+: (sort.opening name).toList := by
  obtain ⟨stop, hstop⟩ := sort.opening_eq name
  rw [hstop, String.append_assoc, String.toList_append]
  exact List.prefix_append _ _

/-- A line exports names of one sort. -/
theorem eq_of_keyword {sort sort' : ExportSort} {text : List Char}
    (h : sort.keyword.toList <+: text) (h' : sort'.keyword.toList <+: text) : sort = sort' := by
  have hor := List.prefix_or_prefix_of_prefix h h'
  revert hor
  cases sort <;> cases sort' <;> decide

end ExportSort

/-- The text does not start with words before a name that is exported. -/
def Quiet (text : String) : Prop := ∀ sort : ExportSort, ¬ sort.keyword.toList <+: text.toList

theorem Quiet.of_head {text : String} (h : text.toList.head? ≠ some 'e') : Quiet text := by
  intro sort hprefix
  have hhead : sort.keyword.toList.head? = some 'e' := by cases sort <;> rfl
  rw [List.head?_eq_some_iff] at hhead
  obtain ⟨rest, hrest⟩ := hhead
  obtain ⟨more, hmore⟩ := hprefix
  rw [hrest] at hmore
  exact h (hmore ▸ rfl)

theorem Text.trimEnd_prefix (s : String) : (Text.trimEnd s).toList <+: s.toList := by
  have hsuffix := List.reverse_prefix.mpr
    (List.dropWhile_suffix Text.isBlank (l := s.toList.reverse))
  rw [List.reverse_reverse] at hsuffix
  rwa [Text.trimEnd, String.toList_ofList]

/-- A line of documentation starts like a comment. -/
theorem docCode_head (doc : Option String) :
    ∀ code ∈ docCode doc, ∀ c ∈ code.opening.toList.head?, c = '/' ∨ c = ' ' := by
  intro code hcode c hc
  cases doc with
  | none => cases hcode
  | some doc =>
    simp only [docCode, Option.map_some, Option.getD_some, docComment, List.cons_append,
      List.mem_cons, List.mem_append, List.mem_map, List.not_mem_nil, or_false] at hcode
    rcases hcode with rfl | ⟨line, -, rfl⟩ | rfl
    · left
      cases hc
      rfl
    · right
      obtain ⟨rest, hrest⟩ := List.head?_eq_some_iff.mp hc
      have hprefix := Text.trimEnd_prefix (" * " ++ String.ofList (escapeCommentEnd line.toList))
      have hline : (Text.trimEnd (" * " ++ String.ofList (escapeCommentEnd line.toList))).toList =
        c :: rest := hrest
      rw [hline, String.toList_append] at hprefix
      exact (List.cons_prefix_cons.mp hprefix).1
    · right
      cases hc
      rfl

theorem docCode_quiet (doc : Option String) : ∀ code ∈ docCode doc, Quiet code.opening := by
  intro code hcode
  refine .of_head fun hhead => ?_
  rcases docCode_head doc code hcode 'e' hhead with h | h <;> cases h

theorem defineProperty_quiet (class_ property value : String) :
    Quiet (defineProperty class_ property value).opening :=
  .of_head (by simp [defineProperty, Code.opening])

/-! ## Exports in turn -/

/-- Code exports names in turn: for each of them there is a piece that starts as its export
does, and the other pieces are quiet. -/
inductive ExportsInTurn : List Code → List (ExportSort × String) → Prop
  | nil : ExportsInTurn [] []
  | quiet {code : Code} {codes : List Code} {names : List (ExportSort × String)} :
      Quiet code.opening → ExportsInTurn codes names → ExportsInTurn (code :: codes) names
  | opens {code : Code} {codes : List Code} {sort : ExportSort} {name : String}
      {names : List (ExportSort × String)} :
      (sort.opening name).toList <+: code.opening.toList → ExportsInTurn codes names →
        ExportsInTurn (code :: codes) ((sort, name) :: names)

namespace ExportsInTurn

variable {codes more : List Code} {names : List (ExportSort × String)} {sort : ExportSort}

theorem single {code : Code} {name : String}
    (h : (sort.opening name).toList <+: code.opening.toList) :
    ExportsInTurn [code] [(sort, name)] := .opens h .nil

theorem after (hquiet : ∀ code ∈ more, Quiet code.opening) (h : ExportsInTurn codes names) :
    ExportsInTurn (more ++ codes) names := by
  induction more with
  | nil => exact h
  | cons code rest ih =>
    obtain ⟨hcode, hrest⟩ := List.forall_mem_cons.mp hquiet
    exact .quiet hcode (ih hrest)

theorem documented (doc : Option String) (h : ExportsInTurn codes names) :
    ExportsInTurn (docCode doc ++ codes) names := .after (docCode_quiet doc) h

/-- There is a piece of code for every name. -/
theorem exists_opening (h : ExportsInTurn codes names) {name : String}
    (hname : (sort, name) ∈ names) :
    ∃ code ∈ codes, (sort.opening name).toList <+: code.opening.toList := by
  induction h with
  | nil => cases hname
  | quiet _ _ ih =>
    obtain ⟨code, hcode, hopening⟩ := ih hname
    exact ⟨code, List.mem_cons_of_mem _ hcode, hopening⟩
  | @opens code _ _ _ _ hopening _ ih =>
    rcases List.mem_cons.mp hname with heq | hname
    · cases heq
      exact ⟨code, List.mem_cons_self, hopening⟩
    · obtain ⟨other, hother, hopening⟩ := ih hname
      exact ⟨other, List.mem_cons_of_mem _ hother, hopening⟩

/-- A name follows wherever a piece of code starts with words that export. -/
theorem exists_name (h : ExportsInTurn codes names) {code : Code} (hcode : code ∈ codes)
    (hkeyword : sort.keyword.toList <+: code.opening.toList) :
    ∃ name, (sort, name) ∈ names ∧ (sort.opening name).toList <+: code.opening.toList := by
  induction h with
  | nil => cases hcode
  | quiet hquiet _ ih =>
    rcases List.mem_cons.mp hcode with rfl | hcode
    · exact absurd hkeyword (hquiet sort)
    · exact ih hcode
  | @opens _ _ sort' name _ hopening _ ih =>
    rcases List.mem_cons.mp hcode with rfl | hcode
    · obtain rfl := ExportSort.eq_of_keyword hkeyword ((sort'.keyword_opening name).trans hopening)
      exact ⟨name, List.mem_cons_self, hopening⟩
    · obtain ⟨other, hother, hopening⟩ := ih hcode
      exact ⟨other, List.mem_cons_of_mem _ hother, hopening⟩

end ExportsInTurn

/-! ## The code of declarations -/

namespace Declaration

/-- The code of a declaration exports its names in turn. -/
theorem code_exports (c : Config) (d : Declaration) : ExportsInTurn (d.code c) d.exports := by
  cases d with
  | aspect a =>
    exact .documented _ (.single (startsWith Aspect.signatureText " \x7b" (by decide) rfl))
  | singularClass singular doc full drafts =>
    refine .documented _ (.opens ?_ (.quiet (defineProperty_quiet _ _ _)
      (.quiet (defineProperty_quiet _ _ _) .nil)))
    cases drafts with
    | false =>
      exact startsWith " extends " (aspectName singular ++ "(__.Entity) \x7b" ++ "\x7d")
        (by decide) (by simp only [String.append_assoc]; rfl)
    | true =>
      exact startsWith " extends " (aspectName singular ++ "(__.Entity) \x7b") (by decide)
        (by simp only [String.append_assoc]; rfl)
  | pluralClass plural singular full drafts =>
    exact .opens (startsWith " extends Array<" (singular ++ "> \x7b") (by decide)
      (by simp only [String.append_assoc]; rfl)) (.quiet (defineProperty_quiet _ _ _) .nil)
  | constants constant doc members =>
    refine .documented _ (.opens ?_ (.single ?_))
    · exact startsWith " = \x7b" "" (by decide) String.append_empty.symm
    · exact startsWith " = " (Literal.union (EnumMember.literals members) ++ ";") (by decide)
        (by simp only [String.append_assoc]; rfl)
  | typeAlias given doc type =>
    exact .documented _ (.single (startsWith " = " (type.text c ++ ";") (by decide)
      (by simp only [String.append_assoc]; rfl)))
  | operation operation doc signature =>
    exact .documented _ (.single (startsWith ": \x7b" "" (by decide) String.append_empty.symm))
  | event event doc full properties =>
    exact .documented _ (.opens (startsWith " \x7b" "" (by decide) String.append_empty.symm)
      (.quiet (defineProperty_quiet _ _ _) .nil))
  | service operations =>
    have hquiet : Quiet "export default class \x7b" := by
      intro sort
      cases sort <;> decide
    exact .quiet hquiet .nil

theorem exports_code (c : Config) {d : Declaration} {sort : ExportSort} {name : String}
    (h : (sort, name) ∈ d.exports) :
    ∃ line ∈ Code.lines (d.code c), (sort.opening name).toList <+: line.toList := by
  obtain ⟨code, hcode, hstarts⟩ := (d.code_exports c).exists_opening h
  exact ⟨_, Code.opening_mem_lines hcode, hstarts⟩

/-- Where a piece of the code of a declaration starts with the words before a name that is
exported, an exported name follows. -/
theorem exports_of_keyword (c : Config) {d : Declaration} {code : Code} (hcode : code ∈ d.code c)
    {sort : ExportSort} (h : sort.keyword.toList <+: code.opening.toList) :
    ∃ name, (sort, name) ∈ d.exports ∧ (sort.opening name).toList <+: code.opening.toList :=
  (d.code_exports c).exists_name hcode h

end Declaration

end SchemaTypes
