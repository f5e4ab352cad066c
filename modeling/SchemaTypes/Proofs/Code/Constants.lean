import SchemaTypes.Proofs.Code.Declared
import SchemaTypes.Proofs.Stub.Reading

/-!
# Reading declared constants

The constants that printed code declares are read off the code, with no look at the
declaration it was printed from.  The constant of an operation gives its name
(`Code.operationConstant?`), and the constant of an enum gives its name and the fields of its
object (`Code.enumConstant?`).  The class of a service gives what stands in it
(`Code.defaultClass?`).

Each declaration is read as what it is (`Declaration.code_operationConstants`,
`Declaration.code_enumConstants`, `Declaration.code_defaultClass`), since no other piece of
its code starts with the words of such a constant.
-/

namespace SchemaTypes

/-! ## Readers -/

/-- What stands between the first and the last words of a text. -/
def Text.between? (front back text : String) : Option String :=
  (Stub.expect front text.toList).bind fun rest =>
    (rest.dropSuffix? back.toList).map String.ofList

namespace Code

/-- The name that a piece of code exports, where it starts with the words before a name of
the sort and nothing but some words follows the name. -/
def exported? (sort : ExportSort) (back : String) (code : Code) : Option String :=
  Text.between? sort.keyword back code.opening

/-- The name of the constant of an operation. -/
def operationConstant? (code : Code) : Option String :=
  code.exported? .declaredConstant ": \x7b"

/-- The field of an object that a line gives.  Lines of documentation give none. -/
def field? : Code → Option String
  | .line text =>
      if text.toList.head? = some '/' ∨ text.toList.head? = some ' ' then none
      else Text.between? "" "," text
  | .block .. => none

/-- The name of the constant of an enum, with the fields of its object. -/
def enumConstant? : Code → Option (String × List String)
  | .line _ => none
  | .block opening body closing =>
      ((block opening body closing).exported? .constant " = \x7b").map fun name =>
        (name, body.filterMap field?)

/-- What stands in the class that is exported without a name. -/
def defaultClass? : Code → Option (List Code)
  | .line _ => none
  | .block opening body _ => if opening = "export default class \x7b" then some body else none

end Code

/-! ## Declarations -/

/-- The constant of an enum that a declaration introduces, with the literals by key. -/
def Declaration.enumConstant? : Declaration → Option (String × Table String)
  | .constants name _ members => some (name, EnumMember.literals members)
  | _ => none

/-- The constant of an operation that a declaration introduces. -/
def Declaration.operationConstant? : Declaration → Option String
  | .operation name .. => some name
  | _ => none

/-- The operations that the class of a service lists. -/
def Declaration.service? : Declaration → Option (List String)
  | .service operations => some operations
  | _ => none

/-- The field of an object for a key of an enum. -/
def enumField (entry : String × String) : String := Naming.propertyKey entry.1 ++ ": " ++ entry.2

/-! ## What is read -/

theorem Text.between?_eq_some_iff {front back text mid : String} :
    between? front back text = some mid ↔ text = front ++ mid ++ back := by
  simp only [between?, Stub.expect, Option.bind_eq_some_iff, Option.map_eq_some_iff,
    List.dropPrefix?_eq_some_iff, List.dropSuffix?_eq_some_iff, beq_iff_eq]
  constructor
  · rintro ⟨rest, ⟨_, htext, rfl⟩, middle, ⟨_, rfl, rfl⟩, rfl⟩
    rw [← String.toList_inj, htext]
    simp
  · rintro rfl
    exact ⟨mid.toList ++ back.toList, ⟨front.toList, by simp, rfl⟩, mid.toList,
      ⟨back.toList, rfl, rfl⟩, String.ofList_toList⟩

namespace Code

variable {code : Code} {codes : List Code} {sort : ExportSort} {back name : String}

theorem exported?_eq_some_iff :
    code.exported? sort back = some name ↔ code.opening = sort.keyword ++ name ++ back :=
  Text.between?_eq_some_iff

theorem keyword_of_exported? (h : code.exported? sort back = some name) :
    sort.keyword.toList <+: code.opening.toList := by
  rw [exported?_eq_some_iff.mp h, String.append_assoc, String.toList_append]
  exact List.prefix_append _ _

/-- A name that is read off a piece of code is exported by it. -/
theorem opening_of_exported? (h : code.exported? sort back = some name) {stop : String}
    (hstop : sort.opening name = sort.keyword ++ name ++ stop)
    (hback : stop.toList <+: back.toList) :
    (sort.opening name).toList <+: code.opening.toList := by
  obtain ⟨more, hmore⟩ := hback
  refine ⟨more, ?_⟩
  rw [exported?_eq_some_iff.mp h, hstop, String.toList_append, List.append_assoc, hmore,
    ← String.toList_append]

theorem opening_of_operationConstant? (h : code.operationConstant? = some name) :
    (ExportSort.declaredConstant.opening name).toList <+: code.opening.toList :=
  opening_of_exported? h rfl (by decide)

theorem exported?_of_enumConstant? {fields : List String}
    (h : code.enumConstant? = some (name, fields)) :
    code.exported? .constant " = \x7b" = some name := by
  cases code with
  | line text => cases h
  | block opening body closing =>
    obtain ⟨found, hfound, heq⟩ := Option.map_eq_some_iff.mp h
    cases heq
    exact hfound

theorem opening_of_enumConstant? {fields : List String}
    (h : code.enumConstant? = some (name, fields)) :
    (ExportSort.constant.opening name).toList <+: code.opening.toList :=
  opening_of_exported? (exported?_of_enumConstant? h) rfl (by decide)

/-- Quiet code exports nothing. -/
theorem exported?_of_quiet (h : Quiet code.opening) : code.exported? sort back = none := by
  cases hread : code.exported? sort back with
  | none => rfl
  | some name => exact absurd (keyword_of_exported? hread) (h sort)

theorem enumConstant?_of_exported? (h : code.exported? .constant " = \x7b" = none) :
    code.enumConstant? = none := by
  cases hread : code.enumConstant? with
  | none => rfl
  | some found =>
    rw [exported?_of_enumConstant? hread] at h
    cases h

end Code

/-- Where no name of a sort is exported, none is read. -/
theorem ExportsInTurn.exported?_eq_none {codes : List Code} {names : List (ExportSort × String)}
    {sort : ExportSort} (h : ExportsInTurn codes names) (hnone : ∀ name, (sort, name) ∉ names)
    {code : Code} (hcode : code ∈ codes) (back : String) : code.exported? sort back = none := by
  cases hread : code.exported? sort back with
  | none => rfl
  | some name =>
    obtain ⟨other, hother, -⟩ := h.exists_name hcode (Code.keyword_of_exported? hread)
    exact absurd hother (hnone other)

/-! ## The code of declarations -/

/-- A line that exports a name does not open the class that is exported without one. -/
theorem ExportSort.keyword_append_ne (sort : ExportSort) (rest : String) :
    sort.keyword ++ rest ≠ "export default class \x7b" := by
  intro heq
  have hprefix : sort.keyword.toList <+: "export default class \x7b".toList :=
    ⟨rest.toList, by rw [← heq, String.toList_append]⟩
  revert hprefix
  cases sort <;> decide

theorem Naming.propertyKey_head (name : String) :
    ∃ c rest, (propertyKey name).toList = c :: rest ∧ c ≠ '/' ∧ c ≠ ' ' := by
  rw [propertyKey]
  split
  · next hidentifier =>
    obtain ⟨c, rest, hname, hstart, -⟩ := exists_cons_of_isIdentifier hidentifier
    refine ⟨c, rest, hname, ?_, ?_⟩
    all_goals
      rintro rfl
      exact absurd hstart (by decide +kernel)
  · exact ⟨'\'', _, String.toList_ofList, by decide, by decide⟩

/-- Documentation is written in lines. -/
theorem docCode_line {doc : Option String} {code : Code} (h : code ∈ docCode doc) :
    ∃ text, code = .line text := by
  cases doc with
  | none => cases h
  | some doc =>
    simp only [docCode, Option.map_some, Option.getD_some, docComment, List.cons_append,
      List.mem_cons, List.mem_append, List.mem_map, List.not_mem_nil, or_false] at h
    rcases h with rfl | ⟨line, -, rfl⟩ | rfl <;> exact ⟨_, rfl⟩

theorem docCode_fields (doc : Option String) : (docCode doc).filterMap Code.field? = [] := by
  refine List.filterMap_eq_nil_iff.mpr fun code hcode => ?_
  have hhead := docCode_head doc code hcode
  obtain ⟨text, rfl⟩ := docCode_line hcode
  rw [Code.field?]
  split
  · rfl
  · next hother =>
    -- A line that ends with a comma has a first character.
    cases hread : Text.between? "" "," text with
    | none => rfl
    | some field =>
      refine absurd ?_ hother
      rw [Text.between?_eq_some_iff.mp hread] at hhead ⊢
      obtain ⟨c, hc⟩ := List.exists_cons_of_ne_nil (l := ("" ++ field ++ ",").toList) (by simp)
      obtain ⟨rest, hrest⟩ := hc
      rw [Code.opening, hrest] at hhead
      rw [hrest, List.head?_cons, Option.some.injEq, Option.some.injEq]
      exact hhead c rfl

namespace EnumMember

theorem code_fields (m : EnumMember) :
    m.code.filterMap Code.field? = [enumField (m.key, m.literal)] := by
  obtain ⟨c, rest, hkey, hslash, hblank⟩ := Naming.propertyKey_head m.key
  have hread : Code.field? (.line (Naming.propertyKey m.key ++ ": " ++ m.literal ++ ",")) =
      some (enumField (m.key, m.literal)) := by
    rw [Code.field?, if_neg]
    · exact Text.between?_eq_some_iff.mpr (by rw [enumField, String.empty_append])
    · simp [hkey, hslash, hblank]
  rw [code, List.filterMap_append, docCode_fields, List.nil_append, List.filterMap_cons_some hread,
    List.filterMap_nil]

theorem codes_fields (members : List EnumMember) :
    (members.flatMap code).filterMap Code.field? = (literals members).map enumField := by
  rw [List.filterMap_flatMap, literals, List.map_map, List.map_eq_flatMap]
  exact List.flatMap_congr fun m _ => m.code_fields

end EnumMember

namespace Declaration

theorem exported?_eq_none {d : Declaration} {sort : ExportSort}
    (h : ∀ name, (sort, name) ∉ d.exports) (c : Config) (back : String) :
    ∀ code ∈ d.code c, code.exported? sort back = none :=
  fun _ hcode => (d.code_exports c).exported?_eq_none h hcode back

/-- The constants of operations in the code of a declaration are those that it introduces. -/
theorem code_operationConstants (c : Config) (d : Declaration) :
    (d.code c).filterMap Code.operationConstant? = d.operationConstant?.toList := by
  cases d with
  | operation name doc signature =>
    have hdoc : (docCode doc).filterMap Code.operationConstant? = [] :=
      List.filterMap_eq_nil_iff.mpr fun code hcode =>
        Code.exported?_of_quiet (docCode_quiet doc code hcode)
    have hread : Code.operationConstant? (.block ("export declare const " ++ name ++ ": \x7b")
        (signature.code c) "\x7d;") = some name := Code.exported?_eq_some_iff.mpr rfl
    rw [code, List.filterMap_append, hdoc, List.nil_append, List.filterMap_cons_some hread]
    rfl
  | _ => exact List.filterMap_eq_nil_iff.mpr (exported?_eq_none (by simp [exports]) c _)

/-- The constants of enums in the code of a declaration are those that it introduces, with a
field for every key. -/
theorem code_enumConstants (c : Config) (d : Declaration) :
    (d.code c).filterMap Code.enumConstant? =
      d.enumConstant?.toList.map fun entry => (entry.1, entry.2.map enumField) := by
  cases d with
  | constants name doc members =>
    have hdoc : (docCode doc).filterMap Code.enumConstant? = [] :=
      List.filterMap_eq_nil_iff.mpr fun code hcode =>
        Code.enumConstant?_of_exported? (Code.exported?_of_quiet (docCode_quiet doc code hcode))
    have hname : Code.exported? .constant " = \x7b" (.block ("export const " ++ name ++ " = \x7b")
        (members.flatMap EnumMember.code) "\x7d as const;") = some name :=
      Code.exported?_eq_some_iff.mpr rfl
    have hread : Code.enumConstant? (.block ("export const " ++ name ++ " = \x7b")
        (members.flatMap EnumMember.code) "\x7d as const;") =
        some (name, (EnumMember.literals members).map enumField) := by
      rw [Code.enumConstant?, hname, EnumMember.codes_fields, Option.map_some]
    rw [code, List.filterMap_append, hdoc, List.nil_append, enumCode,
      List.filterMap_cons_some hread]
    rfl
  | _ =>
    exact List.filterMap_eq_nil_iff.mpr fun code hcode =>
      Code.enumConstant?_of_exported? (exported?_eq_none (by simp [exports]) c _ code hcode)

/-- The class that is exported without a name is that of a service, with a member for every
operation. -/
theorem code_defaultClass (c : Config) (d : Declaration) :
    (d.code c).filterMap Code.defaultClass? =
      d.service?.toList.map fun operations => operations.map serviceMember := by
  have hdoc : ∀ doc, (docCode doc).filterMap Code.defaultClass? = [] := fun doc =>
    List.filterMap_eq_nil_iff.mpr fun code hcode => by
      obtain ⟨text, rfl⟩ := docCode_line hcode
      rfl
  have hfunction : ∀ rest, "export function " ++ rest ≠ "export default class \x7b" :=
    ExportSort.function.keyword_append_ne
  have hclass : ∀ rest, "export class " ++ rest ≠ "export default class \x7b" :=
    ExportSort.classType.keyword_append_ne
  have hconst : ∀ rest, "export const " ++ rest ≠ "export default class \x7b" :=
    ExportSort.constant.keyword_append_ne
  have hdeclared : ∀ rest, "export declare const " ++ rest ≠ "export default class \x7b" :=
    ExportSort.declaredConstant.keyword_append_ne
  cases d with
  | service operations => rfl
  | typeAlias name doc type => simp [code, service?, hdoc, Code.defaultClass?]
  | aspect a =>
    simp [code, Aspect.code, service?, hdoc, Code.defaultClass?, String.append_assoc, hfunction]
  | singularClass singular doc full drafts =>
    cases drafts <;>
      simp [code, singularClassCode, defineProperty, service?, hdoc, Code.defaultClass?,
        String.append_assoc, hclass]
  | pluralClass plural singular full drafts =>
    simp [code, pluralClassCode, defineProperty, service?, Code.defaultClass?,
      String.append_assoc, hclass]
  | constants name doc members =>
    simp [code, enumCode, service?, hdoc, Code.defaultClass?, String.append_assoc, hconst]
  | operation name doc signature =>
    simp [code, service?, hdoc, Code.defaultClass?, String.append_assoc, hdeclared]
  | event name doc full properties =>
    simp [code, eventCode, defineProperty, service?, hdoc, Code.defaultClass?,
      String.append_assoc, hclass]

end Declaration

end SchemaTypes
