import SchemaTypes.Naming.Inflection
import Mathlib.Data.List.TakeWhile

/-!
# Derived names

`Naming.derive` gives a name for one and a name for many.  Where the model gives a name, its
last word is taken (`Naming.IsLastWord`), and where a name would be empty, the plain name.  The
two names that come out are never equal, are empty only if the plain name is, and have a dot
only if the plain name has one (`Naming.derive_usable`).

What had to be mended is reported in a fixed order, and nothing else is: the issues are some of
`NamingIssue.all`, namely those that arise.
-/

namespace SchemaTypes.Naming

/-! ## The last word of a name -/

/-- A word stands after the last dot of a name, or it is a name without a dot. -/
inductive IsLastWord : List Char → List Char → Prop
  | whole {word : List Char} : '.' ∉ word → IsLastWord word word
  | after {before word : List Char} : '.' ∉ word → IsLastWord (before ++ '.' :: word) word

theorem ne_dot_of_notMem {word : List Char} (h : '.' ∉ word) :
    ∀ c ∈ word.reverse, decide (c ≠ '.') = true := by
  intro c hc
  rw [decide_eq_true_eq]
  rintro rfl
  exact h (List.mem_reverse.mp hc)

theorem splitLastDot_of_notMem {name : List Char} (h : '.' ∉ name) :
    splitLastDot name = ([], name) := by
  have hall := ne_dot_of_notMem h
  rw [splitLastDot, List.dropWhile_eq_nil_iff.mpr hall, List.takeWhile_eq_self_iff.mpr hall,
    List.reverse_nil, List.reverse_reverse]

theorem splitLastDot_after {before word : List Char} (h : '.' ∉ word) :
    splitLastDot (before ++ '.' :: word) = (before ++ ['.'], word) := by
  have hall := ne_dot_of_notMem h
  have hreverse : (before ++ '.' :: word).reverse = word.reverse ++ '.' :: before.reverse := by simp
  rw [splitLastDot, hreverse, List.dropWhile_append_of_pos hall, List.takeWhile_append_of_pos hall]
  simp

theorem isLastWord_iff {name word : List Char} :
    IsLastWord name word ↔ word = (splitLastDot name).2 := by
  constructor
  · rintro (hword | hword)
    · rw [splitLastDot_of_notMem hword]
    · rw [splitLastDot_after hword]
  · rintro rfl
    by_cases hdot : '.' ∈ name
    · obtain ⟨after, before, hreverse, hword⟩ :=
        List.eq_append_cons_of_mem (List.mem_reverse.mpr hdot)
      have hname : name = before.reverse ++ '.' :: after.reverse := by
        rw [← List.reverse_reverse name, hreverse]
        simp
      have hword : '.' ∉ after.reverse := fun h => hword (List.mem_reverse.mp h)
      rw [hname, splitLastDot_after hword]
      exact .after hword
    · rw [splitLastDot_of_notMem hdot]
      exact .whole hdot

theorem IsLastWord.dot_notMem {name word : List Char} (h : IsLastWord name word) : '.' ∉ word := by
  cases h <;> assumption

/-! ## The names a definition asks for -/

/-- A definition asks for a name: for the last word of the one that the model gives, or for one
of its own. -/
inductive AsksFor (own : String) : Option String → String → Prop
  | given {given word : String} : IsLastWord given.toList word.toList →
      AsksFor own (some given) word
  | own : AsksFor own none own

theorem asksFor_iff {own name : String} {given? : Option String} :
    AsksFor own given? name ↔ name = (given?.map lastSegment).getD own := by
  cases given? with
  | none =>
    refine ⟨fun h => ?_, fun h => ?_⟩
    · cases h
      rfl
    · rw [h]
      exact .own
  | some given =>
    have hword : IsLastWord given.toList name.toList ↔ name = lastSegment given := by
      rw [isLastWord_iff, lastSegment, ← String.toList_inj, String.toList_ofList]
    refine ⟨fun h => ?_, fun h => .given (hword.mpr h)⟩
    cases h with
    | given h => exact hword.mp h

theorem AsksFor.dot_notMem {own name : String} {given? : Option String}
    (h : AsksFor own given? name) (hown : '.' ∉ own.toList) : '.' ∉ name.toList := by
  cases h with
  | given h => exact h.dot_notMem
  | own => exact hown

theorem mem_singularWord {word : List Char} {c : Char} (h : c ∈ singularWord word) :
    c ∈ word ∨ c = 'y' := by
  simp only [singularWord, dropEnd] at h
  split at h
  · exact .inl h
  split at h
  · exact .inl (List.mem_of_mem_take h)
  split at h
  · exact .inl (List.mem_of_mem_take h)
  split at h
  · rcases List.mem_append.mp h with h | h
    · exact .inl (List.mem_of_mem_take h)
    · exact .inr (List.mem_singleton.mp h)
  split at h
  · exact .inl (List.mem_of_mem_take h)
  · exact .inl h

theorem dot_notMem_singularOf {plain : String} (h : '.' ∉ plain.toList) :
    '.' ∉ (singularOf plain).toList := by
  rw [singularOf, onLastSegment, splitLastDot_of_notMem h, String.toList_ofList, List.nil_append]
  intro hdot
  rcases mem_singularWord hdot with hdot | hdot
  · exact h hdot
  · cases hdot

/-! ## The names that come out -/

/-- A name, or the plain name if there is none. -/
def orPlain (plain wanted : String) : String := if wanted = "" then plain else wanted

theorem orPlain_ne_empty {plain : String} (h : plain ≠ "") (wanted : String) :
    orPlain plain wanted ≠ "" := by
  rw [orPlain]
  split <;> assumption

theorem dot_notMem_orPlain {plain wanted : String} (hplain : '.' ∉ plain.toList)
    (hwanted : '.' ∉ wanted.toList) : '.' ∉ (orPlain plain wanted).toList := by
  rw [orPlain]
  split <;> assumption

/-- The plural with a suffix if it would be the singular. -/
def keptApart (singular plural : String) : String :=
  if singular = plural then plural ++ pluralSuffix else plural

theorem ne_keptApart (singular plural : String) : singular ≠ keptApart singular plural := by
  rw [keptApart]
  split
  · next heq =>
    intro hsuffix
    have hlength := congrArg String.length (heq.symm.trans hsuffix)
    rw [String.length_append] at hlength
    exact absurd hlength (by simp [pluralSuffix])
  · assumption

theorem keptApart_ne_empty {singular plural : String} (h : plural ≠ "") :
    keptApart singular plural ≠ "" := by
  rw [keptApart]
  split
  · simp [pluralSuffix]
  · exact h

theorem dot_notMem_keptApart {singular plural : String} (h : '.' ∉ plural.toList) :
    '.' ∉ (keptApart singular plural).toList := by
  rw [keptApart]
  split
  · simpa [pluralSuffix] using h
  · exact h

theorem derive_eq (plain : String) (singular? plural? : Option String) :
    ∃ s p, s = (singular?.map lastSegment).getD (singularOf plain) ∧
      p = (plural?.map lastSegment).getD plain ∧
      derive plain singular? plural? =
        (⟨orPlain plain s, orPlain plain s, keptApart (orPlain plain s) (orPlain plain p)⟩,
          (if p = "" then [.emptyPlural] else []) ++ (if s = "" then [.emptySingular] else []) ++
            (if orPlain plain s = orPlain plain p then [.singularEqualsPlural] else [])) :=
  ⟨_, _, rfl, rfl, rfl⟩

theorem derive_singular_ne_plural (plain : String) (singular? plural? : Option String) :
    (derive plain singular? plural?).1.singular ≠ (derive plain singular? plural?).1.plural :=
  ne_keptApart _ _

/-- The issues in the order in which they are reported. -/
def NamingIssue.all : List NamingIssue := [.emptyPlural, .emptySingular, .singularEqualsPlural]

/-- Something has to be mended about the singular and the plural that a definition asks for. -/
def NamingIssue.Arises (plain singular plural : String) : NamingIssue → Prop
  | .emptyPlural => plural = ""
  | .emptySingular => singular = ""
  | .singularEqualsPlural => orPlain plain singular = orPlain plain plural

/-- The names of a definition with a plain name can be used. -/
structure Inflection.Usable (plain : String) (names : Inflection) : Prop where
  apart : names.singular ≠ names.plural
  type : names.typeName = names.singular
  nonempty : plain ≠ "" → names.singular ≠ "" ∧ names.plural ≠ ""
  dotless : '.' ∉ plain.toList → '.' ∉ names.singular.toList ∧ '.' ∉ names.plural.toList

/-- Derived names can be used, whatever the model gives.  What is reported are the issues that
arise about the one singular and the one plural that the definition asks for. -/
theorem derive_usable (plain : String) (singular? plural? : Option String) :
    (derive plain singular? plural?).1.Usable plain ∧
      ∃ s p, (∀ name, AsksFor (singularOf plain) singular? name ↔ name = s) ∧
        (∀ name, AsksFor plain plural? name ↔ name = p) ∧
        (derive plain singular? plural?).2.Sublist NamingIssue.all ∧
        ∀ issue, issue ∈ (derive plain singular? plural?).2 ↔ issue.Arises plain s p := by
  obtain ⟨s, p, hs, hp, hderive⟩ := derive_eq plain singular? plural?
  have hsingular : ∀ name, AsksFor (singularOf plain) singular? name ↔ name = s := by
    rw [hs]
    exact fun _ => asksFor_iff
  have hplural : ∀ name, AsksFor plain plural? name ↔ name = p := by
    rw [hp]
    exact fun _ => asksFor_iff
  rw [hderive]
  refine ⟨?_, s, p, hsingular, hplural, ?_, fun issue => ?_⟩
  · exact {
      apart := ne_keptApart _ _
      type := rfl
      nonempty := fun hplain =>
        ⟨orPlain_ne_empty hplain s, keptApart_ne_empty (orPlain_ne_empty hplain p)⟩
      dotless := fun hplain =>
        ⟨dot_notMem_orPlain hplain
            (((hsingular s).mpr rfl).dot_notMem (dot_notMem_singularOf hplain)),
          dot_notMem_keptApart (dot_notMem_orPlain hplain
            (((hplural p).mpr rfl).dot_notMem hplain))⟩ }
  · have hsome : ∀ (c : Prop) [Decidable c] (issue : NamingIssue),
        (if c then [issue] else []).Sublist [issue] := by
      intro c _ issue
      split
      · exact List.Sublist.refl _
      · exact List.nil_sublist _
    exact ((hsome _ _).append (hsome _ _)).append (hsome _ _)
  · cases issue <;> simp [NamingIssue.Arises]

/-- The rules leave nothing of this name, and the plain name that takes its place is the plural
as well. -/
example : derive "s" none none = (⟨"s", "s", "s_"⟩, [.emptySingular, .singularEqualsPlural]) := by
  decide

end SchemaTypes.Naming
