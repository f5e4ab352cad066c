import SchemaTypes.Proofs.Names.Variables

/-!
# Sanitized names

`Naming.sanitize` gives a name of letters, digits and marks that is no reserved word.  It is an
identifier unless the name starts with a digit of a script other than the Latin one, and a name
that can be bound stays as it is (`Naming.sanitize_identifier`).

A digit in front is told from a letter only in the Latin script.  So a name of letters, digits
and marks that starts with another digit stays as it is too, although it is no identifier
(`Naming.sanitize_arabicThree`).
-/

namespace SchemaTypes.Naming

variable {name : String}

theorem isReserved_sanitize (name : String) : isReserved (sanitize name) = false := by
  rw [sanitize_eq rfl]
  split
  · exact not_isReserved_mark _
  · next hkept =>
    rw [Bool.or_eq_true, not_or] at hkept
    exact eq_false_of_ne_true hkept.2

theorem all_isIdentifierPart_sanitize (name : String) :
    (sanitize name).toList.all isIdentifierPart = true := by
  obtain ⟨safe, hsafe⟩ : ∃ safe, String.ofList (name.toList.map safeChar) = safe := ⟨_, rfl⟩
  have hparts : safe.toList.all isIdentifierPart = true := by
    rw [← hsafe, String.toList_ofList]
    simp [isIdentifierPart_safeChar]
  rw [sanitize_eq hsafe]
  split
  · rw [String.toList_append, List.all_append, hparts]
    rfl
  · exact hparts

/-- A name of letters, digits and marks that starts with a digit of another script stays as
it is. -/
theorem sanitize_of_not_startsSafely (hstart : startsSafely name = false)
    (hparts : ∀ c ∈ name.toList, isIdentifierPart c = true) : sanitize name = name := by
  cases hname : name.toList with
  | nil =>
    rw [startsSafely, hname] at hstart
    cases hstart
  | cons c rest =>
    rw [startsSafely_of_cons hname] at hstart
    simp only [Bool.or_eq_false_iff] at hstart
    refine sanitize_of_parts hname hparts hstart.2 (eq_false_of_ne_true fun hreserved => ?_)
    have hletter := isAlphabetic_of_isReserved hreserved
    rw [hname] at hletter
    cases hstart.1.2.symm.trans hletter

/-- A name stays as it is if it can be bound, or if it starts with a digit of another script
and there is nothing else to be replaced. -/
theorem sanitize_eq_self_iff :
    sanitize name = name ↔ isBindable name = true ∨
      startsSafely name = false ∧ ∀ c ∈ name.toList, isIdentifierPart c = true := by
  constructor
  · intro hsame
    have hparts := all_isIdentifierPart_sanitize name
    have hbindable := isBindable_sanitize name
    rw [hsame] at hparts hbindable
    cases hstart : startsSafely name with
    | true => exact .inl (hbindable.trans hstart)
    | false => exact .inr ⟨rfl, List.all_eq_true.mp hparts⟩
  · rintro (hbindable | ⟨hstart, hparts⟩)
    · exact sanitize_of_isBindable hbindable
    · exact sanitize_of_not_startsSafely hstart hparts

/-- A sanitized name is no reserved word, and it is an identifier exactly if the name does not
start with a digit of a script other than the Latin one.  The name itself is what comes out
if it is an identifier and no reserved word, and otherwise only if it starts with such a digit. -/
theorem sanitize_identifier (name : String) :
    isReserved (sanitize name) = false ∧
      (isIdentifier (sanitize name) = true ↔ startsSafely name = true) ∧
      (sanitize name = name ↔ isIdentifier name = true ∧ isReserved name = false ∨
        startsSafely name = false ∧ ∀ c ∈ name.toList, isIdentifierPart c = true) := by
  have hreserved := isReserved_sanitize name
  have hbindable := isBindable_sanitize name
  rw [isBindable, hreserved, Bool.not_false, Bool.and_true] at hbindable
  refine ⟨hreserved, by rw [hbindable], ?_⟩
  rw [sanitize_eq_self_iff, isBindable, Bool.and_eq_true, Bool.not_eq_true']

/-- The Arabic digit three stays as it is and is no identifier. -/
theorem sanitize_arabicThree :
    sanitize "\u0663" = "\u0663" ∧ isIdentifier (sanitize "\u0663") = false := by
  decide +kernel

end SchemaTypes.Naming
