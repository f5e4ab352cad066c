import SchemaTypes.Proofs.Names.Endings
import SchemaTypes.Proofs.Names.Inflection

/-!
# The singular of a plural

The singular of the plural of a name is the name, unless its last word is `Naming.Irregular`
(`Naming.singularOf_pluralOf_eq_self_iff`).

Plural and singular follow one ordered list of rules each.  Which rule has made a plural is known
from the word, so there is one lemma for each of them, and it says when the singular of what the
rule makes is the word again:

* a word that is taken for a plural stays as it is (`Naming.singularWord_eq_self_iff`);
* `ies` takes the place of a `y` (`Naming.singularWord_ies_eq_self_iff`);
* `es` is attached to a hissing end (`Naming.singularWord_append_es_eq_self_iff`);
* `s` is attached to all other words (`Naming.singularWord_append_s_eq_self_iff`).

The three attached endings end with `s`, so they all rest on `Naming.singularWord_append_s`,
which reads the rules of the singular as rules about what stands before this `s`.
-/

namespace SchemaTypes.Naming

variable {word small stem tail : List Char}

/-! ## The singular of a word with an ending -/

theorem singularWord_append_s (word : List Char) :
    singularWord (word ++ ['s']) =
      if endsWithAny ["specie", "new", "es"] word then word ++ ['s']
      else if endsWithAny ["ee"] word then word
      else if endsWithAny ["se", "ze"] word then dropEnd 1 word
      else if endsWithAny ["ie"] word && consonantBefore 2 word then dropEnd 2 word ++ ['y']
      else word := by
  have hends (stems : List String) :
      endsWithAny (stems.map (· ++ "s")) (word ++ ['s']) = endsWithAny stems word :=
    endsWithAny_append rfl stems word
  have hkept : endsWithAny ["species", "news", "ess"] (word ++ ['s']) =
      endsWithAny ["specie", "new", "es"] word := hends ["specie", "new", "es"]
  have hees : endsWithAny ["ees"] (word ++ ['s']) = endsWithAny ["ee"] word := hends ["ee"]
  have hses : endsWithAny ["ses", "zes"] (word ++ ['s']) = endsWithAny ["se", "ze"] word :=
    hends ["se", "ze"]
  have hies : endsWithAny ["ies"] (word ++ ['s']) = endsWithAny ["ie"] word := hends ["ie"]
  have hs : endsWithAny ["s"] (word ++ ['s']) = true := endsWithAny_attached rfl word
  have hdrop (n : Nat) : dropEnd (n + 1) (word ++ ['s']) = dropEnd n word :=
    dropEnd_append n word ['s']
  have hbefore : consonantBefore 3 (word ++ ['s']) = consonantBefore 2 word :=
    consonantBefore_append 2 word ['s']
  rw [singularWord, hkept, hees, hses, hies, endsWithAny_of_refines hs ["s", "_"] (by decide),
    hbefore, hdrop, hdrop, hdrop, dropEnd_zero, if_pos rfl]

theorem dropEnd_one_ne_self (h : 0 < word.length) : dropEnd 1 word ≠ word :=
  ne_of_apply_ne List.length (by rw [length_dropEnd]; omega)

theorem singularWord_append_s_eq_self_iff (word : List Char) :
    singularWord (word ++ ['s']) = word ↔
      endsWithAny ["specie", "new", "es"] word = false ∧ endsWithAny ["se", "ze"] word = false ∧
        (endsWithAny ["ie"] word && consonantBefore 2 word) = false := by
  rw [singularWord_append_s]
  split
  · next hkept => simp [hkept]
  split
  · next hkept hee =>
    simp [hkept, endsWithAny_of_apart hee ["se", "ze"] (by decide),
      endsWithAny_of_apart hee ["ie"] (by decide)]
  split
  · next hse => simp [hse, dropEnd_one_ne_self (length_pos_of_endsWithAny hse rfl)]
  split
  · next hie =>
    have hlt := lt_length_of_consonantBefore (Bool.and_eq_true_iff.mp hie).2
    have hne : dropEnd 2 word ++ ['y'] ≠ word := by
      refine ne_of_apply_ne List.length ?_
      rw [List.length_append, length_dropEnd, List.length_singleton]
      omega
    simp [hie, hne]
  · next hkept _ hse hie => simp [hkept, hse, hie]

/-- An attached `es` goes as a whole behind `s` and `z`, and loses its `s` only behind `x`, `ch`
and `sh`. -/
theorem singularWord_append_es_eq_self_iff
    (h : endsWithAny ["s", "x", "z", "ch", "sh"] word = true) :
    singularWord (word ++ ['e', 's']) = word ↔ endsWithAny ["x", "ch", "sh"] word = false := by
  have he : fold ['e'] = "e".toList := rfl
  rw [List.append_cons, singularWord_append_s]
  cases hhiss : endsWithAny ["x", "ch", "sh"] word with
  | false =>
    have hse : endsWithAny ["se", "ze"] (word ++ ['e']) = true :=
      (endsWithAny_append he ["s", "z"] word).trans
        (endsWithAny_rest h hhiss ["s", "z"] (by decide))
    have hdrop : dropEnd 1 (word ++ ['e']) = word :=
      (dropEnd_append 0 word ['e']).trans (dropEnd_zero word)
    simp [endsWithAny_of_apart hse ["specie", "new", "es"] (by decide),
      endsWithAny_of_apart hse ["ee"] (by decide), hse, hdrop]
  | true =>
    have hxe : endsWithAny ["xe", "che", "she"] (word ++ ['e']) = true :=
      (endsWithAny_append he ["x", "ch", "sh"] word).trans hhiss
    simp [endsWithAny_of_apart hxe ["specie", "new", "es"] (by decide),
      endsWithAny_of_apart hxe ["ee"] (by decide),
      endsWithAny_of_apart hxe ["se", "ze"] (by decide),
      endsWithAny_of_apart hxe ["ie"] (by decide)]

theorem singularWord_append_ies (h : consonantBefore 0 stem = true) :
    singularWord (stem ++ ['i', 'e', 's']) =
      if endsWithAny ["spec"] stem then stem ++ ['i', 'e', 's'] else stem ++ ['y'] := by
  have hfold : fold ['i', 'e'] = "ie".toList := rfl
  have hie : endsWithAny ["ie"] (stem ++ ['i', 'e']) = true := endsWithAny_attached hfold stem
  have hkept : endsWithAny ["specie", "new", "es"] (stem ++ ['i', 'e']) =
      endsWithAny ["spec"] stem := by
    rw [endsWithAny_cons_cons, endsWithAny_of_apart hie ["new", "es"] (by decide), Bool.or_false]
    exact endsWithAny_append hfold ["spec"] stem
  have hbefore : consonantBefore 2 (stem ++ ['i', 'e']) = true :=
    (consonantBefore_append 0 stem ['i', 'e']).trans h
  have hdrop : dropEnd 2 (stem ++ ['i', 'e']) = stem :=
    (dropEnd_append 0 stem ['i', 'e']).trans (dropEnd_zero stem)
  have hsplit : stem ++ ['i', 'e', 's'] = stem ++ ['i', 'e'] ++ ['s'] := by simp
  rw [hsplit, singularWord_append_s, hkept, endsWithAny_of_apart hie ["ee"] (by decide),
    endsWithAny_of_apart hie ["se", "ze"] (by decide), hie, hbefore, hdrop]
  rfl

/-- A word that ends with a capital `Y` behind a consonant. -/
def HasCapitalY (word : List Char) : Prop :=
  ∃ stem, word = stem ++ ['Y'] ∧ consonantBefore 0 stem = true

theorem singularWord_ies_eq_self_iff
    (h : (endsWithAny ["y"] word && consonantBefore 1 word) = true) :
    singularWord (dropEnd 1 word ++ ['i', 'e', 's']) = word ↔
      endsWithAny ["specy"] word = false ∧ ¬ HasCapitalY word := by
  obtain ⟨stem, tail, rfl, htail, hstem⟩ := (endsBehindConsonant_iff "y" rfl).mp h
  obtain ⟨y, rfl, hy⟩ : ∃ y, tail = [y] ∧ y.toLower = 'y' := fold_eq_singleton_iff.mp htail
  have hdrop : dropEnd 1 (stem ++ [y]) = stem :=
    (dropEnd_append 0 stem [y]).trans (dropEnd_zero stem)
  have hspec : endsWithAny ["specy"] (stem ++ [y]) = endsWithAny ["spec"] stem :=
    endsWithAny_append htail ["spec"] stem
  rw [hdrop, singularWord_append_ies hstem, hspec]
  split
  · next hspecy => simp [hspecy]
  · next hspecy =>
    have hcapital : HasCapitalY (stem ++ [y]) ↔ y = 'Y' := by simp [HasCapitalY, hstem]
    rcases eq_or_eq_of_toLower_eq hy 'Y' rfl with rfl | rfl
    · simp [hspecy, hcapital]
    · simp [hcapital]

theorem singularWord_eq_self_iff
    (h : endsWithAny ["analysis", "status", "species", "news"] word = true) :
    singularWord word = word ↔ endsWithAny ["analysis", "status"] word = false := by
  rw [singularWord]
  cases hstatus : endsWithAny ["analysis", "status"] word with
  | false =>
    have hspecies := endsWithAny_rest h hstatus ["species", "news"] (by decide)
    simp [endsWithAny_of_refines hspecies ["species", "news", "ess"] (by decide)]
  | true =>
    have hne := dropEnd_one_ne_self (length_pos_of_endsWithAny hstatus rfl)
    simp [endsWithAny_of_apart hstatus ["species", "news", "ess"] (by decide),
      endsWithAny_of_apart hstatus ["ees"] (by decide),
      endsWithAny_of_apart hstatus ["ses", "zes"] (by decide),
      endsWithAny_of_apart hstatus ["ies"] (by decide),
      endsWithAny_of_refines hstatus ["s", "_"] (by decide), hne]

/-! ## Words that do not come back -/

/-- A word that is not the singular of its plural, with its small form. -/
inductive Irregular (word small : List Char) : Prop
  /-- The word is its own plural, and the singular takes its `s` away. -/
  | unchanged : EndsIn ["analysis", "status"] small → Irregular word small
  /-- The plural is made with `es`, and the singular takes the `s` away. -/
  | hissing : EndsIn ["x", "ch", "sh"] small → Irregular word small
  /-- The plural is made with `ies`, and the singular puts a small letter there. -/
  | capital {before : List Char} {c : Char} : word = before ++ [c, 'Y'] →
      isConsonant c = true → Irregular word small
  /-- The plural looks like one that is its own singular, or like one made with `es`. -/
  | mistaken : EndsIn ["specy", "new", "specie", "se", "ze"] small → Irregular word small
  /-- The plural looks like one made with `ies`. -/
  | consonant {before : List Char} {c i e : Char} : word = before ++ [c, i, e] →
      isConsonant c = true → i = 'i' ∨ i = 'I' → e = 'e' ∨ e = 'E' → Irregular word small

theorem hasCapitalY_iff :
    HasCapitalY word ↔ ∃ before c, word = before ++ [c, 'Y'] ∧ isConsonant c = true := by
  constructor
  · rintro ⟨stem, rfl, hstem⟩
    obtain ⟨before, c, rfl, hc⟩ := consonantBefore_zero_iff.mp hstem
    exact ⟨before, c, (List.append_cons _ _ _).symm, hc⟩
  · rintro ⟨before, c, rfl, hc⟩
    exact ⟨before ++ [c], List.append_cons _ _ _, consonantBefore_zero_iff.mpr ⟨_, _, rfl, hc⟩⟩

theorem endsWith_ie_iff : (endsWithAny ["ie"] word && consonantBefore 2 word) = true ↔
    ∃ before c i e, word = before ++ [c, i, e] ∧ isConsonant c = true ∧
      (i = 'i' ∨ i = 'I') ∧ (e = 'e' ∨ e = 'E') := by
  refine (endsBehindConsonant_iff "ie" rfl).trans ⟨?_, ?_⟩
  · rintro ⟨stem, tail, rfl, htail, hstem⟩
    obtain ⟨i, e, rfl, hi, he⟩ :
        ∃ i e, tail = [i, e] ∧ i.toLower = 'i' ∧ e.toLower = 'e' := fold_eq_pair_iff.mp htail
    obtain ⟨before, c, rfl, hc⟩ := consonantBefore_zero_iff.mp hstem
    exact ⟨before, c, i, e, (List.append_cons _ _ _).symm, hc,
      eq_or_eq_of_toLower_eq hi 'I' rfl, eq_or_eq_of_toLower_eq he 'E' rfl⟩
  · rintro ⟨before, c, i, e, rfl, hc, hi, he⟩
    have hfold : fold [i, e] = "ie".toList := by
      rcases hi with rfl | rfl <;> rcases he with rfl | rfl <;> rfl
    exact ⟨before ++ [c], [i, e], List.append_cons _ _ _, hfold,
      consonantBefore_zero_iff.mpr ⟨_, _, rfl, hc⟩⟩

/-- The clauses as tests on the word. -/
theorem irregular_iff (h : SmallForm word small) :
    Irregular word small ↔ endsWithAny ["analysis", "status"] word = true ∨
      endsWithAny ["x", "ch", "sh"] word = true ∨ HasCapitalY word ∨
      endsWithAny ["specy", "new", "specie", "se", "ze"] word = true ∨
      (endsWithAny ["ie"] word && consonantBefore 2 word) = true := by
  rw [hasCapitalY_iff, endsWith_ie_iff, ← h.endsIn_iff (by decide), ← h.endsIn_iff (by decide),
    ← h.endsIn_iff (by decide)]
  constructor
  · rintro (hends | hends | ⟨hword, hc⟩ | hends | ⟨hword, hc, hi, he⟩)
    · exact .inl hends
    · exact .inr (.inl hends)
    · exact .inr (.inr (.inl ⟨_, _, hword, hc⟩))
    · exact .inr (.inr (.inr (.inl hends)))
    · exact .inr (.inr (.inr (.inr ⟨_, _, _, _, hword, hc, hi, he⟩)))
  · rintro (hends | hends | ⟨_, _, hword, hc⟩ | hends | ⟨_, _, _, _, hword, hc, hi, he⟩)
    · exact .unchanged hends
    · exact .hissing hends
    · exact .capital hword hc
    · exact .mistaken hends
    · exact .consonant hword hc hi he

theorem HasCapitalY.ends_y (h : HasCapitalY word) :
    (endsWithAny ["y"] word && consonantBefore 1 word) = true := by
  obtain ⟨stem, rfl, hstem⟩ := h
  exact (endsBehindConsonant_iff "y" rfl).mpr ⟨stem, ['Y'], rfl, rfl, hstem⟩

theorem ends_y_of_specy (h : endsWithAny ["specy"] word = true) :
    (endsWithAny ["y"] word && consonantBefore 1 word) = true := by
  obtain ⟨stem, tail, rfl, htail⟩ :=
    exists_append_of_endsWithAny (endsWithAny_of_refines h ["cy"] (by decide))
  obtain ⟨c, y, rfl, hc, hy⟩ :
      ∃ c y, tail = [c, y] ∧ c.toLower = 'c' ∧ y.toLower = 'y' := fold_eq_pair_iff.mp htail
  have hconsonant : isConsonant c = true := by
    rcases eq_or_eq_of_toLower_eq hc 'C' rfl with rfl | rfl <;> rfl
  exact (endsBehindConsonant_iff "y" rfl).mpr ⟨stem ++ [c], [y], List.append_cons _ _ _,
    fold_eq_singleton_iff.mpr ⟨y, rfl, hy⟩, consonantBefore_zero_iff.mpr ⟨_, _, rfl, hconsonant⟩⟩

theorem singularWord_pluralWord_eq_self_iff (hsmall : SmallForm word small) :
    singularWord (pluralWord word) = word ↔ ¬ Irregular word small := by
  rw [irregular_iff hsmall]
  -- The test of the rule that made the plural refutes the clauses with endings apart from its
  -- own.  The clauses that it leaves are those of the lemma about this rule.
  fun_cases pluralWord word with
  | case1 hkept =>
    have hapart (others : List String) := endsWithAny_of_apart hkept others
    have hcapital : ¬ HasCapitalY word := fun hcapital => by
      simpa [hapart ["y"] (by decide)] using hcapital.ends_y
    rw [singularWord_eq_self_iff hkept]
    simp (disch := decide) [hapart, hcapital]
  | case2 hkept hy =>
    have hapart (others : List String) :=
      endsWithAny_of_apart (Bool.and_eq_true_iff.mp hy).1 others
    rw [singularWord_ies_eq_self_iff hy, endsWithAny_cons_cons "specy"]
    simp (disch := decide) [hapart, and_comm]
  | case3 hkept hy hes =>
    have hapart (others : List String) := endsWithAny_of_apart hes others
    have hcapital : ¬ HasCapitalY word := fun hcapital => hy hcapital.ends_y
    have hstatus := not_endsWithAny_of_refines (eq_false_of_ne_true hkept)
      ["analysis", "status"] (by decide)
    rw [singularWord_append_es_eq_self_iff hes]
    simp (disch := decide) [hapart, hcapital, hstatus]
  | case4 hkept hy hes =>
    have hcapital : ¬ HasCapitalY word := fun hcapital => hy hcapital.ends_y
    have hspecy : endsWithAny ["specy"] word = false :=
      eq_false_of_ne_true fun hspecy => hy (ends_y_of_specy hspecy)
    have hstatus := not_endsWithAny_of_refines (eq_false_of_ne_true hkept)
      ["analysis", "status"] (by decide)
    have hhissing := not_endsWithAny_of_refines (eq_false_of_ne_true hes)
      ["x", "ch", "sh"] (by decide)
    have hends := not_endsWithAny_of_refines (eq_false_of_ne_true hes) ["es"] (by decide)
    rw [singularWord_append_s_eq_self_iff]
    simp [endsWithAny_cons_cons "specie", endsWithAny_cons_cons "new",
      endsWithAny_cons_cons "specy", hspecy, hstatus, hhissing, hends, hcapital,
      and_assoc, and_left_comm]

/-! ## Names -/

/-- The last word of a name can be exchanged. -/
theorem IsLastWord.exists_splitLastDot {name : List Char} (h : IsLastWord name word) :
    ∃ before, name = before ++ word ∧
      ∀ other, '.' ∉ other → splitLastDot (before ++ other) = (before, other) := by
  cases h with
  | whole hword => exact ⟨[], rfl, fun other hother => splitLastDot_of_notMem hother⟩
  | @after before _ hword =>
    refine ⟨before ++ ['.'], List.append_cons _ _ _, fun other hother => ?_⟩
    rw [← List.append_cons]
    exact splitLastDot_after hother

theorem dot_notMem_pluralWord (h : '.' ∉ word) : '.' ∉ pluralWord word := by
  have hdrop : '.' ∉ dropEnd 1 word := fun hdot => h (List.mem_of_mem_take hdot)
  fun_cases pluralWord word <;> simp [h, hdrop]

/-- The singular of the plural of a name is the name exactly if the last word of the name is
regular, whatever the small form of this word is. -/
theorem singularOf_pluralOf_eq_self_iff {name : String}
    (hword : IsLastWord name.toList word) (hsmall : SmallForm word small) :
    singularOf (pluralOf name) = name ↔ ¬ Irregular word small := by
  obtain ⟨before, hname, hsplit⟩ := hword.exists_splitLastDot
  have hplural : pluralOf name = String.ofList (before ++ pluralWord word) := by
    rw [pluralOf, onLastSegment, hname, hsplit word hword.dot_notMem]
  have hsingular : singularOf (pluralOf name) =
      String.ofList (before ++ singularWord (pluralWord word)) := by
    rw [singularOf, onLastSegment, hplural, String.toList_ofList,
      hsplit _ (dot_notMem_pluralWord hword.dot_notMem)]
  rw [hsingular, ← String.toList_inj, String.toList_ofList, hname, List.append_cancel_left_eq]
  exact singularWord_pluralWord_eq_self_iff hsmall

/-- The small form of the capital in this word has two characters. -/
theorem singularOf_pluralOf_dottedIndex :
    IsLastWord "shop.\u0130ndex".toList "\u0130ndex".toList ∧
      SmallForm "\u0130ndex".toList "i\u0307ndex".toList ∧
      singularOf (pluralOf "shop.\u0130ndex") ≠ "shop.\u0130ndex" := by
  have hword : IsLastWord "shop.\u0130ndex".toList "\u0130ndex".toList :=
    @IsLastWord.after "shop".toList "\u0130ndex".toList (by decide)
  have hcapital : SmallForm ['\u0130'] ['i', '\u0307'] :=
    @SmallForm.other [] [] ['i'] '\u0130' '\u0307' .nil rfl (.inl rfl)
  have hsmall : SmallForm "\u0130ndex".toList "i\u0307ndex".toList :=
    hcapital.append_fold "ndex".toList
  refine ⟨hword, hsmall, fun hsame => ?_⟩
  exact (singularOf_pluralOf_eq_self_iff hword hsmall).mp hsame (.hissing (by decide))

/-- The `y` of a regular word is put back. -/
example : singularOf (pluralOf "shop.Category") = "shop.Category" := by decide

end SchemaTypes.Naming
