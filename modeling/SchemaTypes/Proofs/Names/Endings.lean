import SchemaTypes.Naming.Inflection
import Mathlib.Data.List.Induction

/-!
# Endings of words

The rules for singular and plural test how a word ends, whatever its capitals
(`Naming.endsWithAny`).  This module holds the laws of these tests.

*Small forms.*  The tests fold the Latin capitals only.  They have the same outcome on every
`Naming.SmallForm` of the word (`Naming.SmallForm.endsIn_iff`), however other scripts are made
small, since their endings are plain.

*Several tests.*  No word ends with endings of two lists that are `Naming.Apart`, and a word that
ends with an ending ends with those that the ending `Naming.Refines`.  Both relations can be
decided, so one test decides many others.

*Attached characters.*  A test on a word with something attached is a test on the word, and so
is the search for a consonant before it (`Naming.endsWithAny_append`,
`Naming.consonantBefore_append`).
-/

namespace SchemaTypes.Naming

variable {word small ending tail : List Char} {endings others : List String} {e : String} {n : Nat}

/-! ## Small forms -/

/-- A word in small letters.  A character below 128 has a small form of one character.  The small
form of another one may hold several characters and depend on the word, and it ends with a
character that is not below 128 either, or with the `k` of the Kelvin sign. -/
inductive SmallForm : List Char → List Char → Prop
  | nil : SmallForm [] []
  | latin {word small : List Char} {c : Char} : SmallForm word small → c.isAscii = true →
      SmallForm (word ++ [c]) (small ++ [c.toLower])
  | other {word small form : List Char} {c last : Char} : SmallForm word small →
      c.isAscii = false → last.isAscii = false ∨ last = 'k' →
      SmallForm (word ++ [c]) (small ++ form ++ [last])

/-- A text ends with one of the endings. -/
def EndsIn (endings : List String) (text : List Char) : Prop :=
  ∃ e ∈ endings, e.toList <:+ text

instance (endings : List String) (text : List Char) : Decidable (EndsIn endings text) :=
  inferInstanceAs (Decidable (∃ e ∈ endings, e.toList <:+ text))

/-- Whether all characters of an ending are below 128 and none is a `k`, which may be the small
form of the Kelvin sign. -/
def isPlain (ending : List Char) : Bool := ending.all fun c => c.isAscii && c != 'k'

theorem toLower_of_not_isAscii {c : Char} (h : c.isAscii = false) : c.toLower = c := by
  have hlarge : ¬ c.toNat < 128 := of_decide_eq_false h
  exact dif_neg fun hcapital =>
    hlarge (Nat.lt_of_le_of_lt (UInt32.le_iff_toNat_le.mp hcapital.2) (by decide))

theorem fold_append (word tail : List Char) : fold (word ++ tail) = fold word ++ fold tail :=
  List.map_append

theorem fold_concat (word : List Char) (c : Char) :
    fold (word ++ [c]) = fold word ++ [c.toLower] :=
  fold_append word [c]

theorem suffix_concat_iff_of_isPlain (hplain : isPlain ending = true) {front : List Char}
    {last : Char} (hlast : last.isAscii = false ∨ last = 'k') :
    ending <:+ front ++ [last] ↔ ending = [] := by
  rw [List.suffix_concat_iff]
  refine or_iff_left ?_
  rintro ⟨rest, rfl, -⟩
  have hmem : last ∈ rest ++ [last] := List.mem_append_right _ List.mem_cons_self
  obtain ⟨hascii, hk⟩ := Bool.and_eq_true_iff.mp (List.all_eq_true.mp hplain last hmem)
  rcases hlast with hlast | rfl
  · cases hascii.symm.trans hlast
  · cases hk

/-- A plain ending is found at the end of every small form of a word, or of none.  The induction
is on the word from its end, where the ending is read. -/
theorem SmallForm.suffix_iff (h : SmallForm word small) (hplain : isPlain ending = true) :
    ending <:+ small ↔ ending <:+ fold word := by
  induction h generalizing ending with
  | nil => rfl
  | latin _ _ ih =>
    rw [fold_concat, List.suffix_concat_iff, List.suffix_concat_iff]
    refine or_congr_right (exists_congr fun rest => and_congr_right fun hrest => ih ?_)
    rw [hrest, isPlain, List.all_append, Bool.and_eq_true] at hplain
    exact hplain.1
  | @other _ _ _ c _ _ hc hlast _ =>
    have hfold : c.toLower.isAscii = false := by rw [toLower_of_not_isAscii hc, hc]
    rw [fold_concat, suffix_concat_iff_of_isPlain hplain hlast,
      suffix_concat_iff_of_isPlain hplain (.inl hfold)]

/-- What is attached can be made small one character at a time. -/
theorem SmallForm.append_fold (h : SmallForm word small) (tail : List Char) :
    SmallForm (word ++ tail) (small ++ fold tail) := by
  induction tail using List.reverseRecOn with
  | nil => rwa [fold, List.map_nil, List.append_nil, List.append_nil]
  | append_singleton tail c ih =>
    rw [fold_concat, ← List.append_assoc, ← List.append_assoc]
    cases hc : c.isAscii with
    | true => exact .latin ih hc
    | false =>
      have hform := @SmallForm.other _ _ [] c c ih hc (.inl hc)
      rw [List.append_nil] at hform
      rwa [toLower_of_not_isAscii hc]

theorem endsWithAny_iff : endsWithAny endings word = true ↔ EndsIn endings (fold word) := by
  simp [endsWithAny, EndsIn, List.isSuffixOf_iff_suffix]

theorem SmallForm.endsIn_iff (h : SmallForm word small)
    (hplain : ∀ e ∈ endings, isPlain e.toList = true) :
    EndsIn endings small ↔ endsWithAny endings word = true := by
  rw [endsWithAny_iff]
  exact exists_congr fun e => and_congr_right fun he => h.suffix_iff (hplain e he)

/-! ## Several tests -/

/-- No ending of one list is at the end of one of the other list. -/
def Apart (endings others : List String) : Prop :=
  ∀ e ∈ endings, ∀ o ∈ others, ¬ e.toList <:+ o.toList ∧ ¬ o.toList <:+ e.toList

instance (endings others : List String) : Decidable (Apart endings others) :=
  inferInstanceAs (Decidable (∀ e ∈ endings, ∀ o ∈ others,
    ¬ e.toList <:+ o.toList ∧ ¬ o.toList <:+ e.toList))

/-- Of two endings of one word, the shorter one is at the end of the longer one. -/
theorem endsWithAny_of_apart (h : endsWithAny endings word = true) (others : List String)
    (hapart : Apart endings others) : endsWithAny others word = false := by
  refine eq_false_of_ne_true fun hothers => ?_
  obtain ⟨e, he, hsuffix⟩ := endsWithAny_iff.mp h
  obtain ⟨o, ho, hother⟩ := endsWithAny_iff.mp hothers
  rcases List.suffix_or_suffix_of_suffix hsuffix hother with hends | hends
  · exact (hapart e he o ho).1 hends
  · exact (hapart e he o ho).2 hends

/-- Each ending of one list ends with one of the other list. -/
def Refines (endings others : List String) : Prop := ∀ e ∈ endings, EndsIn others e.toList

instance (endings others : List String) : Decidable (Refines endings others) :=
  inferInstanceAs (Decidable (∀ e ∈ endings, EndsIn others e.toList))

theorem endsWithAny_of_refines (h : endsWithAny endings word = true) (others : List String)
    (hrefines : Refines endings others) : endsWithAny others word = true := by
  obtain ⟨e, he, hsuffix⟩ := endsWithAny_iff.mp h
  obtain ⟨o, ho, hother⟩ := hrefines e he
  exact endsWithAny_iff.mpr ⟨o, ho, hother.trans hsuffix⟩

theorem not_endsWithAny_of_refines (h : endsWithAny others word = false) (endings : List String)
    (hrefines : Refines endings others) : endsWithAny endings word = false := by
  refine eq_false_of_ne_true fun hends => ?_
  cases (endsWithAny_of_refines hends others hrefines).symm.trans h

theorem endsWithAny_append_endings (endings others : List String) (word : List Char) :
    endsWithAny (endings ++ others) word = (endsWithAny endings word || endsWithAny others word) :=
  List.any_append

/-- A test is a disjunction of tests on one ending. -/
theorem endsWithAny_cons_cons (e o : String) (rest : List String) (word : List Char) :
    endsWithAny (e :: o :: rest) word = (endsWithAny [e] word || endsWithAny (o :: rest) word) :=
  endsWithAny_append_endings [e] (o :: rest) word

/-- A word that ends with none of the endings of one list ends with one of the rest. -/
theorem endsWithAny_rest (h : endsWithAny endings word = true)
    (hothers : endsWithAny others word = false) (rest : List String)
    (hrefines : Refines endings (others ++ rest)) : endsWithAny rest word = true := by
  have hor := endsWithAny_of_refines h (others ++ rest) hrefines
  rwa [endsWithAny_append_endings, hothers, Bool.false_or] at hor

theorem length_pos_of_endsWithAny (h : endsWithAny endings word = true)
    (hnil : endsWithAny endings [] = false) : 0 < word.length := by
  refine List.length_pos_iff.mpr ?_
  rintro rfl
  cases h.symm.trans hnil

/-! ## Attached characters -/

theorem endsWithAny_append (h : fold tail = e.toList) (stems : List String) (word : List Char) :
    endsWithAny (stems.map (· ++ e)) (word ++ tail) = endsWithAny stems word := by
  rw [Bool.eq_iff_iff, endsWithAny_iff, endsWithAny_iff, fold_append, h]
  simp [EndsIn, List.suffix_append_inj_of_length_eq]

theorem endsWithAny_attached (h : fold tail = e.toList) (word : List Char) :
    endsWithAny [e] (word ++ tail) = true := by
  rw [endsWithAny_iff, fold_append, h]
  exact ⟨e, List.mem_singleton_self e, List.suffix_append _ _⟩

/-- A word that ends with an ending comes apart before it. -/
theorem exists_append_of_endsWithAny (h : endsWithAny [e] word = true) :
    ∃ stem tail, word = stem ++ tail ∧ fold tail = e.toList := by
  obtain ⟨o, ho, stem, hfold⟩ := endsWithAny_iff.mp h
  obtain rfl := List.mem_singleton.mp ho
  obtain ⟨stem, tail, rfl, -, htail⟩ := List.map_eq_append_iff.mp hfold.symm
  exact ⟨stem, tail, rfl, htail⟩

theorem dropEnd_append (n : Nat) (word tail : List Char) :
    dropEnd (n + tail.length) (word ++ tail) = dropEnd n word := by
  rw [dropEnd, dropEnd, List.length_append, Nat.add_sub_add_right,
    List.take_append_of_le_length (Nat.sub_le _ _)]

theorem dropEnd_zero (word : List Char) : dropEnd 0 word = word := List.take_length

theorem length_dropEnd (n : Nat) (word : List Char) :
    (dropEnd n word).length = word.length - n := by
  rw [dropEnd, List.length_take, Nat.min_eq_left (Nat.sub_le _ _)]

theorem consonantBefore_append (n : Nat) (word tail : List Char) :
    consonantBefore (n + tail.length) (word ++ tail) = consonantBefore n word := by
  rw [consonantBefore, consonantBefore, List.reverse_append,
    List.getElem?_append_right (by simp), List.length_reverse, Nat.add_sub_cancel]

theorem consonantBefore_zero_iff :
    consonantBefore 0 word = true ↔ ∃ before c, word = before ++ [c] ∧ isConsonant c = true := by
  rcases List.eq_nil_or_concat word with rfl | ⟨before, c, rfl⟩
  · simp [consonantBefore]
  · simp [consonantBefore]

theorem lt_length_of_consonantBefore (h : consonantBefore n word = true) : n < word.length := by
  obtain ⟨c, hc, -⟩ := (Option.any_eq_true _ _).mp h
  obtain ⟨hlt, -⟩ := List.getElem?_eq_some_iff.mp hc
  rwa [List.length_reverse] at hlt

/-- A word ends with an ending behind a consonant. -/
theorem endsBehindConsonant_iff (e : String) (hn : e.toList.length = n) :
    (endsWithAny [e] word && consonantBefore n word) = true ↔
      ∃ stem tail, word = stem ++ tail ∧ fold tail = e.toList ∧ consonantBefore 0 stem = true := by
  have hlength {tail : List Char} (htail : fold tail = e.toList) : 0 + tail.length = n := by
    rw [Nat.zero_add, ← hn, ← htail, fold, List.length_map]
  rw [Bool.and_eq_true]
  constructor
  · rintro ⟨hends, hbefore⟩
    obtain ⟨stem, tail, rfl, htail⟩ := exists_append_of_endsWithAny hends
    rw [← hlength htail, consonantBefore_append] at hbefore
    exact ⟨stem, tail, rfl, htail, hbefore⟩
  · rintro ⟨stem, tail, rfl, htail, hstem⟩
    rw [← hlength htail, consonantBefore_append]
    exact ⟨endsWithAny_attached htail stem, hstem⟩

/-! ## Letters -/

theorem eq_or_eq_of_toLower_eq {c letter : Char} (h : c.toLower = letter) (capital : Char)
    (hcapital : letter.val = capital.val + 32) : c = letter ∨ c = capital := by
  by_cases hc : c.val ≥ 'A'.val ∧ c.val ≤ 'Z'.val
  · have hval : c.toLower.val = c.val + 32 := congrArg Char.val (dif_pos hc)
    rw [h, hcapital, UInt32.add_left_inj] at hval
    exact .inr (Char.ext hval.symm)
  · have hsame : c.toLower = c := dif_neg hc
    exact .inl (hsame.symm.trans h)

theorem fold_eq_singleton_iff {a : Char} :
    fold tail = [a] ↔ ∃ c, tail = [c] ∧ c.toLower = a :=
  List.map_eq_singleton_iff

theorem fold_eq_pair_iff {a b : Char} :
    fold tail = [a, b] ↔ ∃ c d, tail = [c, d] ∧ c.toLower = a ∧ d.toLower = b := by
  constructor
  · intro h
    obtain ⟨c, rest, rfl, hc, hrest⟩ := List.map_eq_cons_iff.mp h
    obtain ⟨d, rfl, hd⟩ := fold_eq_singleton_iff.mp hrest
    exact ⟨c, d, rfl, hc, hd⟩
  · rintro ⟨c, d, rfl, rfl, rfl⟩
    rfl

end SchemaTypes.Naming
