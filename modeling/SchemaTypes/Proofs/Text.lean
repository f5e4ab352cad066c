import SchemaTypes.Text.Split
import Mathlib.Data.List.Basic

/-!
# Splitting undoes joining

Pieces that do not hold a character are found again when they are joined with
this character and the result is split (`splitOn_join`).  The pieces of a text
do not hold the character it was split at (`notMem_of_mem_splitOn`).  So lists
of such pieces are told apart by the joined text, unless one is empty and the
other holds the empty piece alone.

Pieces that stand together in a list stand together in the joined text
(`isInfix_join`).  A text that is put together in two ways, each with an underscore
between two parts, is put together from three (`underscore_eq`).
-/

namespace SchemaTypes.Text

theorem splitChars_of_notMem {sep : Char} {cs : List Char} (h : sep ∉ cs) :
    splitChars sep cs = [cs] := by
  induction cs with
  | nil => rfl
  | cons c rest ih =>
    rw [List.mem_cons, not_or] at h
    simp [splitChars, Ne.symm h.1, ih h.2]

theorem splitChars_append_cons {sep : Char} {cs : List Char} (h : sep ∉ cs) (rest : List Char) :
    splitChars sep (cs ++ sep :: rest) = cs :: splitChars sep rest := by
  induction cs with
  | nil => simp [splitChars]
  | cons c cs ih =>
    rw [List.mem_cons, not_or] at h
    simp [splitChars, Ne.symm h.1, ih h.2]

theorem splitChars_joinChars {sep : Char} :
    ∀ {pieces : List (List Char)}, pieces ≠ [] → (∀ p ∈ pieces, sep ∉ p) →
      splitChars sep (joinChars sep pieces) = pieces
  | [], hne, _ => absurd rfl hne
  | [p], _, h => splitChars_of_notMem (h p List.mem_cons_self)
  | p :: q :: rest, _, h => by
    rw [joinChars, splitChars_append_cons (h p List.mem_cons_self),
      splitChars_joinChars (List.cons_ne_nil q rest) fun x hx => h x (List.mem_cons_of_mem _ hx)]
    simp

theorem splitOn_join {sep : Char} {pieces : List String} (hne : pieces ≠ [])
    (h : ∀ p ∈ pieces, sep ∉ p.toList) :
    splitOn sep (join (String.singleton sep) pieces) = pieces := by
  have hchars : (join (String.singleton sep) pieces).toList =
      joinChars sep (pieces.map String.toList) := by
    rw [← toList_join_singleton, List.map_map]
    congr 1
    simp [Function.comp_def]
  rw [splitOn, hchars, splitChars_joinChars (by simpa using hne), List.map_map]
  · simp [Function.comp_def]
  · intro p hp
    obtain ⟨s, hs, rfl⟩ := List.mem_map.mp hp
    exact h s hs

/-- A text that is split in two holds the character. -/
theorem mem_of_splitOn_eq_pair {sep : Char} {s first second : String}
    (h : splitOn sep s = [first, second]) : sep ∈ s.toList := by
  by_contra hnone
  rw [splitOn, splitChars_of_notMem hnone] at h
  simp at h

theorem notMem_of_mem_splitChars {sep : Char} {cs p : List Char} (h : p ∈ splitChars sep cs) :
    sep ∉ p := by
  induction cs generalizing p with
  | nil =>
    rw [List.mem_singleton.mp h]
    exact List.not_mem_nil
  | cons c rest ih =>
    simp only [splitChars] at h
    split at h
    · rcases List.mem_cons.mp h with rfl | h
      · exact List.not_mem_nil
      · exact ih h
    · next hc =>
      cases hs : splitChars sep rest with
      | nil => exact absurd hs (splitChars_ne_nil sep rest)
      | cons piece pieces =>
        simp only [hs] at h ih
        rcases List.mem_cons.mp h with rfl | h
        · rw [List.mem_cons, not_or]
          exact ⟨Ne.symm hc, ih List.mem_cons_self⟩
        · exact ih (List.mem_cons_of_mem _ h)

theorem notMem_of_mem_splitOn {sep : Char} {s p : String} (h : p ∈ splitOn sep s) :
    sep ∉ p.toList := by
  obtain ⟨cs, hcs, rfl⟩ := List.mem_map.mp h
  simpa using notMem_of_mem_splitChars hcs

/-- Lists of pieces that do not hold the character are told apart by the joined text, unless
one is empty and the other one is the empty piece alone. -/
theorem join_eq_cases (sep : Char) {xs ys : List String} (hx : ∀ p ∈ xs, sep ∉ p.toList)
    (hy : ∀ p ∈ ys, sep ∉ p.toList)
    (h : join (String.singleton sep) xs = join (String.singleton sep) ys) :
    xs = ys ∨ xs = [] ∧ ys = [""] ∨ xs = [""] ∧ ys = [] := by
  have hempty : splitOn sep "" = [""] := rfl
  cases xs with
  | nil =>
    cases ys with
    | nil => exact .inl rfl
    | cons y ys =>
      have hsplit := splitOn_join (List.cons_ne_nil y ys) hy
      rw [← h, join, hempty] at hsplit
      exact .inr (.inl ⟨rfl, hsplit.symm⟩)
  | cons x xs =>
    have hsplit := splitOn_join (List.cons_ne_nil x xs) hx
    cases ys with
    | nil =>
      rw [h, join, hempty] at hsplit
      exact .inr (.inr ⟨hsplit.symm, rfl⟩)
    | cons y ys =>
      rw [h, splitOn_join (List.cons_ne_nil y ys) hy] at hsplit
      exact .inl hsplit.symm

theorem eq_of_join_eq (sep : Char) {xs ys : List String} (hx : ∀ p ∈ xs, sep ∉ p.toList)
    (hy : ∀ p ∈ ys, sep ∉ p.toList) (hx' : xs ≠ [""]) (hy' : ys ≠ [""])
    (h : join (String.singleton sep) xs = join (String.singleton sep) ys) : xs = ys := by
  rcases join_eq_cases sep hx hy h with heq | ⟨-, hblank⟩ | ⟨hblank, -⟩
  · exact heq
  · exact absurd hblank hy'
  · exact absurd hblank hx'

/-- Pieces that are not empty and do not hold the character are told apart by
the joined text. -/
theorem join_injective (sep : Char) {xs ys : List String}
    (hx : ∀ p ∈ xs, p ≠ "" ∧ sep ∉ p.toList) (hy : ∀ p ∈ ys, p ≠ "" ∧ sep ∉ p.toList)
    (h : join (String.singleton sep) xs = join (String.singleton sep) ys) : xs = ys :=
  eq_of_join_eq sep (fun p hp => (hx p hp).2) (fun p hp => (hy p hp).2)
    (fun heq => (hx "" (heq ▸ List.mem_cons_self)).1 rfl)
    (fun heq => (hy "" (heq ▸ List.mem_cons_self)).1 rfl) h

theorem mem_join {glue : String} {c : Char} :
    ∀ {pieces : List String}, c ∈ (join glue pieces).toList →
      c ∈ glue.toList ∨ ∃ p ∈ pieces, c ∈ p.toList
  | [], h => by simp [join] at h
  | [p], h => Or.inr ⟨p, List.mem_cons_self, h⟩
  | p :: q :: rest, h => by
    rw [join, String.toList_append, String.toList_append, List.mem_append, List.mem_append] at h
    · rcases h with (h | h) | h
      · exact Or.inr ⟨p, List.mem_cons_self, h⟩
      · exact Or.inl h
      · rcases mem_join h with h | ⟨r, hr, h⟩
        · exact Or.inl h
        · exact Or.inr ⟨r, List.mem_cons_of_mem _ hr, h⟩
    · simp

theorem splitChars_append_sep (sep : Char) (front rest : List Char) :
    splitChars sep (front ++ sep :: rest) = splitChars sep front ++ splitChars sep rest := by
  induction front with
  | nil => simp [splitChars]
  | cons c front ih =>
    simp only [List.cons_append, splitChars, ih]
    split
    · rfl
    · cases hs : splitChars sep front with
      | nil => exact absurd hs (splitChars_ne_nil sep front)
      | cons piece pieces => rfl

/-- A separator starts new pieces. -/
theorem splitOn_append_sep (sep : Char) (front rest : String) :
    splitOn sep (front ++ String.singleton sep ++ rest) =
      splitOn sep front ++ splitOn sep rest := by
  simp [splitOn, splitChars_append_sep]

/-! ## Parts of a text -/

theorem isInfix_append_left {s x : String} (front : String) (h : s.toList <:+: x.toList) :
    s.toList <:+: (front ++ x).toList := by
  rw [String.toList_append]
  exact h.trans (List.suffix_append _ _).isInfix

theorem isInfix_append_right {s x : String} (back : String) (h : s.toList <:+: x.toList) :
    s.toList <:+: (x ++ back).toList := by
  rw [String.toList_append]
  exact h.trans (List.prefix_append _ _).isInfix

theorem join_cons {glue s : String} {rest : List String} (h : rest ≠ []) :
    join glue (s :: rest) = s ++ glue ++ join glue rest := by
  cases rest with
  | nil => exact absurd rfl h
  | cons t rest => rfl

theorem join_append {glue : String} {xs ys : List String} (hx : xs ≠ []) (hy : ys ≠ []) :
    join glue (xs ++ ys) = join glue xs ++ glue ++ join glue ys := by
  induction xs with
  | nil => exact absurd rfl hx
  | cons x rest ih =>
    by_cases hrest : rest = []
    · subst hrest
      rw [List.singleton_append, join_cons hy, join]
    · rw [List.cons_append, join_cons (by simp [hrest]), ih hrest, join_cons hrest]
      simp only [String.append_assoc]

/-- A last piece stands behind pieces that each end with the glue. -/
theorem join_concat (glue : String) (front : List String) (last : String) :
    join glue (front ++ [last]) = String.join (front.map (· ++ glue)) ++ last := by
  induction front with
  | nil => simp [join]
  | cons s rest ih =>
    have hcons : String.join ((s :: rest).map (· ++ glue)) =
        s ++ glue ++ String.join (rest.map (· ++ glue)) := by simp
    rw [List.cons_append, join_cons (by simp), ih, hcons]
    simp only [String.append_assoc]

theorem isPrefix_join_append (glue : String) (xs ys : List String) :
    (join glue xs).toList <+: (join glue (xs ++ ys)).toList := by
  by_cases hx : xs = []
  · rw [hx]
    exact List.nil_prefix
  · by_cases hy : ys = []
    · simp [hy]
    · rw [join_append hx hy, String.append_assoc, String.toList_append]
      exact List.prefix_append _ _

theorem isSuffix_join_append (glue : String) (xs ys : List String) :
    (join glue ys).toList <:+ (join glue (xs ++ ys)).toList := by
  induction xs with
  | nil => exact List.suffix_refl _
  | cons x rest ih =>
    refine ih.trans ?_
    cases h : rest ++ ys with
    | nil => exact List.nil_suffix
    | cons y more =>
      rw [List.cons_append, h, join_cons (List.cons_ne_nil y more), String.toList_append]
      exact List.suffix_append _ _

/-- Neighbouring pieces stand together in the joined text. -/
theorem isInfix_join {glue : String} {xs ys : List String} (h : xs <:+: ys) :
    (join glue xs).toList <:+: (join glue ys).toList := by
  obtain ⟨before, after, rfl⟩ := h
  have hend := isSuffix_join_append glue before xs
  have hfront := isPrefix_join_append glue (before ++ xs) after
  exact hend.isInfix.trans hfront.isInfix

theorem isInfix_join_of_mem {glue s : String} {pieces : List String} (h : s ∈ pieces) :
    s.toList <:+: (join glue pieces).toList := by
  have halone : [s] <:+: pieces := by
    obtain ⟨before, after, rfl⟩ := List.append_of_mem h
    exact ⟨before, after, by simp⟩
  have hjoined : (join glue [s]).toList <:+: (join glue pieces).toList := isInfix_join halone
  rwa [join] at hjoined

/-- A joined text is split in its pieces, and each piece where it holds the character. -/
theorem splitOn_join_eq_flatMap (sep : Char) {pieces : List String} (h : pieces ≠ []) :
    splitOn sep (join (String.singleton sep) pieces) =
      pieces.flatMap (splitOn sep) := by
  induction pieces with
  | nil => exact absurd rfl h
  | cons s rest ih =>
    by_cases hrest : rest = []
    · subst hrest
      simp [join]
    · rw [join_cons hrest, splitOn_append_sep, ih hrest, List.flatMap_cons]

/-! ## Underscores -/

private theorem underscore_of_append {a b s t : String} {more : List Char}
    (hb : b.toList = a.toList ++ more) (hs : '_' :: s.toList = more ++ '_' :: t.toList) :
    a = b ∧ s = t ∨ ∃ r, b = a ++ "_" ++ r ∧ s = r ++ "_" ++ t := by
  cases more with
  | nil =>
    rw [List.append_nil] at hb
    exact Or.inl ⟨String.toList_inj.mp hb.symm, String.toList_inj.mp (List.cons.inj hs).2⟩
  | cons c r =>
    obtain ⟨rfl, hrest⟩ := List.cons.inj hs
    have hs : s.toList = r ++ '_' :: t.toList := hrest
    refine Or.inr ⟨String.ofList r, String.toList_inj.mp ?_, String.toList_inj.mp ?_⟩
    · simp [hb]
    · simp [hs]

/-- A text has an underscore between its parts in two ways.  Then one of the first parts goes
on after the other one, and the second part of the other one begins with what follows. -/
theorem underscore_eq {a b s t : String} (h : a ++ "_" ++ s = b ++ "_" ++ t) :
    a = b ∧ s = t ∨ (∃ r, b = a ++ "_" ++ r ∧ s = r ++ "_" ++ t) ∨
      ∃ r, a = b ++ "_" ++ r ∧ t = r ++ "_" ++ s := by
  have hchars : a.toList ++ '_' :: s.toList = b.toList ++ '_' :: t.toList := by
    simpa using congrArg String.toList h
  rcases List.append_eq_append_iff.mp hchars with ⟨more, hb, hs⟩ | ⟨more, ha, ht⟩
  · exact (underscore_of_append hb hs).imp_right Or.inl
  · rcases underscore_of_append ha ht with ⟨rfl, rfl⟩ | hr
    · exact Or.inl ⟨rfl, rfl⟩
    · exact Or.inr (Or.inr hr)

end SchemaTypes.Text
