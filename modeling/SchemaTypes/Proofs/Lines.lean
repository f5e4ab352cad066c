import SchemaTypes.Code.Block
import SchemaTypes.Proofs.Text
import SchemaTypes.Text.Lines

/-!
# Lines of joined texts

Lines that are joined and split again come back as they were where they are lines
(`Text.IsLine`): they hold no line feed and do not end in a carriage return.  Others may
stand between them, of which a line feed makes more (`Text.sublist_lines_join`).  Those that
follow one another do so afterwards (`Text.isInfix_lines_join`).  Where only the end of a text
is a line, the end of some line is the same (`Text.exists_line_of_mem`).

Indentation leaves the end of a line as it is (`isSuffix_indented`), and the depths of a
line that is indented more than once add up (`indented_indented`).
-/

namespace SchemaTypes

namespace Text

/-- A text that is one line: it holds no line feed and does not end in what could be
a part of one. -/
def IsLine (s : String) : Prop := ∃ init c, s.toList = init ++ [c] ∧ '\n' ∉ s.toList ∧ c ≠ '\r'

theorem IsLine.append {front tail : String} (hfront : '\n' ∉ front.toList) (h : IsLine tail) :
    IsLine (front ++ tail) := by
  obtain ⟨init, c, htail, hfeed, hc⟩ := h
  refine ⟨front.toList ++ init, c, ?_, ?_, hc⟩
  · rw [String.toList_append, htail, List.append_assoc]
  · rw [String.toList_append, List.mem_append]
    exact not_or.mpr ⟨hfront, hfeed⟩

theorem dropReturn_prefix (piece : List Char) : dropReturn piece <+: piece := by
  rw [dropReturn]
  split
  · next rest hreverse =>
    rw [List.reverse_eq_iff.mp hreverse, List.reverse_cons]
    exact List.prefix_append _ _
  · exact List.prefix_rfl

theorem exists_piece_of_mem {pieces : List (List Char)} {line : List Char}
    (h : line ∈ linesOfPieces pieces) : ∃ piece ∈ pieces, line <+: piece := by
  fun_induction linesOfPieces with
  | case1 => cases h
  | case2 last hempty => cases h
  | case3 last hempty => exact ⟨last, List.mem_cons_self, List.mem_singleton.mp h ▸ List.prefix_rfl⟩
  | case4 piece rest hpattern ih =>
    rcases List.mem_cons.mp h with rfl | h
    · exact ⟨piece, List.mem_cons_self, dropReturn_prefix piece⟩
    · obtain ⟨other, hother, hfront⟩ := ih h
      exact ⟨other, List.mem_cons_of_mem piece hother, hfront⟩

theorem notMem_of_mem_lines {line text : String} (h : line ∈ lines text) : '\n' ∉ line.toList := by
  obtain ⟨chars, hchars, rfl⟩ := List.mem_map.mp h
  obtain ⟨piece, hpiece, hfront⟩ := exists_piece_of_mem hchars
  rw [String.toList_ofList]
  exact fun hmem => notMem_of_mem_splitChars hpiece (hfront.subset hmem)

/-- The lines of a text that a line feed follows. -/
def endedLines (s : String) : List String :=
  (splitChars '\n' s.toList).map fun piece => String.ofList (dropReturn piece)

theorem linesOfPieces_append (ps : List (List Char)) {qs : List (List Char)} (h : qs ≠ []) :
    linesOfPieces (ps ++ qs) = ps.map dropReturn ++ linesOfPieces qs := by
  induction ps with
  | nil => rfl
  | cons p rest ih =>
    have hne : rest ++ qs ≠ [] := List.append_ne_nil_of_right_ne_nil rest h
    rw [List.cons_append, linesOfPieces, ih, List.map_cons, List.cons_append]
    exact hne

theorem lines_join_cons (s : String) {rest : List String} (h : rest ≠ []) :
    lines (join "\n" (s :: rest)) = endedLines s ++ lines (join "\n" rest) := by
  have hsplit : splitChars '\n' (s ++ "\n" ++ join "\n" rest).toList =
      splitChars '\n' s.toList ++ splitChars '\n' (join "\n" rest).toList := by
    simp [splitChars_append_sep]
  rw [join_cons h, lines, hsplit, linesOfPieces_append _ (splitChars_ne_nil _ _), List.map_append,
    List.map_map]
  rfl

theorem dropReturn_append {init : List Char} {c : Char} (h : c ≠ '\r') :
    dropReturn (init ++ [c]) = init ++ [c] := by
  rw [dropReturn, List.reverse_append]
  split
  · next heq => exact absurd (List.cons.inj heq).1 h
  · rfl

/-- The last piece of a text ends as the text does. -/
theorem splitChars_append_of_notMem {sep : Char} {tail : List Char} (h : sep ∉ tail) :
    ∀ front, ∃ pieces last, splitChars sep (front ++ tail) = pieces ++ [last ++ tail]
  | [] => ⟨[], [], splitChars_of_notMem h⟩
  | c :: front => by
    obtain ⟨pieces, last, hsplit⟩ := splitChars_append_of_notMem h front
    by_cases hc : c = sep
    · exact ⟨[] :: pieces, last, by simp [splitChars, hc, hsplit]⟩
    · cases pieces with
      | nil => exact ⟨[], c :: last, by simp [splitChars, hc, hsplit]⟩
      | cons piece rest => exact ⟨(c :: piece) :: rest, last, by simp [splitChars, hc, hsplit]⟩

/-- The last line of a text ends as the text does, whether a line feed follows it or
not. -/
theorem exists_last_line (front : String) {tail : String} (h : IsLine tail) :
    ∃ line, tail.toList <:+ line.toList ∧ line ∈ endedLines (front ++ tail) ∧
      line ∈ lines (front ++ tail) := by
  obtain ⟨init, c, htail, hfeed, hc⟩ := h
  obtain ⟨pieces, last, hsplit⟩ := splitChars_append_of_notMem hfeed front.toList
  have hdrop : dropReturn (last ++ tail.toList) = last ++ tail.toList := by
    rw [htail, ← List.append_assoc]
    exact dropReturn_append hc
  refine ⟨String.ofList (last ++ tail.toList), ?_, ?_, ?_⟩
  · rw [String.toList_ofList]
    exact List.suffix_append _ _
  · rw [endedLines, String.toList_append, hsplit, List.map_append, List.map_singleton, hdrop]
    exact List.mem_append_right _ (List.mem_singleton.mpr rfl)
  · have hne : (last ++ tail.toList).isEmpty = false := by simp [htail]
    rw [lines, String.toList_append, hsplit, linesOfPieces_append _ (List.cons_ne_nil _ _),
      linesOfPieces, hne, List.map_append]
    exact List.mem_append_right _ (List.mem_singleton.mpr rfl)

theorem IsLine.endedLines_eq {s : String} (h : IsLine s) : endedLines s = [s] := by
  obtain ⟨init, c, hs, hfeed, hc⟩ := h
  rw [endedLines, splitChars_of_notMem hfeed, List.map_singleton, hs, dropReturn_append hc, ← hs,
    String.ofList_toList]

theorem IsLine.lines_eq {s : String} (h : IsLine s) : lines s = [s] := by
  obtain ⟨init, c, hs, hfeed, hc⟩ := h
  have hne : s.toList.isEmpty = false := by simp [hs]
  rw [lines, splitChars_of_notMem hfeed, linesOfPieces, hne]
  simp

/-- Lines that are joined are found again among the lines of the result, in their
order. -/
theorem sublist_lines_join {kept texts : List String} (h : kept.Sublist texts)
    (hkept : ∀ s ∈ kept, IsLine s) : kept.Sublist (lines (join "\n" texts)) := by
  induction h with
  | slnil => exact List.nil_sublist _
  | @cons kept rest s h ih =>
    by_cases hrest : rest = []
    · subst hrest
      rw [List.sublist_nil.mp h]
      exact List.nil_sublist _
    · rw [lines_join_cons s hrest]
      exact (ih hkept).trans (List.sublist_append_right _ _)
  | @cons_cons kept rest s h ih =>
    have hs := hkept s List.mem_cons_self
    by_cases hrest : rest = []
    · subst hrest
      rw [List.sublist_nil.mp h, join, hs.lines_eq]
    · rw [lines_join_cons s hrest, hs.endedLines_eq]
      exact (ih fun t ht => hkept t (List.mem_cons_of_mem _ ht)).cons_cons s

theorem lines_join_append (front : List String) {back : List String} (h : back ≠ []) :
    lines (join "\n" (front ++ back)) = front.flatMap endedLines ++ lines (join "\n" back) := by
  induction front with
  | nil => rfl
  | cons s rest ih =>
    rw [List.cons_append, lines_join_cons s (List.append_ne_nil_of_right_ne_nil rest h), ih,
      List.flatMap_cons, List.append_assoc]

theorem flatMap_endedLines {kept : List String} (h : ∀ s ∈ kept, IsLine s) :
    kept.flatMap endedLines = kept := by
  induction kept with
  | nil => rfl
  | cons s rest ih =>
    rw [List.flatMap_cons, (h s List.mem_cons_self).endedLines_eq,
      ih fun t ht => h t (List.mem_cons_of_mem s ht)]
    rfl

theorem lines_join {kept : List String} (h : ∀ s ∈ kept, IsLine s) :
    lines (join "\n" kept) = kept := by
  rcases List.eq_nil_or_concat kept with rfl | ⟨front, last, rfl⟩
  · rfl
  · have hlast := h last (by simp)
    rw [List.concat_eq_append, lines_join_append front (List.cons_ne_nil last []),
      flatMap_endedLines fun s hs => h s (by simp [hs])]
    rw [join, hlast.lines_eq]

/-- Lines that follow one another are found again without anything between them. -/
theorem isInfix_lines_join {kept texts : List String} (h : kept <:+: texts)
    (hkept : ∀ s ∈ kept, IsLine s) : kept <:+: lines (join "\n" texts) := by
  obtain ⟨front, back, rfl⟩ := h
  by_cases hback : back = []
  · subst hback
    by_cases hnil : kept = []
    · rw [hnil]
      exact List.nil_infix
    · rw [List.append_nil, lines_join_append front hnil, lines_join hkept]
      exact (List.suffix_append _ _).isInfix
  · rw [lines_join_append _ hback, List.flatMap_append, flatMap_endedLines hkept]
    exact List.infix_append _ _ _

/-- The end of a text that is joined with others is the end of a line. -/
theorem exists_line_of_mem {front tail : String} (h : IsLine tail) {texts : List String}
    (hmem : front ++ tail ∈ texts) :
    ∃ line ∈ lines (join "\n" texts), tail.toList <:+ line.toList := by
  obtain ⟨line, hsuffix, hended, hlast⟩ := exists_last_line front h
  induction texts with
  | nil => cases hmem
  | cons s rest ih =>
    by_cases hrest : rest = []
    · subst hrest
      rw [List.mem_singleton] at hmem
      subst hmem
      exact ⟨line, hlast, hsuffix⟩
    · rw [lines_join_cons s hrest]
      rcases List.mem_cons.mp hmem with rfl | hmem
      · exact ⟨line, List.mem_append_left _ hended, hsuffix⟩
      · obtain ⟨line', hline', hsuffix'⟩ := ih hmem
        exact ⟨line', List.mem_append_right _ hline', hsuffix'⟩

end Text

/-! ## Indentation -/

theorem indented_one {s : String} (h : s ≠ "") : indented 1 s = "  " ++ s := by
  rw [indented, if_neg h]
  rfl

theorem replicate_add (m n : Nat) (s : String) :
    Text.replicate (m + n) s = Text.replicate m s ++ Text.replicate n s := by
  rw [Text.replicate, List.replicate_add, String.join_append]
  rfl

/-- A line that is indented where it stands and again with all around it. -/
theorem indented_indented (outer inner : Nat) (s : String) :
    indented outer (indented inner s) = indented (outer + inner) s := by
  by_cases hs : s = ""
  · simp [indented, hs]
  · have hinner : Text.replicate inner indentUnit ++ s ≠ "" := by
      simp [String.append_eq_empty_iff, hs]
    simp only [indented, if_neg hs, if_neg hinner, replicate_add, String.append_assoc]

theorem isSuffix_indented {depth : Nat} {tail line : String} (h : tail.toList <:+ line.toList) :
    tail.toList <:+ (indented depth line).toList := by
  rw [indented]
  split
  · next hline => rwa [hline] at h
  · rw [String.toList_append]
    exact h.trans (List.suffix_append _ _)

end SchemaTypes
