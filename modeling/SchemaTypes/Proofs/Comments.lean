import Mathlib.Data.List.Chain
import Mathlib.Data.List.DropRight
import SchemaTypes.Proofs.Code.Fault
import SchemaTypes.Proofs.Code.Printing
import SchemaTypes.Proofs.Declaration
import SchemaTypes.Proofs.Lines

/-!
# Documentation stays in its comment

A comment ends at the first `*/`.  The lines of the documentation hold none after they
are escaped, and neither the prefix of a line nor the indentation brings one about, since
an end would have to begin with one and go on with the other (`NoEnd`).  So the comment
ends with its last line (`Code.closesAtEnd_docComment`).

Each of its lines is a line of the text as well: it holds no line feed, and it does not
end in a blank.  So the lines are found again where the text is split once more, and are
only indented (`docComment_closes`).
-/

namespace SchemaTypes

/-- The comment ends where the text does, and nowhere before. -/
def ClosesAtEnd (text : String) : Prop :=
  ∀ i, ['*', '/'] <+: text.toList.drop i ↔ i + 2 = text.toList.length

/-! ## Texts that do not end a comment -/

/-- No character is one half of the end of a comment that the next one completes. -/
def NoEnd (text : List Char) : Prop := text.IsChain fun a b => ¬ (a = '*' ∧ b = '/')

instance (text : List Char) : Decidable (NoEnd text) :=
  inferInstanceAs (Decidable (List.IsChain _ text))

namespace NoEnd

variable {front back : List Char}

theorem cons {c : Char} {text : List Char} (h : NoEnd text)
    (hc : c = '*' → text.head? ≠ some '/') : NoEnd (c :: text) :=
  List.IsChain.cons h fun _ hb hend => hc hend.1 (hend.2 ▸ hb)

theorem append (hfront : NoEnd front) (hback : NoEnd back) (h : back.head? ≠ some '/') :
    NoEnd (front ++ back) :=
  List.IsChain.append hfront hback fun _ _ _ hb hend => h (hend.2 ▸ hb)

theorem append_of_notMem (hback : NoEnd back) (h : '*' ∉ front) : NoEnd (front ++ back) := by
  induction front with
  | nil => exact hback
  | cons c rest ih =>
    rw [List.mem_cons, not_or] at h
    exact (ih h.2).cons fun hc => absurd hc.symm h.1

theorem of_front (hback : NoEnd back) (h : front <+: back) : NoEnd front :=
  List.IsChain.prefix hback h

/-- A text ends a comment with its last two characters if the last but one is the first
half of an end. -/
theorem closesAtEnd {text : String} (h : NoEnd (front ++ ['*']))
    (htext : text.toList = front ++ ['*', '/']) : ClosesAtEnd text := by
  intro i
  constructor
  · rintro ⟨rest, hrest⟩
    have hsplit : text.toList = text.toList.take i ++ '*' :: '/' :: rest := by
      calc text.toList = text.toList.take i ++ text.toList.drop i := by simp
        _ = text.toList.take i ++ '*' :: '/' :: rest := by rw [← hrest]; rfl
    rcases List.eq_nil_or_concat rest with rfl | ⟨init, last, rfl⟩
    · have hlength := congrArg List.length hrest
      simp only [List.append_nil, List.length_cons, List.length_nil, List.length_drop] at hlength
      omega
    · have hinit : front ++ ['*'] ++ ['/'] =
          text.toList.take i ++ '*' :: '/' :: init ++ [last] := by
        simpa [htext] using hsplit
      have hearly := List.isChain_iff_forall_rel_of_append_cons_cons.mp h
        (List.append_inj_left' hinit rfl)
      exact absurd ⟨rfl, rfl⟩ hearly
  · intro hi
    have hfront : i = front.length := by simpa [htext] using hi
    have hend : text.toList.drop i = ['*', '/'] := by rw [htext, hfront, List.drop_left]
    exact hend ▸ List.prefix_rfl

end NoEnd

/-! ## Lines of a comment -/

theorem escapeCommentEnd_head? (cs : List Char) : (escapeCommentEnd cs).head? = cs.head? := by
  fun_cases escapeCommentEnd <;> rfl

theorem noEnd_escapeCommentEnd (cs : List Char) : NoEnd (escapeCommentEnd cs) := by
  fun_induction escapeCommentEnd with
  | case1 => exact .nil
  | case2 rest ih =>
    have hslash : NoEnd ('/' :: escapeCommentEnd rest) := ih.cons (by simp)
    exact (hslash.cons (by simp)).cons (by simp)
  | case3 c rest hpattern ih =>
    refine ih.cons ?_
    rintro rfl hhead
    rw [escapeCommentEnd_head?] at hhead
    obtain ⟨tail, rfl⟩ := List.head?_eq_some_iff.mp hhead
    exact hpattern tail rfl rfl

theorem mem_escapeCommentEnd {c : Char} {cs : List Char} (h : c ∈ escapeCommentEnd cs) :
    c ∈ cs ∨ c = '\\' := by
  fun_induction escapeCommentEnd with
  | case1 => cases h
  | case2 rest ih =>
    simp only [List.mem_cons] at h ⊢
    tauto
  | case3 c rest hpattern ih =>
    simp only [List.mem_cons] at h ⊢
    tauto

namespace Text

/-- What stands before the blanks at the end of a text is a line, if there is anything. -/
theorem isLine_trimEnd {s : String} (hfeed : '\n' ∉ s.toList)
    (hsolid : ∃ c ∈ s.toList, isBlank c = false) : IsLine (trimEnd s) := by
  have htrim : (trimEnd s).toList = s.toList.rdropWhile isBlank := String.toList_ofList
  have hne : s.toList.rdropWhile isBlank ≠ [] := by
    rw [Ne, List.rdropWhile_eq_nil_iff, not_forall₂]
    obtain ⟨c, hc, hblank⟩ := hsolid
    exact ⟨c, hc, by simp [hblank]⟩
  refine ⟨_, _, htrim.trans (List.dropLast_append_getLast hne).symm, ?_, ?_⟩
  · have hfront := trimEnd_prefix s
    exact fun hmem => hfeed (hfront.subset hmem)
  · intro hreturn
    refine List.rdropWhile_last_not isBlank s.toList hne ?_
    rw [hreturn]
    decide

end Text

/-- The line that stands for a line of the documentation. -/
theorem isLine_docLine {line : String} (h : '\n' ∉ line.toList) : Text.IsLine (docLine line) := by
  refine Text.isLine_trimEnd ?_ ⟨'*', by simp, by decide⟩
  simp only [String.toList_append, String.toList_ofList, List.mem_append, not_or]
  refine ⟨by decide, fun hmem => ?_⟩
  rcases mem_escapeCommentEnd hmem with hmem | hmem
  · exact h hmem
  · exact absurd hmem (by decide)

theorem noEnd_docLine (line : String) : NoEnd (docLine line).toList := by
  have hfront := Text.trimEnd_prefix (" * " ++ String.ofList (escapeCommentEnd line.toList))
  refine NoEnd.of_front ?_ hfront
  have hchars : (" * " ++ String.ofList (escapeCommentEnd line.toList)).toList =
      ' ' :: '*' :: ' ' :: escapeCommentEnd line.toList := by simp
  have hblank : NoEnd (' ' :: escapeCommentEnd line.toList) :=
    (noEnd_escapeCommentEnd _).cons (by simp)
  rw [hchars]
  exact (hblank.cons (by simp)).cons (by simp)

/-! ## Whole comments -/

theorem notMem_replicate {depth : Nat} {c : Char} (h : c ≠ ' ') :
    c ∉ (Text.replicate depth indentUnit).toList := by
  induction depth with
  | zero => exact List.not_mem_nil
  | succ depth ih =>
    rw [replicate_add, String.toList_append, List.mem_append, not_or]
    refine ⟨ih, ?_⟩
    change c ∉ [' ', ' ']
    simp [h]

theorem NoEnd.indented {line : String} (h : NoEnd line.toList) (depth : Nat) :
    NoEnd (indented depth line).toList := by
  rw [SchemaTypes.indented]
  split
  · exact .nil
  · rw [String.toList_append]
    exact h.append_of_notMem (notMem_replicate (by decide))

theorem Text.IsLine.indented {line : String} (h : Text.IsLine line) (depth : Nat) :
    Text.IsLine (indented depth line) := by
  rw [SchemaTypes.indented]
  split
  · next hempty =>
    obtain ⟨init, c, hchars, -⟩ := h
    simp [hempty] at hchars
  · exact h.append (notMem_replicate (by decide))

/-- Lines that are joined end no comment if none of them does. -/
theorem noEnd_join : ∀ {lines : List String}, (∀ line ∈ lines, NoEnd line.toList) →
    NoEnd (Text.join "\n" lines).toList
  | [], _ => .nil
  | [line], h => h line List.mem_cons_self
  | line :: next :: rest, h => by
    have hrest : NoEnd (Text.join "\n" (next :: rest)).toList :=
      noEnd_join fun other hother => h other (List.mem_cons_of_mem line hother)
    have hfeed : NoEnd ('\n' :: (Text.join "\n" (next :: rest)).toList) := hrest.cons (by simp)
    rw [Text.join_cons (List.cons_ne_nil next rest)]
    simp only [String.toList_append, List.append_assoc]
    exact (h line List.mem_cons_self).append hfeed (by simp)

/-- The comment that is ended by the last of its lines. -/
theorem closesAtEnd_join {front : List String} {stem : String} (hne : front ≠ [])
    (hfront : ∀ line ∈ front, NoEnd line.toList) (hstem : NoEnd (stem ++ "*").toList) :
    ClosesAtEnd (Text.join "\n" (front ++ [stem ++ "*/"])) := by
  have hjoin : ∀ last, Text.join "\n" (front ++ [last]) = Text.join "\n" front ++ "\n" ++ last :=
    fun last => Text.join_append hne (List.cons_ne_nil last [])
  have hchars : (Text.join "\n" (front ++ [stem ++ "*"])).toList =
      ((Text.join "\n" front).toList ++ '\n' :: stem.toList) ++ ['*'] := by
    rw [hjoin]
    simp
  have hopen : NoEnd (Text.join "\n" (front ++ [stem ++ "*"])).toList := by
    refine noEnd_join fun line hline => ?_
    rcases List.mem_append.mp hline with hline | hline
    · exact hfront line hline
    · rw [List.mem_singleton.mp hline]
      exact hstem
  rw [hchars] at hopen
  refine hopen.closesAtEnd ?_
  rw [hjoin]
  simp

namespace Code

theorem linesAllAt_docComment (depth : Nat) (doc : String) :
    linesAllAt depth (docComment doc) = indented depth "/**" ::
      (Text.lines doc).map (fun line => indented depth (docLine line)) ++
        [indented depth " */"] := by
  have hcode : docComment doc =
      ("/**" :: (Text.lines doc).map docLine ++ [" */"]).map Code.line := by
    simp [docComment]
  rw [hcode, linesAllAt_map_line]
  simp

theorem isLine_docComment {depth : Nat} {doc : String} : ∀ line ∈ linesAllAt depth (docComment doc),
    Text.IsLine line := by
  intro line hline
  simp only [linesAllAt_docComment, List.cons_append, List.mem_cons, List.mem_append,
    List.mem_map, List.not_mem_nil, or_false] at hline
  rcases hline with rfl | ⟨given, hgiven, rfl⟩ | rfl
  · exact Text.IsLine.indented ⟨['/', '*'], '*', rfl, by decide, by decide⟩ depth
  · exact (isLine_docLine (Text.notMem_of_mem_lines hgiven)).indented depth
  · exact Text.IsLine.indented ⟨[' ', '*'], '/', rfl, by decide, by decide⟩ depth

/-- A comment ends with its last line. -/
theorem closesAtEnd_docComment (depth : Nat) (doc : String) :
    ClosesAtEnd (Text.join "\n" (linesAllAt depth (docComment doc))) := by
  have hlast : indented depth " */" = Text.replicate depth indentUnit ++ " " ++ "*/" := by
    rw [indented, if_neg (by decide), String.append_assoc]
    rfl
  rw [linesAllAt_docComment, hlast]
  refine closesAtEnd_join (List.cons_ne_nil _ _) ?_ ?_
  · intro line hline
    rcases List.mem_cons.mp hline with rfl | hline
    · exact NoEnd.indented (by decide) depth
    · obtain ⟨given, -, rfl⟩ := List.mem_map.mp hline
      exact (noEnd_docLine given).indented depth
  · rw [String.append_assoc, String.toList_append]
    exact NoEnd.append_of_notMem (by decide) (notMem_replicate (by decide))

/-- What is laid out and then indented is laid out deeper. -/
theorem map_indented_docComment (outer inner : Nat) (doc : String) :
    (linesAllAt inner (docComment doc)).map (indented outer) =
      linesAllAt (outer + inner) (docComment doc) := by
  simp only [linesAllAt_docComment, List.map_append, List.map_cons, List.map_map, List.map_nil,
    Function.comp_def, indented_indented]

end Code

/-- Documentation stays in its comment.  What is added to a buffer is a line that opens
the comment, a line for every line of the documentation, and a line that ends it, and
there is no end before this one.  When the definition with the comment in it is appended
to another buffer, the same lines follow one another there, and the comment still ends
with the last of them. -/
theorem docComment_closes {b : Buffer} (hopen : b.closed = false) (doc : String) :
    ∃ comment, b.applyAll (Code.editsAll (docComment doc)) =
        ({ b with lines := b.lines ++ comment }, none) ∧
      comment = indented b.depth "/**" ::
        (Text.lines doc).map (fun line => indented b.depth (docLine line)) ++
          [indented b.depth " */"] ∧
      ClosesAtEnd (Text.join "\n" comment) ∧
      ∀ (target : Buffer) (code : List Code), target.closed = false →
        comment <:+: Code.lines code →
        ∃ target' before after, target.append code = .ok target' ∧
          target'.lines =
            target.lines ++ before ++ comment.map (indented target.depth) ++ after ∧
          ClosesAtEnd (Text.join "\n" (comment.map (indented target.depth))) := by
  refine ⟨Code.linesAllAt b.depth (docComment doc), Buffer.applyAll_editsAll b hopen _,
    Code.linesAllAt_docComment b.depth doc, Code.closesAtEnd_docComment b.depth doc, ?_⟩
  intro target code htarget hinfix
  obtain ⟨target', happend, -⟩ := Buffer.append_ok ⟨htarget, rfl⟩ code
  obtain ⟨gap, hlines, -⟩ := Buffer.append_eq_ok happend
  obtain ⟨before, after, hkept⟩ := Text.isInfix_lines_join hinfix Code.isLine_docComment
  refine ⟨target', gap ++ before.map (indented target.depth), after.map (indented target.depth),
    happend, ?_, ?_⟩
  · rw [hlines, ← hkept]
    simp only [List.map_append, List.append_assoc]
  · rw [Code.map_indented_docComment]
    exact Code.closesAtEnd_docComment _ doc

theorem docComment_closes_stars :
    ({ depth := 1 } : Buffer).applyAll (Code.editsAll (docComment "**/ a\r\n\n/")) =
        ({ lines := ["  /**", "   * **\\/ a", "   *", "   * /", "   */"], depth := 1 }, none) ∧
      ∃ target' before after,
        ({ lines := ["\x7b"], depth := 2 } : Buffer).append
          [.block "class" (docComment "**/ a\r\n\n/") ""] = .ok target' ∧
        target'.lines = ["\x7b"] ++ before ++
          ["      /**", "       * **\\/ a", "       *", "       * /", "       */"] ++ after ∧
        ClosesAtEnd (Text.join "\n"
          ["      /**", "       * **\\/ a", "       *", "       * /", "       */"]) := by
  obtain ⟨comment, happly, hcomment, -, hmoved⟩ :=
    docComment_closes (rfl : ({ depth := 1 } : Buffer).closed = false) "**/ a\r\n\n/"
  have hlines : comment = ["  /**", "   * **\\/ a", "   *", "   * /", "   */"] := by
    rw [hcomment]
    decide +kernel
  subst hlines
  refine ⟨happly, ?_⟩
  exact hmoved { lines := ["\x7b"], depth := 2 } [.block "class" (docComment "**/ a\r\n\n/") ""] rfl
    ⟨["class"], [""], by decide +kernel⟩

end SchemaTypes
