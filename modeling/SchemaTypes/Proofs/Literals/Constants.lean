import SchemaTypes.Proofs.Code.SourceFile
import SchemaTypes.Proofs.Lines
import SchemaTypes.Proofs.Literals.Reading
import SchemaTypes.Proofs.Outcome

/-!
# Literals in constants

The code of a definition is written into a buffer as one text, which is split
into lines again.  A line without a line feed comes out of this as it went in
(`Text.sublist_lines_join`), so it is only indented.  This is how the constant
of an enum keeps its literals: each member whose name and string hold no line
feed is one line of the buffer, and the union of literals is the end of one.

A line feed in a string is not escaped.  Its literal is none, and the line of
its member is split in two.
-/

namespace SchemaTypes

/-! ## Strings of an enum -/

/-- The string that an entry stands for, if it stands for one.  An entry without a value
stands for its own name. -/
def EnumEntry.text? (name : String) (entry : EnumEntry) : Option String :=
  match entry.value with
  | none => some name
  | some (.string text) => some text
  | some _ => none

namespace Literal

theorem ofEntry_of_text? {name text : String} {entry : EnumEntry}
    (h : entry.text? name = some text) : ofEntry name entry = Naming.quote text := by
  rcases entry with ⟨value, doc⟩
  cases value with
  | none =>
    cases h
    rfl
  | some value =>
    cases value with
    | string s =>
      cases h
      rfl
    | _ => cases h

/-- The strings that the entries of an enum stand for, by name. -/
def texts (entries : Table EnumEntry) : Table String :=
  entries.filterMap fun entry => (entry.2.text? entry.1).map fun text => (entry.1, text)

/-- The line of a member that stands for a string. -/
def memberLine (name text : String) : String :=
  Naming.propertyKey name ++ ": " ++ Naming.quote text ++ ","

theorem memberLine_ne_empty (name text : String) : memberLine name text ≠ "" := by
  simp [memberLine, String.append_eq_empty_iff]

/-- The union of the literals of strings. -/
def textUnion (texts : Table String) : String :=
  union (texts.map fun entry => (entry.1, Naming.quote entry.2))

theorem ofEntries_of_texts {entries : Table EnumEntry}
    (h : ∀ entry ∈ entries, ∃ text, entry.2.text? entry.1 = some text) :
    union (EnumMember.literals (EnumMember.ofEntries entries)) = textUnion (texts entries) := by
  have hmap : EnumMember.literals (EnumMember.ofEntries entries) =
      (texts entries).map fun entry => (entry.1, Naming.quote entry.2) := by
    induction entries with
    | nil => rfl
    | cons entry rest ih =>
      obtain ⟨text, htext⟩ := h entry List.mem_cons_self
      have hrest := ih fun e he => h e (List.mem_cons_of_mem _ he)
      simp only [EnumMember.literals, EnumMember.ofEntries, texts, List.map_cons,
        List.filterMap_cons, htext, Option.map_some, ofEntry_of_text? htext] at hrest ⊢
      rw [hrest]
  rw [hmap]
  rfl

/-- Members that stand for strings have a line each. -/
theorem memberLines_sublist (entries : Table EnumEntry) :
    ((texts entries).map fun entry => indented 1 (memberLine entry.1 entry.2)).Sublist
      (Code.linesAllAt 1 ((EnumMember.ofEntries entries).flatMap EnumMember.code)) := by
  induction entries with
  | nil => exact List.nil_sublist _
  | cons entry rest ih =>
    simp only [EnumMember.ofEntries, List.map_cons, List.flatMap_cons, EnumMember.code,
      Code.linesAllAt_append, texts, List.filterMap_cons] at ih ⊢
    cases htext : entry.2.text? entry.1 with
    | none => exact ih.trans (List.sublist_append_right _ _)
    | some text =>
      have hline : [indented 1 (memberLine entry.1 text)].Sublist (Code.linesAllAt 1
          [.line (Naming.propertyKey entry.1 ++ ": " ++ ofEntry entry.1 entry.2 ++ ",")]) := by
        rw [ofEntry_of_text? htext]
        exact List.Sublist.refl _
      exact (hline.trans (List.sublist_append_right _ _)).append ih

theorem notMem_quote {text : String} (h : '\n' ∉ text.toList) :
    '\n' ∉ (Naming.quote text).toList := by
  have hescape : ∀ c ∈ text.toList, '\n' ∉ Naming.escape c := by
    intro c hc hfeed
    have hne : '\n' ≠ c := fun heq => h (heq ▸ hc)
    simp only [Naming.escape] at hfeed
    split at hfeed
    · simp at hfeed
    · split at hfeed <;> simp [hne] at hfeed
  simp only [Naming.quote, String.toList_ofList, List.mem_append, List.mem_cons, List.mem_flatMap,
    List.not_mem_nil, or_false, not_or, not_exists, not_and]
  exact ⟨⟨by decide, hescape⟩, by decide⟩

theorem isLine_memberLine {name text : String} (hname : '\n' ∉ name.toList)
    (htext : '\n' ∉ text.toList) : Text.IsLine (memberLine name text) := by
  have hkey : '\n' ∉ (Naming.propertyKey name).toList := by
    rw [Naming.propertyKey]
    split
    · exact hname
    · exact notMem_quote hname
  refine Text.IsLine.append ?_ ⟨[], ',', rfl, by decide, by decide⟩
  simp only [String.toList_append, List.mem_append, not_or]
  exact ⟨⟨hkey, by decide⟩, notMem_quote htext⟩

theorem isLine_union {texts : Table String} (h : ∀ entry ∈ texts, '\n' ∉ entry.2.toList) :
    Text.IsLine (" = " ++ textUnion texts ++ ";") := by
  have hunion : '\n' ∉ (textUnion texts).toList := by
    rw [textUnion, union]
    split
    · decide
    · intro hfeed
      rcases Text.mem_join hfeed with hglue | ⟨literal, hliteral, hmem⟩
      · exact absurd hglue (by decide)
      · rw [Table.entries, List.map_map] at hliteral
        obtain ⟨entry, hentry, rfl⟩ := List.mem_map.mp hliteral
        exact notMem_quote (h entry hentry) hmem
  refine Text.IsLine.append ?_ ⟨[], ';', rfl, by decide, by decide⟩
  rw [String.toList_append, List.mem_append, not_or]
  exact ⟨by decide, hunion⟩

/-- The line that declares the union of the literals. -/
def unionLine (name : String) (members : List EnumMember) : String :=
  "export type " ++ name ++ " = " ++ union (EnumMember.literals members) ++ ";"

/-- The lines of the constant of an enum, between other code. -/
theorem lines_enumCode (before after : List Code) (name : String) (members : List EnumMember) :
    Code.lines (before ++ enumCode name members ++ after) =
      Code.lines before ++ ((("export const " ++ name ++ " = \x7b") ::
        Code.linesAllAt 1 (members.flatMap EnumMember.code)) ++
          ["\x7d as const;", unionLine name members]) ++ Code.lines after := by
  have hconstant : Code.lines (enumCode name members) =
      (("export const " ++ name ++ " = \x7b") ::
        Code.linesAllAt 1 (members.flatMap EnumMember.code)) ++
          ["\x7d as const;", unionLine name members] := by
    simp only [enumCode, Code.lines, Code.linesAllAt, Code.linesAt, indented_zero]
    rw [List.append_assoc]
    rfl
  rw [Code.lines_append, Code.lines_append, hconstant]

theorem members_sublist (before after : List Code) (name : String) (members : List EnumMember) :
    (Code.linesAllAt 1 (members.flatMap EnumMember.code)).Sublist
      (Code.lines (before ++ enumCode name members ++ after)) := by
  rw [lines_enumCode]
  refine .trans ?_ ((List.sublist_append_right _ _).trans (List.sublist_append_left _ _))
  exact (List.sublist_cons_self _ _).trans (List.sublist_append_left _ _)

theorem closing_mem (before after : List Code) (name : String) (members : List EnumMember) :
    "\x7d as const;" ∈ Code.lines (before ++ enumCode name members ++ after) := by
  rw [lines_enumCode]
  refine List.mem_append_left _ (List.mem_append_right _ (List.mem_append_right _ ?_))
  exact List.mem_cons_self

theorem unionLine_mem (before after : List Code) (name : String) (members : List EnumMember) :
    unionLine name members ∈ Code.lines (before ++ enumCode name members ++ after) := by
  rw [lines_enumCode]
  refine List.mem_append_left _ (List.mem_append_right _ (List.mem_append_right _ ?_))
  exact List.mem_cons_of_mem _ List.mem_cons_self

/-- Members whose names and strings hold no line feed come through a text in one piece. -/
theorem memberLines_kept (before after : List Code) (name : String) {entries : Table EnumEntry}
    {kept : Table String} (h : kept.Sublist (texts entries))
    (hkept : ∀ entry ∈ kept, '\n' ∉ entry.1.toList ∧ '\n' ∉ entry.2.toList) :
    (kept.map fun entry => indented 1 (memberLine entry.1 entry.2)).Sublist
      (Text.lines (Text.join "\n"
        (Code.lines (before ++ enumCode name (EnumMember.ofEntries entries) ++ after)))) := by
  have hcode := members_sublist before after name (EnumMember.ofEntries entries)
  refine Text.sublist_lines_join
    (((h.map _).trans (memberLines_sublist entries)).trans hcode) fun s hs => ?_
  obtain ⟨entry, hentry, rfl⟩ := List.mem_map.mp hs
  obtain ⟨hname, htext⟩ := hkept entry hentry
  rw [indented_one (memberLine_ne_empty _ _)]
  exact .append (by decide) (isLine_memberLine hname htext)

/-- So does the union of the literals, whatever the name of the enum is. -/
theorem textUnion_kept (before after : List Code) (name : String) {entries : Table EnumEntry}
    (h : ∀ entry ∈ entries, ∃ text, entry.2.text? entry.1 = some text ∧ '\n' ∉ text.toList) :
    ∃ line ∈ Text.lines (Text.join "\n"
        (Code.lines (before ++ enumCode name (EnumMember.ofEntries entries) ++ after))),
      (" = " ++ textUnion (texts entries) ++ ";").toList <:+ line.toList := by
  have hunion : union (EnumMember.literals (EnumMember.ofEntries entries)) =
      textUnion (texts entries) :=
    ofEntries_of_texts fun entry hentry => (h entry hentry).imp fun _ htext => htext.1
  have hline : Text.IsLine (" = " ++ textUnion (texts entries) ++ ";") := by
    refine isLine_union fun entry hentry => ?_
    obtain ⟨e, he, hsome⟩ := List.mem_filterMap.mp hentry
    obtain ⟨text, htext, hfeed⟩ := h e he
    rw [htext] at hsome
    cases hsome
    exact hfeed
  have hmem := unionLine_mem before after name (EnumMember.ofEntries entries)
  have hends : unionLine name (EnumMember.ofEntries entries) =
      "export type " ++ name ++ (" = " ++ textUnion (texts entries) ++ ";") := by
    delta unionLine
    rw [hunion]
    simp only [String.append_assoc]
  rw [hends] at hmem
  exact Text.exists_line_of_mem hline hmem

end Literal

/-! ## Literals in files -/

/-- A constant that is appended to a buffer keeps its literals. -/
theorem Buffer.append_constant {b b' : Buffer} {before after : List Code} {name : String}
    {entries : Table EnumEntry}
    (h : b.append (before ++ enumCode name (EnumMember.ofEntries entries) ++ after) = .ok b') :
    ∃ added, added ≠ [] ∧ b'.lines = b.lines ++ added ∧
      (∀ kept : Table String, kept.Sublist (Literal.texts entries) →
        (∀ entry ∈ kept, '\n' ∉ entry.1.toList ∧ '\n' ∉ entry.2.toList) →
        (kept.map fun entry =>
          indented (b.depth + 1) (Literal.memberLine entry.1 entry.2)).Sublist added) ∧
      ((∀ entry ∈ entries, ∃ text, entry.2.text? entry.1 = some text ∧ '\n' ∉ text.toList) →
        ∃ line ∈ added,
          (" = " ++ Literal.textUnion (Literal.texts entries) ++ ";").toList <:+ line.toList) := by
  obtain ⟨gap, hlines, -⟩ := Buffer.append_eq_ok h
  refine ⟨_, ?_, by rw [hlines, List.append_assoc], ?_, ?_⟩
  · have hclosing : "" ++ "\x7d as const;" ∈
        Code.lines (before ++ enumCode name (EnumMember.ofEntries entries) ++ after) :=
      Literal.closing_mem before after name _
    obtain ⟨line, hline, -⟩ :=
      Text.exists_line_of_mem ⟨"\x7d as const".toList, ';', rfl, by decide, by decide⟩ hclosing
    exact List.append_ne_nil_of_right_ne_nil gap (List.ne_nil_of_mem (List.mem_map_of_mem hline))
  · intro kept hkept hfeeds
    have hindented : (kept.map fun entry =>
        indented (b.depth + 1) (Literal.memberLine entry.1 entry.2)) =
          (kept.map fun entry => indented 1 (Literal.memberLine entry.1 entry.2)).map
            (indented b.depth) := by
      rw [List.map_map]
      refine List.map_congr_left fun entry _ => ?_
      rw [Function.comp_apply, indented_indented]
    have hmembers :=
      (Literal.memberLines_kept before after name hkept hfeeds).map (indented b.depth)
    rw [← hindented] at hmembers
    exact hmembers.trans (List.sublist_append_right _ _)
  · intro htexts
    obtain ⟨line, hline, hsuffix⟩ := Literal.textUnion_kept before after name htexts
    exact ⟨indented b.depth line, List.mem_append_right _ (List.mem_map_of_mem hline),
      isSuffix_indented hsuffix⟩

/-- Literals are faithful as far as line ends allow.  A literal is read as the text it
was written for, up to its last quote, exactly if the text holds no line feed and no
carriage return, and different texts are different strings.  When the constant of an
enum is appended to a section of a file, every member whose name and string hold no
line feed is one line of the section, in the order of the members, and where this is
so for all strings, their union ends a line.  The lines of the section are part of the
text of the file. -/
theorem literals_faithful {file file' : SourceFile} {t : Section} {before after : List Code}
    {name : String} {entries : Table EnumEntry}
    (h : file.append t (before ++ enumCode name (EnumMember.ofEntries entries) ++ after) =
      .ok file') :
    (∀ (text : String) (rest : List Char),
      Literal.read? ((Naming.quote text).toList ++ rest) =
        if text.toList.all Literal.holds then some (Literal.stringOf text, rest) else none) ∧
    Function.Injective Literal.stringOf ∧
    ∃ added, (file'.buffer t).lines = (file.buffer t).lines ++ added ∧
      (∀ kept : Table String, kept.Sublist (Literal.texts entries) →
        (∀ entry ∈ kept, '\n' ∉ entry.1.toList ∧ '\n' ∉ entry.2.toList) →
        (kept.map fun entry => indented ((file.buffer t).depth + 1)
          (Naming.propertyKey entry.1 ++ ": " ++ Naming.quote entry.2 ++ ",")).Sublist added) ∧
      ((∀ entry ∈ entries, ∃ text, entry.2.text? entry.1 = some text ∧ '\n' ∉ text.toList) →
        ∃ line ∈ added,
          (" = " ++ Literal.textUnion (Literal.texts entries) ++ ";").toList <:+ line.toList) ∧
      ((file'.buffer t).joined "\n").toList <:+: file'.typeLayer.toList := by
  refine ⟨Literal.read?_quote, Literal.stringOf_injective, ?_⟩
  rw [SourceFile.append] at h
  obtain ⟨b, hb, h⟩ := Except.bind_eq_ok h
  cases h
  obtain ⟨added, hne, hlines, hmembers, hunion⟩ := Buffer.append_constant hb
  have hbuffer : (file.setBuffer b t).buffer t = b := by
    rw [SourceFile.buffer_setBuffer, if_pos rfl]
  rw [hbuffer]
  refine ⟨added, hlines, hmembers, hunion, ?_⟩
  have hnonempty : ((file.setBuffer b t).buffer t).lines ≠ [] := by
    rw [hbuffer, hlines]
    exact List.append_ne_nil_of_right_ne_nil _ hne
  have htext := SourceFile.section_infix_typeLayer (SourceFile.has_setBuffer b (Or.inl rfl))
    hnonempty
  rwa [hbuffer] at htext

/-- An enum of a string that is escaped, and a name that is no identifier. -/
def moods : Table EnumEntry :=
  [("fine", ⟨some (.string "it's \\o/"), none⟩), ("so-so", ⟨none, some "Between."⟩)]

/-- A file that nothing was written to. -/
def shopFile : SourceFile := { path := Path.ofDotted "shop" }

theorem literals_faithful_moods :
    ∃ file', shopFile.append .enums ([] ++ enumCode "Mood" (EnumMember.ofEntries moods) ++ []) =
        .ok file' ∧
      Literal.read? (Naming.quote "it's \\o/").toList = some (Literal.stringOf "it's \\o/", []) ∧
      ["  fine: 'it\\'s \\\\o/',", "  'so-so': 'so-so',"].Sublist (file'.buffer .enums).lines ∧
      ∃ line ∈ (file'.buffer .enums).lines,
        " = 'it\\'s \\\\o/' | 'so-so';".toList <:+ line.toList := by
  obtain ⟨file', hfile⟩ := Except.exists_eq_ok
    (x := shopFile.append .enums ([] ++ enumCode "Mood" (EnumMember.ofEntries moods) ++ []))
    (by decide +kernel)
  obtain ⟨hread, -, added, hlines, hmembers, hunion, -⟩ := literals_faithful hfile
  have hliteral := hread "it's \\o/" []
  rw [List.append_nil, if_pos (by decide)] at hliteral
  have hstrings : ∀ entry ∈ moods, ∃ text, entry.2.text? entry.1 = some text ∧
      '\n' ∉ text.toList := by
    rw [moods, List.forall_mem_cons, List.forall_mem_singleton]
    exact ⟨⟨_, rfl, by decide⟩, ⟨_, rfl, by decide⟩⟩
  have hsublist := hmembers (Literal.texts moods) (.refl _) (by decide)
  obtain ⟨line, hline, hsuffix⟩ := hunion hstrings
  refine ⟨file', hfile, hliteral, ?_, line, ?_, hsuffix⟩
  · rw [hlines]
    exact hsublist.trans (List.sublist_append_right _ _)
  · rw [hlines]
    exact List.mem_append_right _ hline

/-- A line feed in a string ends the line inside of its literal, which is none, and the
rest of it is indented. -/
theorem mood_broken :
    Literal.read? (Naming.quote "up\ndown").toList = none ∧
      ((SourceFile.openedNamespace "Cats").append
        (enumCode "Mood" (EnumMember.ofEntries [("mixed", ⟨some (.string "up\ndown"), none⟩)]))).map
          Buffer.lines =
        .ok ["export namespace Cats \x7b",
          "  export const Mood = \x7b", "    mixed: 'up", "  down',", "  \x7d as const;",
          "  export type Mood = 'up", "  down';"] := by
  constructor
  · decide +kernel
  · decide +kernel

end SchemaTypes
