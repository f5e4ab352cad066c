import SchemaTypes.Proofs.Access.Leaves
import SchemaTypes.Proofs.Declaration

/-!
# Properties in printed class bodies

A class body is printed as the code of its properties, one after the other, and of static
members.  The lines of a property are those of the leaves of its type, each inside the blocks
of the structures that lead to it, and the documentation stands before them
(`Property.IsPrinted`).  No line of a static member declares a property, whatever the name is
(`Code.Declares.not_static`).  So what a class body declares can be told from its properties
(`Aspect.prints`, `prints_event`).
-/

namespace SchemaTypes

/-! ## What stands in blocks -/

/-- What stands in a block. -/
def Code.inside : Code → List Code
  | .line _ => []
  | .block _ body _ => body

theorem docCode_inside (doc : Option String) : (docCode doc).flatMap Code.inside = [] := by
  cases doc with
  | none => rfl
  | some doc => simp [docCode, docComment, Code.inside, List.flatMap_eq_nil_iff]

/-! ## Printed properties -/

/-- The lines of a property that neither enter nor leave a block: one for each leaf of its type,
in the way of the mode. -/
def Property.leafLines (c : Config) (style : PropertyStyle) (p : Property) : List BlockLine :=
  p.type.leaves.map fun leaf =>
    match c.inlineMode with
    | .flat => ⟨[], leaf.flatLine c style p.name (p.typeText c)⟩
    | .structured => leaf.blockLine c style p.name (p.typeText c)

/-- Code is what is printed for a property: its documentation, and the lines of its leaves. -/
def Property.IsPrinted (c : Config) (style : PropertyStyle) (p : Property) (codes : List Code) :
    Prop :=
  ∃ lines, codes = docCode p.doc ++ lines ∧ Code.blockLinesAll lines = p.leafLines c style

/-- A class body is printed with the properties in their order, and nothing else in it declares a
property. -/
def PrintsProperties (c : Config) (style : PropertyStyle) (properties : List Property)
    (body : List Code) : Prop :=
  ∃ printed others, body = List.flatten printed ++ others ∧
    List.Forall₂ (Property.IsPrinted c style) properties printed ∧
    ∀ code ∈ others, ∀ key path, ¬ Code.Declares style (key :: path) code

namespace Code

theorem blockLinesAll_map_line {α : Type} (text : α → String) (l : List α) :
    blockLinesAll (l.map fun x => .line (text x)) = l.map fun x => ⟨[], text x⟩ := by
  induction l with
  | nil => rfl
  | cons x rest ih => simp [blockLinesAll, blockLines, ih]

end Code

theorem Property.code_isPrinted (c : Config) (style : PropertyStyle) (p : Property) :
    p.IsPrinted c style (p.code c style) := by
  refine ⟨_, rfl, ?_⟩
  rw [leafLines, TypeInfo.propertyCode]
  cases c.inlineMode with
  | flat => rw [TypeInfo.flatProperty_eq, Code.blockLinesAll_map_line]
  | structured =>
    rw [Code.blockLinesAll, TypeInfo.nestedProperty_blockLines, Code.blockLinesAll,
      List.append_nil]

theorem prints_properties (c : Config) (style : PropertyStyle) (properties : List Property)
    {others : List Code}
    (h : ∀ code ∈ others, ∀ key path, ¬ Code.Declares style (key :: path) code) :
    PrintsProperties c style properties
      (properties.flatMap (Property.code c style) ++ others) := by
  refine ⟨properties.map (Property.code c style), others, by rw [List.flatMap_def], ?_, h⟩
  rw [List.forall₂_map_right_iff, List.forall₂_same]
  exact fun p _ => p.code_isPrinted c style

/-! ## Static members -/

/-- The words before a static member. -/
def staticKeywords : List String := ["static readonly ", "declare static readonly "]

/-- A key that a mark follows does not start with the words of a static member. -/
theorem not_prefix_propertyKey {name : String} {mark : Char} {rest : List Char}
    (hmark : mark ∉ "static readonly ".toList) :
    ¬ "static readonly ".toList <+: (Naming.propertyKey name).toList ++ mark :: rest := by
  have hblanks : ' ' ∈ "static readonly ".toList := by decide
  rintro ⟨more, hmore⟩
  rw [Naming.propertyKey] at hmore
  split at hmore
  · next hidentifier =>
    have hkey : ' ' ∉ name.toList := fun hmem => by
      have hpart := List.all_eq_true.mp (Naming.all_isIdentifierPart hidentifier) ' ' hmem
      exact absurd hpart (by decide +kernel)
    rcases List.append_eq_append_iff.mp hmore with ⟨after, hname, -⟩ | ⟨after, hwhole, hafter⟩
    · exact hkey (hname ▸ List.mem_append_left _ hblanks)
    · -- The mark is one of the characters of the words.
      cases after with
      | nil =>
        rw [List.append_nil] at hwhole
        exact hkey (hwhole ▸ hblanks)
      | cons x after =>
        obtain ⟨rfl, -⟩ := List.cons.inj hafter
        exact hmark (hwhole ▸ List.mem_append_right _ List.mem_cons_self)
  · rw [Naming.quote] at hmore
    simp at hmore

namespace Code

/-- What declares a property starts with its name. -/
theorem Declares.opening {style : PropertyStyle} {key : String} {path : List String}
    {code : Code} (h : Declares style (key :: path) code) :
    (style.opening key).toList <+: code.opening.toList := by
  cases h with
  | line =>
    simp only [PropertyStyle.plain, Code.opening, String.toList_append, List.append_assoc]
    exact List.prefix_append _ _
  | block | member =>
    simp only [Code.opening, String.toList_append]
    exact List.prefix_append _ _

/-- A property of a class is no static member, whatever its name is. -/
theorem Declares.not_static {c : Config} {key : String} {path : List String} {code : Code}
    (h : Declares (Aspect.style c) (key :: path) code) :
    ∀ keyword ∈ staticKeywords, ¬ keyword.toList <+: code.opening.toList := by
  obtain ⟨rest, hrest⟩ := h.opening
  have hopening : ∃ mark more, (mark = '?' ∨ mark = ':') ∧ code.opening.toList =
      "declare ".toList ++ ((Naming.propertyKey key).toList ++ mark :: more) := by
    rw [← hrest, PropertyStyle.opening, Aspect.style, separator]
    split
    · exact ⟨'?', ':' :: ' ' :: rest, Or.inl rfl, by simp⟩
    · exact ⟨':', ' ' :: rest, Or.inr rfl, by simp⟩
  obtain ⟨mark, more, hmark, hopening⟩ := hopening
  have hother : mark ∉ "static readonly ".toList := by
    rcases hmark with rfl | rfl <;> decide
  intro keyword hkeyword hprefix
  rw [hopening] at hprefix
  simp only [staticKeywords, List.mem_cons, List.not_mem_nil, or_false] at hkeyword
  rcases hkeyword with rfl | rfl
  · exact absurd (List.cons_prefix_cons.mp hprefix).1 (by decide)
  · have hsplit : "declare static readonly ".toList =
        "declare ".toList ++ "static readonly ".toList := rfl
    rw [hsplit, List.prefix_append_right_inj] at hprefix
    exact not_prefix_propertyKey hother hprefix

end Code

/-! ## Class bodies -/

/-- What stands in the class that the function of a definition returns. -/
def Aspect.body (c : Config) (a : Aspect) : List Code :=
  ((a.code c).flatMap Code.inside).flatMap Code.inside

theorem Aspect.body_eq (c : Config) (a : Aspect) :
    a.body c = a.properties.flatMap (Property.code c (style c)) ++
      (a.constants.map constantLine ++ a.staticLines ++ [a.actionCode c]) := by
  rw [body, code, List.flatMap_append, docCode_inside]
  simp [Code.inside]

/-- What stands after the properties starts with the words of a static member. -/
theorem Aspect.static_of_mem {c : Config} {a : Aspect} {code : Code}
    (h : code ∈ a.constants.map constantLine ++ a.staticLines ++ [a.actionCode c]) :
    ∃ keyword ∈ staticKeywords, keyword.toList <+: code.opening.toList := by
  have hstatic : "static readonly " ∈ staticKeywords := List.mem_cons_self
  have hdeclared : "declare static readonly " ∈ staticKeywords :=
    List.mem_cons_of_mem _ List.mem_cons_self
  have hmore : ∀ {keyword text more : String}, keyword.toList <+: text.toList →
      keyword.toList <+: (text ++ more).toList := fun hprefix => by
    rw [String.toList_append]
    exact hprefix.trans (List.prefix_append _ _)
  simp only [staticLines, List.mem_append, List.mem_map, List.mem_cons, List.not_mem_nil,
    or_false] at h
  rcases h with (⟨entry, -, rfl⟩ | rfl | rfl | rfl) | rfl
  · exact ⟨_, hstatic, hmore (hmore (hmore (hmore (List.prefix_refl _))))⟩
  · exact ⟨_, hstatic, hmore (hmore (by decide))⟩
  · exact ⟨_, hdeclared, hmore (hmore (hmore (hmore (by decide))))⟩
  · exact ⟨_, hdeclared, hmore (hmore (hmore (hmore (by decide))))⟩
  · refine ⟨_, hdeclared, ?_⟩
    rw [actionCode]
    split
    · exact hmore (hmore (by decide))
    · exact hmore (by decide)

/-- The class body that a function returns has the properties and static members. -/
theorem Aspect.prints (c : Config) (a : Aspect) :
    PrintsProperties c (style c) a.properties (a.body c) := by
  rw [body_eq]
  refine prints_properties c (style c) a.properties fun code hcode key path hdeclares => ?_
  obtain ⟨keyword, hkeyword, hprefix⟩ := static_of_mem hcode
  exact hdeclares.not_static keyword hkeyword hprefix

/-- The class of an event has its properties and nothing else. -/
theorem prints_event (c : Config) (name : String) (doc : Option String) (full : String)
    (properties : List Property) :
    PrintsProperties c ⟨"declare ", false⟩ properties
      ((eventCode c name doc full properties).flatMap Code.inside) := by
  have hbody : (eventCode c name doc full properties).flatMap Code.inside =
      properties.flatMap (Property.code c ⟨"declare ", false⟩) ++ [] := by
    rw [eventCode, List.flatMap_append, docCode_inside]
    simp [Code.inside, defineProperty]
  rw [hbody]
  exact prints_properties c _ properties (List.forall_mem_nil _)

end SchemaTypes
