import SchemaTypes.Proofs.Access.Layout
import SchemaTypes.Proofs.Declaration
import SchemaTypes.Proofs.Text

/-!
# Types in printed code

A type stands in another one at any depth of arrays and structures (`TypeInfo.Holds`).  Where
it is not declared in place itself, it is written in one piece, and its text is part of the
text of the type that holds it.  So it is part of a line of every declaration that mentions
this type, in the flat and in the structured mode (`Declaration.shows`).
-/

namespace SchemaTypes

open Text (isInfix_append_left isInfix_append_right)

/-! ## What declarations mention -/

/-- The types that an operation takes and gives. -/
def Signature.types (s : Signature) : List TypeInfo :=
  s.parameters.map (·.type) ++ s.result.toList

/-- The types of the properties of a class body (`own`), or all the other types of a
declaration. -/
def Declaration.types (own : Bool) : Declaration → List TypeInfo
  | .aspect a =>
      if own then a.properties.map (·.type) else a.actions.flatMap fun b => b.signature.types
  | .typeAlias _ _ type => if own then [] else [type]
  | .operation _ _ signature => if own then [] else signature.types
  | .event _ _ _ properties => if own then [] else properties.map (·.type)
  | _ => []

/-! ## Texts in code -/

theorem isInfix_nullable {s text : String} (notNull : Bool) (h : s.toList <:+: text.toList) :
    s.toList <:+: (nullable notNull text).toList := by
  rw [nullable]
  split
  · exact h
  · exact isInfix_append_right _ h

theorem isInfix_objectType {s field : String} {fields : List String} (hmem : field ∈ fields)
    (h : s.toList <:+: field.toList) : s.toList <:+: (objectType fields).toList := by
  rw [objectType, if_neg (by simpa using List.ne_nil_of_mem hmem)]
  exact isInfix_append_right _ (isInfix_append_left _ (h.trans (Text.isInfix_join_of_mem hmem)))

/-- A piece of code shows a text: one of its lines has the text in it. -/
inductive Code.Shows (text : String) : Code → Prop
  | line {s : String} : text.toList <:+: s.toList → Shows text (.line s)
  | opening {opening closing : String} {body : List Code} : text.toList <:+: opening.toList →
      Shows text (.block opening body closing)
  | body {opening closing : String} {body : List Code} {code : Code} : code ∈ body →
      Shows text code → Shows text (.block opening body closing)

theorem isInfix_indented {text s : String} (depth : Nat) (h : text.toList <:+: s.toList) :
    text.toList <:+: (indented depth s).toList := by
  rw [indented]
  split
  · next hempty => rwa [hempty] at h
  · exact isInfix_append_left _ h

theorem Code.Shows.exists_line {text : String} {code : Code} (h : code.Shows text) (depth : Nat) :
    ∃ line ∈ linesAt depth code, text.toList <:+: line.toList := by
  induction h generalizing depth with
  | line hs => exact ⟨_, List.mem_singleton.mpr rfl, isInfix_indented depth hs⟩
  | opening hs => exact ⟨_, opening_mem_linesAt depth _, isInfix_indented depth hs⟩
  | body hmem _ ih =>
    obtain ⟨line, hline, htext⟩ := ih (depth + 1)
    refine ⟨line, ?_, htext⟩
    rw [linesAt]
    exact List.mem_append_left _ (List.mem_cons_of_mem _ (mem_linesAllAt.mpr ⟨_, hmem, hline⟩))

/-- What a piece of code shows is part of one of the lines. -/
theorem Code.Shows.exists_mem_lines {text : String} {code : Code} {codes : List Code}
    (h : code.Shows text) (hcode : code ∈ codes) :
    ∃ line ∈ lines codes, text.toList <:+: line.toList := by
  obtain ⟨line, hline, htext⟩ := h.exists_line 0
  exact ⟨line, mem_linesAllAt.mpr ⟨code, hcode, hline⟩, htext⟩

/-! ## Types -/

namespace TypeInfo

/-- A type stands in another one, as an item of an array or as a member of a structure,
at any depth. -/
inductive Holds : TypeInfo → TypeInfo → Prop
  | self {info : TypeInfo} : Holds info info
  | item {notNull : Bool} {item held : TypeInfo} : Holds item held →
      Holds (.array notNull item) held
  | member {notNull : Bool} {members : List (String × TypeInfo)} {name : String}
      {info held : TypeInfo} : (name, info) ∈ members → Holds info held →
      Holds (.inline notNull members) held

variable {info held : TypeInfo}

theorem mem_fieldTexts {c : Config} {optional : Bool} {name : String}
    {members : List (String × TypeInfo)} (h : (name, info) ∈ members) :
    Naming.propertyKey name ++ separator optional ++ " " ++
      nullable info.notNull (info.text c) ∈ fieldTexts c optional members := by
  induction members with
  | nil => cases h
  | cons first rest ih =>
    obtain ⟨other, info'⟩ := first
    rw [fieldTexts]
    rcases List.mem_cons.mp h with heq | hrest
    · cases heq
      exact List.mem_cons_self
    · exact List.mem_cons_of_mem _ (ih hrest)

/-- The text of what a type holds is part of its text. -/
theorem Holds.isInfix_text (h : info.Holds held) (c : Config) :
    (held.text c).toList <:+: (info.text c).toList := by
  induction h with
  | self => exact List.infix_refl _
  | item _ ih =>
    rw [text]
    exact isInfix_append_right _ (isInfix_append_left _ ih)
  | member hmem _ ih =>
    rw [text]
    exact isInfix_objectType (mem_fieldTexts hmem) (isInfix_append_left _ (isInfix_nullable _ ih))

theorem Holds.anonymousText (h : info.Holds held) (hheld : held.isInline = false)
    (c : Config) : info.anonymousText c = info.text c := by
  cases h with
  | self => cases info <;> first | rfl | cases hheld
  | item | member => rfl

theorem isInfix_keyText {s text : String} (keyed : Bool) (h : s.toList <:+: text.toList) :
    s.toList <:+: (keyText keyed text).toList := by
  rw [keyText]
  split
  · exact isInfix_append_right _ (isInfix_append_left _ h)
  · exact h

theorem shows_plain {s type : String} (style : PropertyStyle) (name : String) (notNull : Bool)
    (h : s.toList <:+: type.toList) : (style.plain name type notNull).Shows s :=
  .line (isInfix_append_right _ (isInfix_append_left _ (isInfix_nullable notNull h)))

theorem flatProperty_subset {c : Config} {style : PropertyStyle} {name member : String}
    {members : List (String × TypeInfo)} (h : (member, info) ∈ members) :
    info.flatProperty c style (name ++ "_" ++ member) (info.text c) ⊆
      flatMembers c style name members := by
  induction members with
  | nil => cases h
  | cons first rest ih =>
    obtain ⟨other, info'⟩ := first
    rw [flatMembers]
    rcases List.mem_cons.mp h with heq | hrest
    · cases heq
      exact List.subset_append_left _ _
    · exact List.Subset.trans (ih hrest) (List.subset_append_right _ _)

/-- A type is shown by a property whose type holds it, in the flat mode. -/
theorem Holds.shows_flat (h : info.Holds held) (hheld : held.isInline = false) (c : Config)
    (style : PropertyStyle) (name : String) {type : String}
    (htype : (info.text c).toList <:+: type.toList) :
    ∃ code ∈ info.flatProperty c style name type, code.Shows (held.text c) := by
  induction h generalizing name type with
  | @self info =>
    have hnested : info.isNested = false := by
      cases info <;> first | rfl | cases hheld
    rw [flatProperty_of_not_nested hnested]
    exact ⟨_, List.mem_singleton.mpr rfl, shows_plain style name _ htype⟩
  | @item notNull item held hholds =>
    have htext := (@Holds.item notNull item held hholds).isInfix_text c
    rw [flatProperty_of_not_nested rfl]
    exact ⟨_, List.mem_singleton.mpr rfl, shows_plain style name _ (htext.trans htype)⟩
  | @member notNull members member info held hmem hholds ih =>
    obtain ⟨code, hcode, hshows⟩ :=
      ih hheld (name ++ "_" ++ member) (List.infix_refl (info.text c).toList)
    cases members with
    | nil => cases hmem
    | cons first rest =>
      rw [flatProperty]
      exact ⟨code, flatProperty_subset hmem hcode, hshows⟩

/-- A type is shown by a property whose type holds it, in the structured mode. -/
theorem Holds.shows_nested (h : info.Holds held) (hheld : held.isInline = false) (c : Config)
    (style : PropertyStyle) (name : String) {type : String}
    (htype : (info.text c).toList <:+: type.toList) :
    (info.nestedProperty c style name type).Shows (held.text c) := by
  induction h generalizing style name type with
  | @self info =>
    rw [nestedProperty]
    · exact shows_plain style name _ htype
    · rintro _ m ms rfl
      cases hheld
  | @item notNull item held hholds =>
    have htext := (@Holds.item notNull item held hholds).isInfix_text c
    rw [nestedProperty]
    · exact shows_plain style name _ (htext.trans htype)
    · rintro _ m ms ⟨⟩
  | @member notNull members member info held hmem hholds ih =>
    cases members with
    | nil => cases hmem
    | cons first rest =>
      rw [nestedProperty]
      exact .body (mem_nestedMembers c style.nested hmem) (ih hheld _ _ (List.infix_refl _))

end TypeInfo

/-! ## Declarations -/

/-- What stands in the class body stands in the block of the class, inside that of the
function. -/
theorem Aspect.shows_body {c : Config} {a : Aspect} {code : Code} {text : String}
    (hcode : code ∈ a.properties.flatMap (Property.code c (style c)) ++
      a.constants.map constantLine ++ a.staticLines ++ [a.actionCode c])
    (hshows : code.Shows text) : ∃ code ∈ a.code c, code.Shows text :=
  ⟨_, List.mem_append_right _ List.mem_cons_self,
    .body List.mem_cons_self (.body hcode hshows)⟩

section

variable {type held : TypeInfo} (hholds : type.Holds held) (hheld : held.isInline = false)
  (c : Config)
include hholds hheld

theorem Property.shows {p : Property} (style : PropertyStyle) (hp : p.type = type) :
    ∃ code ∈ p.code c style, code.Shows (held.text c) := by
  subst hp
  have htype : (p.type.text c).toList <:+: (p.typeText c).toList := by
    rw [typeText, hholds.anonymousText hheld, ite_self]
    exact TypeInfo.isInfix_keyText _ (List.infix_refl _)
  have hproperty : ∃ code ∈ p.type.propertyCode c style p.name (p.typeText c),
      code.Shows (held.text c) := by
    rw [TypeInfo.propertyCode]
    split
    · exact hholds.shows_flat hheld c style p.name htype
    · exact ⟨_, List.mem_singleton.mpr rfl, hholds.shows_nested hheld c style p.name htype⟩
  obtain ⟨code, hcode, hshows⟩ := hproperty
  exact ⟨code, List.mem_append_right _ hcode, hshows⟩

theorem Signature.shows {s : Signature} (htype : type ∈ s.types) :
    ∃ code ∈ s.code c, code.Shows (held.text c) := by
  have hline : ∀ {member : String}, member ∈ s.members c →
      (held.text c).toList <:+: member.toList → ∃ code ∈ s.code c, code.Shows (held.text c) :=
    fun hmember hinfix => ⟨_, List.mem_map_of_mem hmember, .line hinfix⟩
  have hanonymous : (held.text c).toList <:+: (type.anonymousText c).toList := by
    rw [hholds.anonymousText hheld]
    exact hholds.isInfix_text c
  rcases List.mem_append.mp htype with hparameter | hresult
  · obtain ⟨p, hp, rfl⟩ := List.mem_map.mp hparameter
    refine hline (List.mem_append_right _ List.mem_cons_self)
      (isInfix_append_right _ (isInfix_append_left _ ?_))
    refine isInfix_objectType (List.mem_map_of_mem hp) (isInfix_append_left _ ?_)
    exact isInfix_nullable _ (TypeInfo.isInfix_keyText _ hanonymous)
  · have hresult := Option.mem_toList.mp hresult
    refine hline (List.mem_append_right _ (List.mem_cons_of_mem _ List.mem_cons_self))
      (isInfix_append_right _ (isInfix_append_left _ ?_))
    rw [resultText, hresult]
    exact isInfix_nullable _ hanonymous

/-- What a type holds is shown by every declaration that mentions the type. -/
theorem Declaration.shows {decl : Declaration} {own : Bool} (htype : type ∈ decl.types own) :
    ∃ code ∈ decl.code c, code.Shows (held.text c) := by
  cases decl with
  | aspect a =>
    cases own with
    | true =>
      obtain ⟨p, hp, hp'⟩ := List.mem_map.mp htype
      obtain ⟨code, hcode, hshows⟩ := Property.shows hholds hheld c (Aspect.style c) hp'
      have hmem := List.mem_flatMap.mpr ⟨p, hp, hcode⟩
      exact Aspect.shows_body (by simp only [List.mem_append]; tauto) hshows
    | false =>
      obtain ⟨b, hb, htype⟩ := List.mem_flatMap.mp htype
      obtain ⟨code, hcode, hshows⟩ := Signature.shows hholds hheld c htype
      refine Aspect.shows_body (List.mem_append_right _ List.mem_cons_self) ?_
      rw [Aspect.actionCode, if_neg (by simpa using List.ne_nil_of_mem hb)]
      exact .body (List.mem_flatMap.mpr ⟨b, hb, List.mem_append_right _ List.mem_cons_self⟩)
        (.body hcode hshows)
  | typeAlias name doc found =>
    cases own with
    | true => cases htype
    | false =>
      obtain rfl := List.mem_singleton.mp htype
      exact ⟨_, List.mem_append_right _ List.mem_cons_self, .line
        (isInfix_append_right _ (isInfix_append_left _ (hholds.isInfix_text c)))⟩
  | operation name doc signature =>
    cases own with
    | true => cases htype
    | false =>
      obtain ⟨code, hcode, hshows⟩ := Signature.shows hholds hheld c htype
      exact ⟨_, List.mem_append_right _ List.mem_cons_self, .body hcode hshows⟩
  | event name doc full properties =>
    cases own with
    | true => cases htype
    | false =>
      obtain ⟨p, hp, hp'⟩ := List.mem_map.mp htype
      obtain ⟨code, hcode, hshows⟩ := Property.shows hholds hheld c ⟨"declare ", false⟩ hp'
      refine ⟨_, List.mem_append_right _ List.mem_cons_self, ?_⟩
      exact .body (List.mem_flatMap.mpr ⟨p, hp, hcode⟩) hshows
  | singularClass | pluralClass | constants | service => cases htype

end

end SchemaTypes
