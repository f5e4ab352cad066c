import Mathlib.Data.List.Forall2
import SchemaTypes.Declaration.Layout

/-!
# Properties and the access to them

A property whose type is an anonymous structure with members is declared in one of two
ways, and the access to an element is written in the same two.  `TypeInfo.Walks` leads
from a type through such structures to what is accessed.

In the flat mode a property is declared for every leaf, named by the path to it, and no
other one (`TypeInfo.flatProperty_keys`).  The access is named by its path too, so it hits
a property where the walk goes to a leaf (`TypeInfo.Walks.mem_flatKeys`).  In the
structured mode the members are declared in blocks, and the access goes through them,
wherever it ends (`TypeInfo.Walks.declares`).
-/

namespace SchemaTypes

/-! ## Walks through structures -/

namespace TypeInfo

/-- Members of anonymous structures lead from a type to another one. -/
inductive Walks : TypeInfo → List String → TypeInfo → Prop
  | here (info : TypeInfo) : Walks info [] info
  | member {notNull : Bool} {members : List (String × TypeInfo)} {name : String}
      {info leaf : TypeInfo} {path : List String} :
      (name, info) ∈ members → Walks info path leaf →
        Walks (.inline notNull members) (name :: path) leaf

/-- Whether it is an anonymous structure with members. -/
def isNested : TypeInfo → Bool
  | .inline _ (_ :: _) => true
  | _ => false

/-- Whether it names one thing: a predefined type, a definition or a type of a library. -/
def isSimple : TypeInfo → Bool
  | .builtin .. | .userDefined .. | .library .. | .selfReference .. => true
  | _ => false

/-! ## The flat mode -/

mutual

/-- The names of the properties that are declared for a property in the flat mode. -/
def flatKeys (name : String) : TypeInfo → List String
  | .inline _ (m :: ms) => flatMemberKeys name (m :: ms)
  | _ => [name]

/-- The names of the properties that are declared for the members of a structure in the
flat mode. -/
def flatMemberKeys (name : String) : List (String × TypeInfo) → List String
  | [] => []
  | (member, info) :: rest => flatKeys (name ++ "_" ++ member) info ++ flatMemberKeys name rest

end

theorem flatKeys_of_not_nested {info : TypeInfo} (h : info.isNested = false) (name : String) :
    info.flatKeys name = [name] := by
  rw [flatKeys]
  rintro _ m ms rfl
  cases h

theorem flatProperty_of_not_nested {info : TypeInfo} (h : info.isNested = false) (c : Config)
    (style : PropertyStyle) (name type : String) :
    info.flatProperty c style name type = [style.plain name type info.notNull] := by
  rw [flatProperty]
  rintro _ m ms rfl
  cases h

end TypeInfo

/-- A line declares a property of the name. -/
def PropertyStyle.Declares (style : PropertyStyle) (key : String) (code : Code) : Prop :=
  ∃ type notNull, code = style.plain key type notNull

namespace TypeInfo

mutual

/-- In the flat mode there is one line for each of the names, in their order. -/
theorem flatProperty_keys (c : Config) (style : PropertyStyle) :
    ∀ (info : TypeInfo) (name type : String),
      List.Forall₂ style.Declares (info.flatKeys name) (info.flatProperty c style name type)
  | .inline _ (m :: ms), name, _ => by
    rw [flatKeys, flatProperty]
    exact flatMembers_keys c style (m :: ms) name
  | .inline _ [], _, _ | .builtin .., _, _ | .association .., _, _ | .userDefined .., _, _
  | .library .., _, _ | .selfReference .., _, _ | .enumeration .., _, _ | .array .., _, _ => by
    rw [flatKeys_of_not_nested rfl, flatProperty_of_not_nested rfl]
    exact .cons ⟨_, _, rfl⟩ .nil

theorem flatMembers_keys (c : Config) (style : PropertyStyle) :
    ∀ (members : List (String × TypeInfo)) (name : String),
      List.Forall₂ style.Declares (flatMemberKeys name members) (flatMembers c style name members)
  | [], _ => .nil
  | (member, info) :: rest, name => by
    rw [flatMemberKeys, flatMembers]
    exact List.rel_append (flatProperty_keys c style info _ _) (flatMembers_keys c style rest name)

end

/-- A property is declared for each of the names. -/
theorem declares_of_mem_flatKeys {info : TypeInfo} {name key : String} (c : Config)
    (style : PropertyStyle) (type : String) (h : key ∈ info.flatKeys name) :
    ∃ code ∈ info.flatProperty c style name type, style.Declares key code := by
  have hlines := flatProperty_keys c style info name type
  obtain ⟨i, hi, rfl⟩ := List.getElem_of_mem h
  have hi' : i < (info.flatProperty c style name type).length := hlines.length_eq ▸ hi
  exact ⟨_, List.getElem_mem hi', hlines.get hi hi'⟩

theorem mem_flatMemberKeys {members : List (String × TypeInfo)} {name member key : String}
    {info : TypeInfo} (hmember : (member, info) ∈ members)
    (hkey : key ∈ info.flatKeys (name ++ "_" ++ member)) : key ∈ flatMemberKeys name members := by
  induction members with
  | nil => cases hmember
  | cons first rest ih =>
    obtain ⟨other, info'⟩ := first
    rw [flatMemberKeys, List.mem_append]
    rcases List.mem_cons.mp hmember with heq | hrest
    · cases heq
      exact Or.inl hkey
    · exact Or.inr (ih hrest)

/-- The path to a leaf is the name of a property. -/
theorem Walks.mem_flatKeys {info leaf : TypeInfo} {path : List String} (h : info.Walks path leaf)
    (hleaf : leaf.isNested = false) (name : String) :
    Text.join "_" (name :: path) ∈ info.flatKeys name := by
  induction h generalizing name with
  | here info =>
    rw [flatKeys_of_not_nested hleaf]
    exact List.mem_singleton.mpr rfl
  | @member notNull members member info leaf path hmember _ ih =>
    have hkey := ih hleaf (name ++ "_" ++ member)
    have hjoin : Text.join "_" (name :: member :: path) =
        Text.join "_" ((name ++ "_" ++ member) :: path) := by
      cases path with
      | nil => rfl
      | cons next rest =>
        simp only [Text.join, String.append_assoc]
    rw [hjoin]
    cases members with
    | nil => cases hmember
    | cons first rest =>
      rw [flatKeys]
      exact mem_flatMemberKeys hmember hkey

end TypeInfo

/-! ## The structured mode -/

/-- A piece of code declares a property, and members below it, by the names on a
path. -/
inductive Code.Declares : PropertyStyle → List String → Code → Prop
  | line {style : PropertyStyle} {name type : String} {notNull : Bool} :
      Declares style [name] (style.plain name type notNull)
  | block {style : PropertyStyle} {name closing : String} {body : List Code} :
      Declares style [name] (.block (style.opening name ++ "\x7b") body closing)
  | member {style : PropertyStyle} {name closing : String} {path : List String} {code : Code}
      {body : List Code} : code ∈ body → Declares style.nested path code →
        Declares style (name :: path) (.block (style.opening name ++ "\x7b") body closing)

namespace TypeInfo

theorem nestedProperty_declares (c : Config) (style : PropertyStyle) (name type : String)
    (info : TypeInfo) : Code.Declares style [name] (info.nestedProperty c style name type) := by
  cases hnested : info.isNested with
  | false =>
    rw [nestedProperty]
    · exact .line
    · rintro _ m ms rfl
      cases hnested
  | true =>
    obtain ⟨notNull, m, ms, rfl⟩ : ∃ notNull m ms, info = .inline notNull (m :: ms) := by
      cases info with
      | inline notNull members =>
        cases members with
        | nil => cases hnested
        | cons m ms => exact ⟨notNull, m, ms, rfl⟩
      | _ => cases hnested
    rw [nestedProperty]
    exact .block

theorem mem_nestedMembers (c : Config) (style : PropertyStyle)
    {members : List (String × TypeInfo)} {member : String} {info : TypeInfo}
    (h : (member, info) ∈ members) :
    info.nestedProperty c style member (info.text c) ∈ nestedMembers c style members := by
  induction members with
  | nil => cases h
  | cons first rest ih =>
    obtain ⟨other, info'⟩ := first
    rw [nestedMembers]
    rcases List.mem_cons.mp h with heq | hrest
    · cases heq
      exact List.mem_cons_self
    · exact List.mem_cons_of_mem _ (ih hrest)

/-- What a walk comes to is declared below the property. -/
theorem Walks.declares {info leaf : TypeInfo} {path : List String} (h : info.Walks path leaf)
    (c : Config) (style : PropertyStyle) (name type : String) :
    Code.Declares style (name :: path) (info.nestedProperty c style name type) := by
  induction h generalizing style name type with
  | here info => exact nestedProperty_declares c style name type info
  | @member notNull members member info leaf path hmember _ ih =>
    cases members with
    | nil => cases hmember
    | cons first rest =>
      rw [nestedProperty]
      exact .member (mem_nestedMembers c style.nested hmember) (ih _ _ _)

end TypeInfo

/-! ## Access -/

theorem UserDefined.text_of_access {u : UserDefined} (h : u.access ≠ []) (c : Config) :
    u.text c = "__.DeepRequired<" ++ u.singular ++ ">" ++ c.inlineMode.access u.access := by
  rw [text, if_neg (by simpa using h)]

end SchemaTypes
