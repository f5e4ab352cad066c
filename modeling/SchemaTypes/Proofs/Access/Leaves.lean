import SchemaTypes.Proofs.Access.Layout
import SchemaTypes.Proofs.Code.Printing

/-!
# The leaves of a property

The two ways to print a property print the same leaves.  A leaf is what takes one line: a
type that is no anonymous structure, or a structure without members.  `TypeInfo.leaves`
lists them in the order of the members, each with the names that lead to it.

In the flat mode a line is printed for each leaf, and nothing else.  In the structured mode
the lines that neither enter nor leave a block are those of the leaves, in the same order,
each inside the blocks of the names before its own (`TypeInfo.prints_leaves`).
-/

namespace SchemaTypes

/-! ## Leaves -/

/-- A leaf of a type, with the members that lead to it. -/
structure Leaf where
  /-- The names of the members, the outermost one first. -/
  path : List String
  /-- Its type. -/
  info : TypeInfo

/-- The leaf as seen from the structure around it. -/
def Leaf.within (member : String) (leaf : Leaf) : Leaf := { leaf with path := member :: leaf.path }

namespace TypeInfo

mutual

/-- The leaves of a type, in the order of the members. -/
def leaves : TypeInfo → List Leaf
  | .inline _ (m :: ms) => memberLeaves (m :: ms)
  | info => [⟨[], info⟩]

/-- The leaves of the members of a structure. -/
def memberLeaves : List (String × TypeInfo) → List Leaf
  | [] => []
  | (member, info) :: rest => (leaves info).map (Leaf.within member) ++ memberLeaves rest

end

theorem leaves_of_not_nested {info : TypeInfo} (h : info.isNested = false) :
    info.leaves = [⟨[], info⟩] := by
  rw [leaves]
  rintro _ m ms rfl
  cases h

theorem nestedProperty_of_not_nested {info : TypeInfo} (h : info.isNested = false) (c : Config)
    (style : PropertyStyle) (name type : String) :
    info.nestedProperty c style name type = style.plain name type info.notNull := by
  rw [nestedProperty]
  rintro _ m ms rfl
  cases h

theorem Walks.of_not_nested {info leaf : TypeInfo} {path : List String} (h : info.Walks path leaf)
    (hinfo : info.isNested = false) : path = [] ∧ leaf = info := by
  cases h with
  | here => exact ⟨rfl, rfl⟩
  | @member _ members _ _ _ _ hmember _ =>
    cases members with
    | nil => cases hmember
    | cons m ms => cases hinfo

mutual

/-- The leaves are what walks through structures end at when they can not go on. -/
theorem mem_leaves : ∀ (info : TypeInfo) (leaf : Leaf),
    leaf ∈ info.leaves ↔ info.Walks leaf.path leaf.info ∧ leaf.info.isNested = false
  | .inline notNull (m :: ms), leaf => by
    rw [leaves, mem_memberLeaves (m :: ms) leaf]
    obtain ⟨path, info⟩ := leaf
    constructor
    · rintro ⟨⟨member, inner, below, hmember, hpath, hwalk⟩, hleaf⟩
      exact ⟨hpath ▸ .member hmember hwalk, hleaf⟩
    · rintro ⟨hwalk, hleaf⟩
      cases hwalk with
      | here => cases hleaf
      | member hmember hrest => exact ⟨⟨_, _, _, hmember, rfl, hrest⟩, hleaf⟩
  | .inline _ [], leaf | .builtin .., leaf | .association .., leaf | .userDefined .., leaf
  | .library .., leaf | .selfReference .., leaf | .enumeration .., leaf | .array .., leaf => by
    rw [leaves_of_not_nested rfl, List.mem_singleton]
    constructor
    · rintro rfl
      exact ⟨.here _, rfl⟩
    · rintro ⟨hwalk, -⟩
      obtain ⟨hpath, hinfo⟩ := hwalk.of_not_nested rfl
      obtain ⟨path, info⟩ := leaf
      exact congrArg₂ Leaf.mk hpath hinfo

theorem mem_memberLeaves : ∀ (members : List (String × TypeInfo)) (leaf : Leaf),
    leaf ∈ memberLeaves members ↔
      (∃ member info path, (member, info) ∈ members ∧ leaf.path = member :: path ∧
        info.Walks path leaf.info) ∧ leaf.info.isNested = false
  | [], leaf => by simp [memberLeaves]
  | (member, info) :: rest, leaf => by
    rw [memberLeaves, List.mem_append, mem_memberLeaves rest leaf, List.mem_map]
    constructor
    · rintro (⟨inner, hinner, rfl⟩ | ⟨⟨name, info', path, hmem, hpath, hwalk⟩, hleaf⟩)
      · obtain ⟨hwalk, hleaf⟩ := (mem_leaves info inner).mp hinner
        exact ⟨⟨member, info, inner.path, List.mem_cons_self, rfl, hwalk⟩, hleaf⟩
      · exact ⟨⟨name, info', path, List.mem_cons_of_mem _ hmem, hpath, hwalk⟩, hleaf⟩
    · rintro ⟨⟨name, info', path, hmem, hpath, hwalk⟩, hleaf⟩
      rcases List.mem_cons.mp hmem with heq | hrest
      · cases heq
        refine .inl ⟨⟨path, leaf.info⟩, (mem_leaves _ _).mpr ⟨hwalk, hleaf⟩, ?_⟩
        exact congrArg₂ Leaf.mk hpath.symm rfl
      · exact .inr ⟨⟨name, info', path, hrest, hpath, hwalk⟩, hleaf⟩

end

theorem eq_of_mem_leaves {info : TypeInfo} {leaf : Leaf} (h : leaf ∈ info.leaves)
    (hroot : leaf.path = []) : leaf.info = info := by
  obtain ⟨hwalk, -⟩ := (mem_leaves info leaf).mp h
  rw [hroot] at hwalk
  cases hwalk
  rfl

end TypeInfo

/-! ## The lines of leaves -/

namespace Leaf

/-- The text of its type.  `type` is the finished type of the property, which stands for the
leaf that is the property itself. -/
def typeText (c : Config) (type : String) (leaf : Leaf) : String :=
  if leaf.path = [] then type else leaf.info.text c

/-- The line that declares it. -/
def line (style : PropertyStyle) (name type : String) (leaf : Leaf) : String :=
  style.modifier ++ Naming.propertyKey name ++ separator style.optional ++ " " ++ type ++
    (if leaf.info.notNull then ";" else " | null;")

/-- Its line in the flat mode, named by the path to it. -/
def flatLine (c : Config) (style : PropertyStyle) (name type : String) (leaf : Leaf) : String :=
  leaf.line style (Text.join "_" (name :: leaf.path)) (leaf.typeText c type)

theorem plain_eq (style : PropertyStyle) (name type : String) (leaf : Leaf) :
    style.plain name type leaf.info.notNull = .line (leaf.line style name type) := by
  rw [PropertyStyle.plain, PropertyStyle.opening, nullable, line]
  cases leaf.info.notNull <;> simp [String.append_assoc]

end Leaf

/-- A line inside blocks. -/
structure BlockLine where
  /-- The opening lines of the blocks around it, the outermost one first. -/
  blocks : List String
  /-- The line. -/
  text : String

/-- The line with a block around all its blocks. -/
def BlockLine.inside (opening : String) (line : BlockLine) : BlockLine :=
  { line with blocks := opening :: line.blocks }

/-- The line of a leaf in the structured mode, in a block for each name before its own.  The
modifier stands before the outermost name only. -/
def Leaf.blockLine (c : Config) (style : PropertyStyle) (name type : String) (leaf : Leaf) :
    BlockLine :=
  match leaf.path.getLast? with
  | none => ⟨[], leaf.line style name (leaf.typeText c type)⟩
  | some last =>
      ⟨(style.opening name ++ "\x7b") ::
          leaf.path.dropLast.map fun segment => style.nested.opening segment ++ "\x7b",
        leaf.line style.nested last (leaf.typeText c type)⟩

theorem Leaf.blocks_length (c : Config) (style : PropertyStyle) (name type : String)
    (leaf : Leaf) : (leaf.blockLine c style name type).blocks.length = leaf.path.length := by
  obtain ⟨path, info⟩ := leaf
  cases path with
  | nil => rfl
  | cons next rest =>
    have hlast := List.getLast?_eq_some_getLast (List.cons_ne_nil next rest)
    simp only [blockLine, hlast, List.length_cons, List.length_map, List.length_dropLast,
      Nat.add_sub_cancel]

namespace Code

mutual

/-- The lines of a piece of code that neither enter nor leave a block. -/
def blockLines : Code → List BlockLine
  | .line text => [⟨[], text⟩]
  | .block opening body _ => (blockLinesAll body).map (BlockLine.inside opening)

/-- Those lines of several pieces of code. -/
def blockLinesAll : List Code → List BlockLine
  | [] => []
  | code :: rest => blockLines code ++ blockLinesAll rest

end

theorem indented_blocks (depth : Nat) (opening : String) (lines : List BlockLine) :
    ((lines.map (BlockLine.inside opening)).map fun line =>
        indented (depth + line.blocks.length) line.text) =
      lines.map fun line => indented (depth + 1 + line.blocks.length) line.text := by
  rw [List.map_map]
  refine List.map_congr_left fun line _ => ?_
  simp only [Function.comp_apply, BlockLine.inside, List.length_cons, Nat.add_assoc, Nat.add_comm 1]

mutual

theorem blockLines_sublist (depth : Nat) : ∀ code : Code,
    (code.blockLines.map fun line => indented (depth + line.blocks.length) line.text).Sublist
      (code.linesAt depth)
  | .line text => .refl _
  | .block opening body closing => by
    rw [blockLines, linesAt, indented_blocks]
    exact ((blockLinesAll_sublist (depth + 1) body).trans
      (List.sublist_append_left _ _)).cons _

/-- Each of the lines is laid out as deep as there are blocks around it. -/
theorem blockLinesAll_sublist (depth : Nat) : ∀ body : List Code,
    ((blockLinesAll body).map fun line => indented (depth + line.blocks.length) line.text).Sublist
      (linesAllAt depth body)
  | [] => .refl _
  | code :: rest => by
    rw [blockLinesAll, linesAllAt, List.map_append]
    exact (blockLines_sublist depth code).append (blockLinesAll_sublist depth rest)

end

end Code

/-! ## What is printed -/

namespace Leaf

variable {c : Config} {style : PropertyStyle} {info : TypeInfo} {name member type : String}
  {leaf : Leaf}

/-- The type that is passed on to a member is the text of the leaf that is the member. -/
theorem typeText_of_mem (h : leaf ∈ info.leaves) :
    leaf.typeText c (info.text c) = leaf.info.text c := by
  rw [typeText]
  split
  · next hroot => rw [TypeInfo.eq_of_mem_leaves h hroot]
  · rfl

theorem typeText_within : (leaf.within member).typeText c type = leaf.info.text c := by
  rw [typeText, within, if_neg (List.cons_ne_nil _ _)]

theorem flatLine_within (h : leaf ∈ info.leaves) :
    (leaf.within member).flatLine c style name type =
      leaf.flatLine c style (name ++ "_" ++ member) (info.text c) := by
  have hname : Text.join "_" (name :: member :: leaf.path) =
      Text.join "_" ((name ++ "_" ++ member) :: leaf.path) := by
    cases leaf.path with
    | nil => rfl
    | cons next rest => simp only [Text.join, String.append_assoc]
  rw [flatLine, flatLine, typeText_within, typeText_of_mem h, ← hname]
  rfl

theorem blockLine_within (h : leaf ∈ info.leaves) :
    (leaf.within member).blockLine c style name type =
      (leaf.blockLine c style.nested member (info.text c)).inside
        (style.opening name ++ "\x7b") := by
  obtain ⟨path, inner⟩ := leaf
  cases path with
  | nil =>
    have hinner : inner = info := TypeInfo.eq_of_mem_leaves h rfl
    rw [hinner]
    rfl
  | cons next rest =>
    have hlast := List.getLast?_eq_some_getLast (List.cons_ne_nil next rest)
    simp only [blockLine, within, List.getLast?_cons_cons, List.dropLast_cons_cons, List.map_cons,
      hlast]
    rfl

end Leaf

namespace TypeInfo

mutual

theorem flatProperty_eq (c : Config) (style : PropertyStyle) :
    ∀ (info : TypeInfo) (name type : String), info.flatProperty c style name type =
      info.leaves.map fun leaf => .line (leaf.flatLine c style name type)
  | .inline _ (m :: ms), name, type => by
    rw [flatProperty, leaves, flatMembers_eq c style (m :: ms) name type]
  | .inline _ [], _, _ | .builtin .., _, _ | .association .., _, _ | .userDefined .., _, _
  | .library .., _, _ | .selfReference .., _, _ | .enumeration .., _, _ | .array .., _, _ => by
    rw [flatProperty_of_not_nested rfl, leaves_of_not_nested rfl, List.map_singleton]
    exact congrArg (fun code => [code]) (Leaf.plain_eq style _ _ ⟨[], _⟩)

/-- The members of a structure are declared by the lines of their leaves.  The type of the
structure is of no use to them. -/
theorem flatMembers_eq (c : Config) (style : PropertyStyle) :
    ∀ (members : List (String × TypeInfo)) (name type : String),
      flatMembers c style name members =
        (memberLeaves members).map fun leaf => .line (leaf.flatLine c style name type)
  | [], _, _ => rfl
  | (member, info) :: rest, name, type => by
    rw [flatMembers, memberLeaves, List.map_append, List.map_map,
      flatProperty_eq c style info (name ++ "_" ++ member) (info.text c),
      flatMembers_eq c style rest name type]
    congr 1
    exact List.map_congr_left fun leaf hleaf =>
      congrArg Code.line (Leaf.flatLine_within hleaf).symm

end

mutual

theorem nestedProperty_blockLines (c : Config) :
    ∀ (info : TypeInfo) (style : PropertyStyle) (name type : String),
      (info.nestedProperty c style name type).blockLines =
        info.leaves.map (Leaf.blockLine c style name type)
  | .inline _ (m :: ms), style, name, type => by
    rw [nestedProperty, leaves, Code.blockLines, nestedMembers_blockLines c (m :: ms)]
  | .inline _ [], _, _, _ | .builtin .., _, _, _ | .association .., _, _, _
  | .userDefined .., _, _, _ | .library .., _, _, _ | .selfReference .., _, _, _
  | .enumeration .., _, _, _ | .array .., _, _, _ => by
    rw [nestedProperty_of_not_nested rfl, leaves_of_not_nested rfl, List.map_singleton]
    exact congrArg Code.blockLines (Leaf.plain_eq _ _ _ ⟨[], _⟩)

theorem nestedMembers_blockLines (c : Config) :
    ∀ (members : List (String × TypeInfo)) (style : PropertyStyle) (name type : String),
      (Code.blockLinesAll (nestedMembers c style.nested members)).map
          (BlockLine.inside (style.opening name ++ "\x7b")) =
        (memberLeaves members).map (Leaf.blockLine c style name type)
  | [], _, _, _ => rfl
  | (member, info) :: rest, style, name, type => by
    rw [nestedMembers, memberLeaves, Code.blockLinesAll, List.map_append, List.map_append,
      List.map_map, nestedProperty_blockLines c info style.nested member (info.text c),
      nestedMembers_blockLines c rest style name type, List.map_map]
    congr 1
    exact List.map_congr_left fun leaf hleaf => (Leaf.blockLine_within hleaf).symm

end

variable {c : Config} {style : PropertyStyle} {name type : String} {info : TypeInfo} {b : Buffer}

theorem applyAll_flatProperty (hopen : b.closed = false) :
    b.applyAll (Code.editsAll (info.flatProperty c style name type)) =
      (b.extend (info.leaves.map fun leaf => indented b.depth (leaf.flatLine c style name type)),
        none) := by
  have hcode : info.flatProperty c style name type =
      (info.leaves.map (Leaf.flatLine c style name type)).map Code.line := by
    rw [flatProperty_eq, List.map_map]
    rfl
  rw [Buffer.applyAll_editsAll b hopen, hcode, Code.linesAllAt_map_line, List.map_map]
  rfl

/-- In the flat mode a line is printed for each leaf.  In the structured mode the lines that
neither enter nor leave a block are those of the leaves, each as deep as there are blocks
around it, and the buffer comes back to its depth. -/
theorem prints_leaves (c : Config) (style : PropertyStyle) (name type : String) (info : TypeInfo)
    (b : Buffer) (hopen : b.closed = false) :
    (∀ leaf, leaf ∈ info.leaves ↔ info.Walks leaf.path leaf.info ∧ leaf.info.isNested = false) ∧
      b.applyAll (Code.editsAll (info.flatProperty c style name type)) =
        (b.extend (info.leaves.map fun leaf => indented b.depth (leaf.flatLine c style name type)),
          none) ∧
      b.applyAll (Code.edits (info.nestedProperty c style name type)) =
        (b.extend ((info.nestedProperty c style name type).linesAt b.depth), none) ∧
      (info.nestedProperty c style name type).blockLines =
        info.leaves.map (Leaf.blockLine c style name type) ∧
      (info.leaves.map fun leaf => indented (b.depth + leaf.path.length)
          (leaf.blockLine c style name type).text).Sublist
        ((info.nestedProperty c style name type).linesAt b.depth) := by
  have hlines := nestedProperty_blockLines c info style name type
  have hlaid := Code.blockLines_sublist b.depth (info.nestedProperty c style name type)
  rw [hlines, List.map_map] at hlaid
  refine ⟨mem_leaves info, applyAll_flatProperty hopen, Buffer.applyAll_edits b hopen _, hlines, ?_⟩
  simpa only [Function.comp_def, Leaf.blocks_length] using hlaid

/-- An address with a street, a structure with a code that is always there, and an empty
structure. -/
def postalAddress : TypeInfo :=
  .inline false
    [("street", .builtin false (.fixed "string")),
      ("region", .inline false [("zip-code", .builtin true (.fixed "number"))]),
      ("notes", .inline true [])]

theorem prints_leaves_postalAddress :
    ({} : Buffer).applyAll (Code.editsAll
        (postalAddress.flatProperty {} ⟨"declare ", true⟩ "home" "Address")) =
      (⟨["declare home_street?: string | null;", "declare 'home_region_zip-code'?: number;",
        "declare home_notes?: \x7b\x7d;"], 0, false⟩, none) ∧
    ({} : Buffer).applyAll (Code.edits
        (postalAddress.nestedProperty {} ⟨"declare ", true⟩ "home" "Address")) =
      (⟨["declare home?: \x7b", "  street?: string | null;", "  region?: \x7b",
        "    'zip-code'?: number;", "  \x7d | null;", "  notes?: \x7b\x7d;", "\x7d | null;"],
        0, false⟩, none) := by
  have ⟨_, hflat, hnested, _⟩ :=
    prints_leaves {} ⟨"declare ", true⟩ "home" "Address" postalAddress {} rfl
  refine ⟨hflat.trans ?_, hnested.trans ?_⟩ <;> decide +kernel

end TypeInfo

end SchemaTypes
