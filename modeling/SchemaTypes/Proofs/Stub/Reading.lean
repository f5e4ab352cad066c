import SchemaTypes.Proofs.Names.Bindable
import SchemaTypes.Proofs.Stub.Statements

/-!
# Reading the aliases of a stub

A line of the runtime stub is read on its own, with no look at what it was written
from.  An assignment gives the path below `module.exports`, member by member
(`readMembers`), the name of the runtime in `csn`, and whether the alias is
for one.  An entry of the table for the proxy gives the same three, but the path is a
dotted name (`readTableLine?`).

The name of the runtime is dotted in both.  What precedes it is the scope, so the path and
this name give the alias (`aliasOf?`).  Members, literals and qualifiers are read
up to their ends whatever follows, so an assignment is read as the alias it was written
for (`readAssignment?_aliasAssignment`), and an entry as its dotted form
(`readTableLine?_proxyEntry`).  This is so for all names, since the readers let line ends
in a literal through, unlike `Literal.read?`.
-/

namespace SchemaTypes

namespace Stub

/-! ## The readers -/

/-- What follows a text. -/
def expect (text : String) (input : List Char) : Option (List Char) :=
  input.dropPrefix? text.toList

/-- Reads up to the quote that ends a literal.  After a backslash a character stands for
itself. -/
def unquote : List Char → Option (List Char × List Char)
  | [] => none
  | '\'' :: rest => some ([], rest)
  | '\\' :: c :: rest => (unquote rest).map fun r => (c :: r.1, r.2)
  | c :: rest => (unquote rest).map fun r => (c :: r.1, r.2)

/-- Reads a literal: its text, and what follows. -/
def readLiteral? : List Char → Option (String × List Char)
  | '\'' :: rest => (unquote rest).map fun r => (String.ofList r.1, r.2)
  | _ => none

/-- Reads the access to a member: its name, and what follows. -/
def readMember? : List Char → Option (String × List Char)
  | '.' :: rest =>
      some (String.ofList (rest.takeWhile Naming.isIdentifierPart),
        rest.dropWhile Naming.isIdentifierPart)
  | '[' :: rest =>
      match readLiteral? rest with
      | some (name, ']' :: rest) => some (name, rest)
      | _ => none
  | _ => none

/-- Reads accesses to members, but not more than a number of them. -/
def readMembers : Nat → List Char → List String × List Char
  | 0, input => ([], input)
  | most + 1, input =>
      match readMember? input with
      | none => ([], input)
      | some (name, rest) => (name :: (readMembers most rest).1, (readMembers most rest).2)

/-- Reads an access to `csn`: the name that is looked up, and what follows. -/
def readLookup? (input : List Char) : Option (String × List Char) := do
  let (name, rest) ← readLiteral? (← expect "csn[" input)
  pure (name, ← expect "]" rest)

/-- Reads what is assigned: the name that is looked up, and whether it is for one. -/
def readValue? (input : List Char) : Option (String × Bool) :=
  match expect "\x7b is_singular: true, __proto__: " input with
  | some rest =>
      match readLookup? rest with
      | some (name, [' ', '\x7d']) => some (name, true)
      | _ => none
  | none =>
      match readLookup? input with
      | some (name, []) => some (name, false)
      | _ => none

/-- The names of a scope, each with a dot after it. -/
def qualifier (scope : List String) : String := String.join (scope.map (· ++ "."))

/-- The alias of a path and a dotted name of the runtime, which starts with the same
scope. -/
def aliasOf? (path : List String) (runtimeName : String) (singular : Bool) : Option Alias := do
  let name ← path.getLast?
  let rest ← expect (qualifier path.dropLast) runtimeName.toList
  pure ⟨path.dropLast, name, String.ofList rest, singular⟩

/-- Reads the assignment of an alias. -/
def readAssignment? (line : String) : Option Alias := do
  let members ← expect "module.exports" line.toList
  let (path, rest) := readMembers members.length members
  let (runtimeName, singular) ← readValue? (← expect " = " rest)
  aliasOf? path runtimeName singular

/-- An alias as the proxy is told it. -/
structure Entry where
  /-- The dotted name. -/
  name : String
  /-- The dotted name the runtime knows the entity by. -/
  runtimeName : String
  /-- Whether the name stands for one. -/
  singular : Bool
deriving DecidableEq, Repr

/-- Reads an entry of the table for the proxy. -/
def readTableLine? (line : String) : Option Entry := do
  let (name, rest) ← readLiteral? (line.toList.dropWhile (· == ' '))
  let (runtimeName, rest) ← readLiteral? (← expect ": [" rest)
  let rest ← expect ", " rest
  if rest = "true],".toList then pure ⟨name, runtimeName, true⟩
  else if rest = "false],".toList then pure ⟨name, runtimeName, false⟩
  else none

/-- The alias of an entry whose dots stand between names. -/
def Entry.alias? (e : Entry) : Option Alias :=
  aliasOf? (Text.splitOn '.' e.name) e.runtimeName e.singular

/-- The entry that tells an alias. -/
def entryOf (a : Alias) : Entry :=
  ⟨qualifier a.scope ++ a.name, qualifier a.scope ++ a.runtimeName, a.singular⟩

/-! ## Literals -/

@[simp] theorem expect_append (text : String) (rest : List Char) :
    expect text (text.toList ++ rest) = some rest :=
  List.dropPrefix?_append_of_beq rest (beq_self_eq_true text.toList)

theorem unquote_escape (c : Char) (rest : List Char) :
    unquote (Naming.escape c ++ rest) = (unquote rest).map fun r => (c :: r.1, r.2) := by
  by_cases hback : c = '\\'
  · subst hback
    simp [Naming.escape, unquote]
  · by_cases hquote : c = '\''
    · subst hquote
      simp [Naming.escape, unquote]
    · simp [Naming.escape, unquote, hback, hquote]

theorem unquote_escaped (text rest : List Char) :
    unquote (text.flatMap Naming.escape ++ '\'' :: rest) = some (text, rest) := by
  induction text with
  | nil => simp [unquote]
  | cons c text ih => simp [unquote_escape, ih]

/-- A literal is read as the text it was written for. -/
@[simp] theorem readLiteral?_quote (text : String) (rest : List Char) :
    readLiteral? ((Naming.quote text).toList ++ rest) = some (text, rest) := by
  simp [Naming.quote, readLiteral?, unquote_escaped]

/-! ## Members -/

/-- Whether a name that is an identifier ends before a text. -/
def EndsName (input : List Char) : Prop := ∀ c ∈ input.head?, Naming.isIdentifierPart c = false

theorem endsName_cons {c : Char} (h : Naming.isIdentifierPart c = false) (rest : List Char) :
    EndsName (c :: rest) := by
  rintro _ ⟨⟩
  exact h

/-- An identifier is read up to where it ends. -/
theorem span_identifier {name : String} {rest : List Char} (h : Naming.isIdentifier name = true)
    (hrest : EndsName rest) :
    (name.toList ++ rest).takeWhile Naming.isIdentifierPart = name.toList ∧
      (name.toList ++ rest).dropWhile Naming.isIdentifierPart = rest := by
  have hall : ∀ c ∈ name.toList, Naming.isIdentifierPart c = true :=
    List.all_eq_true.mp (Naming.all_isIdentifierPart h)
  rw [List.takeWhile_append_of_pos hall, List.dropWhile_append_of_pos hall]
  cases rest with
  | nil => simp
  | cons c rest =>
    have hc : ¬ Naming.isIdentifierPart c = true := by simp [hrest c rfl]
    rw [List.takeWhile_cons_of_neg hc, List.dropWhile_cons_of_neg hc, List.append_nil]
    exact ⟨rfl, rfl⟩

theorem endsName_memberAccess (name : String) (rest : List Char) :
    EndsName ((memberAccess name).toList ++ rest) := by
  rw [memberAccess]
  split
  · simpa using endsName_cons (by decide +kernel) (name.toList ++ rest)
  · simpa using endsName_cons (by decide +kernel) _

/-- An access to a member is read as the name of the member. -/
theorem readMember?_memberAccess (name : String) {rest : List Char} (h : EndsName rest) :
    readMember? ((memberAccess name).toList ++ rest) = some (name, rest) := by
  rw [memberAccess]
  split
  · next hidentifier =>
    obtain ⟨htake, hdrop⟩ := span_identifier hidentifier h
    simp [readMember?, htake, hdrop]
  · simp [readMember?]

/-- Accesses to members are read as their names, if that many are read and no other one
follows. -/
theorem readMembers_memberAccess {names : List String} {most : Nat} {rest : List Char}
    (hmost : names.length ≤ most) (hends : EndsName rest) (hnone : readMember? rest = none) :
    readMembers most (names.flatMap (fun name => (memberAccess name).toList) ++ rest) =
      (names, rest) := by
  induction names generalizing most with
  | nil => cases most <;> simp [readMembers, hnone]
  | cons name names ih =>
    obtain ⟨most, rfl⟩ := Nat.exists_eq_add_one_of_ne_zero (Nat.ne_zero_of_lt hmost)
    have hrest := ih (Nat.le_of_succ_le_succ hmost)
    have hnext : EndsName (names.flatMap (fun name => (memberAccess name).toList) ++ rest) := by
      cases names with
      | nil => exact hends
      | cons next names =>
        rw [List.flatMap_cons, List.append_assoc]
        exact endsName_memberAccess next _
    simp only [List.flatMap_cons, List.append_assoc, readMembers,
      readMember?_memberAccess name hnext, hrest]

theorem length_le_flatMap_memberAccess (names : List String) :
    names.length ≤ (names.flatMap fun name => (memberAccess name).toList).length := by
  have hone : ∀ name, 1 ≤ (memberAccess name).toList.length := by
    intro name
    rw [memberAccess]
    split <;> simp
  induction names with
  | nil => exact Nat.le_refl 0
  | cons name names ih =>
    rw [List.flatMap_cons, List.length_append, List.length_cons]
    have hname := hone name
    omega

/-! ## Lines -/

/-- A name with its qualifier is joined from the names of its path. -/
theorem join_target (scope : List String) (name : String) :
    Text.join "." (scope ++ [name]) = qualifier scope ++ name :=
  Text.join_concat "." scope name

theorem scopedName_eq (scope : List String) (name : String) :
    scopedName scope name = qualifier scope ++ name := by
  rw [scopedName, ← join_target]
  split
  · next hempty => rw [List.isEmpty_iff.mp hempty, List.nil_append, Text.join]
  · next hne => rw [Text.join_append (by simpa using hne) (List.cons_ne_nil name []), Text.join]

theorem readLookup?_quote (name : String) (rest : List Char) :
    readLookup? ("csn[".toList ++ ((Naming.quote name).toList ++ ("]".toList ++ rest))) =
      some (name, rest) := by
  simp only [readLookup?, expect_append, readLiteral?_quote, Option.bind_eq_bind, Option.bind_some]
  rfl

theorem readValue?_singular (name : String) :
    readValue? ("\x7b is_singular: true, __proto__: " ++ ("csn[" ++ Naming.quote name ++ "]") ++
      " \x7d").toList = some (name, true) := by
  simp only [String.toList_append, List.append_assoc, readValue?, expect_append, readLookup?_quote]
  rfl

theorem readValue?_plural (name : String) :
    readValue? ("csn[" ++ Naming.quote name ++ "]").toList = some (name, false) := by
  have hother : ∀ rest,
      expect "\x7b is_singular: true, __proto__: " ("csn[".toList ++ rest) = none := fun _ => rfl
  have hlookup := readLookup?_quote name []
  rw [List.append_nil] at hlookup
  simp only [String.toList_append, List.append_assoc, readValue?, hother, hlookup]

theorem aliasOf?_target (a : Alias) :
    aliasOf? a.target (scopedName a.scope a.runtimeName) a.singular = some a := by
  simp [aliasOf?, Alias.target, scopedName_eq]

theorem readAssignment?_assign (path : List String) (value : String) :
    readAssignment? (StubStatement.assign path value).text =
      (readValue? value.toList).bind fun v => aliasOf? path v.1 v.2 := by
  have hline : (StubStatement.assign path value).text.toList =
      "module.exports".toList ++ (path.flatMap (fun name => (memberAccess name).toList) ++
        (" = ".toList ++ value.toList)) := by
    simp [StubStatement.text, exportPath, List.flatMap_map]
  have hends : EndsName (" = ".toList ++ value.toList) := endsName_cons (by decide +kernel) _
  have hlength : path.length ≤ (path.flatMap (fun name => (memberAccess name).toList) ++
      (" = ".toList ++ value.toList)).length :=
    Nat.le_trans (length_le_flatMap_memberAccess path) (List.length_append ▸ Nat.le_add_right _ _)
  have hmembers := readMembers_memberAccess hlength hends rfl
  rw [readAssignment?, hline, expect_append]
  simp only [Option.bind_eq_bind, Option.bind_some, hmembers, expect_append]

/-- The assignment of an alias is read as the alias. -/
theorem readAssignment?_aliasAssignment (a : Alias) :
    readAssignment? (SourceFile.aliasAssignment a) = some a := by
  have hread : ∀ value, readValue? value.toList =
      some (scopedName a.scope a.runtimeName, a.singular) →
        readAssignment? (StubStatement.assign a.target value).text = some a := by
    intro value hvalue
    rw [readAssignment?_assign, hvalue]
    exact aliasOf?_target a
  rw [← SourceFile.aliasStatement_text, SourceFile.aliasStatement]
  cases hsingular : a.singular with
  | true => exact hread _ (by rw [hsingular]; exact readValue?_singular _)
  | false => exact hread _ (by rw [hsingular]; exact readValue?_plural _)

example : readAssignment? "module.exports.Books['sort-order'] = csn['Books.sort-order']" =
    some ⟨["Books"], "sort-order", "sort-order", false⟩ := by decide +kernel

/-- A line that starts with a literal is found behind its indentation. -/
theorem dropWhile_indented (depth : Nat) {text : String} {rest : List Char}
    (h : text.toList = '\'' :: rest) :
    (indented depth text).toList.dropWhile (· == ' ') = text.toList := by
  have hne : text ≠ "" := by
    rintro rfl
    cases h
  have hblank : ∀ c ∈ (Text.replicate depth indentUnit).toList, (c == ' ') = true := by
    have hunit : indentUnit.toList = [' ', ' '] := rfl
    intro c hc
    have hmem : depth ≠ 0 ∧ c = ' ' := by simpa [Text.replicate, hunit] using hc
    exact beq_iff_eq.mpr hmem.2
  rw [indented, if_neg hne, String.toList_append, List.dropWhile_append_of_pos hblank, h,
    List.dropWhile_cons_of_neg Bool.false_ne_true]

/-- The entry of an alias is read as what it tells, however far it is indented. -/
theorem readTableLine?_proxyEntry (depth : Nat) (a : Alias) :
    readTableLine? (indented depth (SourceFile.proxyEntry a)) = some (entryOf a) := by
  have hline : (SourceFile.proxyEntry a).toList =
      (Naming.quote (entryOf a).name).toList ++ (": [".toList ++
        ((Naming.quote (entryOf a).runtimeName).toList ++ (", ".toList ++
          (if a.singular then "true]," else "false],").toList))) := by
    rw [SourceFile.proxyEntry, scopedName_eq, scopedName_eq]
    split <;> simp [entryOf]
  have hquote : ∃ rest, (SourceFile.proxyEntry a).toList = '\'' :: rest := by
    rw [hline, Naming.quote, String.toList_ofList]
    exact ⟨_, rfl⟩
  obtain ⟨rest, hrest⟩ := hquote
  rw [readTableLine?, dropWhile_indented depth hrest, hline]
  simp only [readLiteral?_quote, expect_append, Option.bind_eq_bind, Option.bind_some]
  cases hs : a.singular <;> simp [entryOf, hs]

/-- The alias of an entry is the one that it tells, if no name of its path holds a dot. -/
theorem alias?_entryOf {a : Alias} (h : ∀ s ∈ a.target, '.' ∉ s.toList) :
    (entryOf a).alias? = some a := by
  have hpath : Text.splitOn '.' (entryOf a).name = a.target := by
    rw [entryOf, ← join_target]
    exact @Text.splitOn_join '.' _ (by simp) h
  have hruntime : (entryOf a).runtimeName = scopedName a.scope a.runtimeName :=
    (scopedName_eq _ _).symm
  rw [Entry.alias?, hpath, hruntime]
  exact aliasOf?_target a

/-- A dot in a name is not told from one that follows a scope. -/
example : entryOf ⟨["Books"], "text", "texts", true⟩ =
    entryOf ⟨[], "Books.text", "Books.texts", true⟩ := by decide +kernel

end Stub

end SchemaTypes
