import SchemaTypes.Text.Alphabetic
import SchemaTypes.Text.Numeric

/-!
# Identifiers and string literals

A name of the model becomes a property key, a binding or a string in the
generated code.  An identifier starts with a letter, `_` or `$` and goes on
with letters, digits, `_` and `$`, where letters and digits are those of all
scripts.  A key that is no identifier is written as a string literal.  A
binding that is no identifier, or that is a reserved word, is made one by
`sanitize`.
-/

namespace SchemaTypes.Naming

/-! ## Identifiers -/

/-- The words of the generated language that cannot name a binding. -/
def reservedWords : List String :=
  ["break", "case", "catch", "class", "const", "continue", "debugger", "default", "delete",
   "do", "else", "enum", "export", "extends", "false", "finally", "for", "function", "if",
   "import", "in", "instanceof", "new", "null", "return", "super", "switch", "this", "throw",
   "true", "try", "typeof", "var", "void", "while", "with", "let", "static", "yield",
   "await", "implements", "interface", "package", "private", "protected", "public"]

/-- A word that cannot name a binding. -/
def isReserved (name : String) : Bool := reservedWords.contains name

/-- A character an identifier can start with. -/
def isIdentifierStart (c : Char) : Bool := Text.isAlphabetic c || c == '_' || c == '$'

/-- A letter or a digit of any script. -/
def isAlphanumeric (c : Char) : Bool := Text.isAlphabetic c || Text.isNumeric c

/-- A character an identifier can go on with. -/
def isIdentifierPart (c : Char) : Bool := isAlphanumeric c || c == '_' || c == '$'

/-- Whether a name can stand as it is as a property key or a binding. -/
def isIdentifier (name : String) : Bool :=
  match name.toList with
  | [] => false
  | c :: rest => isIdentifierStart c && rest.all isIdentifierPart

theorem isIdentifier_of_cons {name : String} {c : Char} {rest : List Char}
    (h : name.toList = c :: rest) :
    isIdentifier name = (isIdentifierStart c && rest.all isIdentifierPart) := by
  rw [isIdentifier, h]

theorem isIdentifierPart_of_start {c : Char} (h : isIdentifierStart c = true) :
    isIdentifierPart c = true := by
  simp only [isIdentifierStart, isIdentifierPart, isAlphanumeric, Bool.or_eq_true] at h ⊢
  exact h.imp_left (.imp_left .inl)

theorem exists_cons_of_isIdentifier {name : String} (h : isIdentifier name = true) :
    ∃ c rest, name.toList = c :: rest ∧ isIdentifierStart c = true ∧
      rest.all isIdentifierPart = true := by
  cases hname : name.toList with
  | nil =>
    rw [isIdentifier, hname] at h
    cases h
  | cons c rest =>
    rw [isIdentifier_of_cons hname, Bool.and_eq_true] at h
    exact ⟨c, rest, rfl, h⟩

theorem all_isIdentifierPart {name : String} (h : isIdentifier name = true) :
    name.toList.all isIdentifierPart = true := by
  obtain ⟨c, rest, hname, hstart, hrest⟩ := exists_cons_of_isIdentifier h
  rw [hname, List.all_cons, isIdentifierPart_of_start hstart, hrest]
  rfl

/-- Whether the text starts with a decimal digit of the Latin script. -/
def startsWithDigit (name : String) : Bool :=
  match name.toList with
  | [] => false
  | c :: _ => c.isDigit

/-- The name with `_` for every character that no identifier can hold, and
with `_` in front where the result is empty, starts with a decimal digit or is
a reserved word. -/
def sanitize (name : String) : String :=
  let safe := String.ofList (name.toList.map fun c => if isIdentifierPart c then c else '_')
  if safe == "" || startsWithDigit safe || isReserved safe then "_" ++ safe else safe

/-! ## String literals -/

/-- The characters of a literal that stand for one character: a backslash and
a single quote are escaped by a backslash. -/
def escape (c : Char) : List Char :=
  if c = '\\' then ['\\', '\\'] else if c = '\'' then ['\\', '\''] else [c]

/-- The literal in single quotes. -/
def quote (value : String) : String :=
  String.ofList ('\'' :: value.toList.flatMap escape ++ ['\''])

/-- A property key: the name itself where it is an identifier, else its
literal. -/
def propertyKey (name : String) : String := if isIdentifier name then name else quote name

end SchemaTypes.Naming
