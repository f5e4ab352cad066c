import SchemaTypes.Text.Split

/-!
# Singular and plural names

An entity of the model is mostly named in the plural (`Books`).  The generated
code needs a class for one of them (`Book`) and a class for many (`Books`).
Both names follow from a short ordered list of suffix rules of English, unless
the model gives them.

The rules look at the last dotted segment and do not tell capitals from small
letters.  Their suffixes hold letters of the Latin alphabet only, and the one
non-Latin capital whose small form is such a letter, the Kelvin sign, gives
`k`, which occurs in none of them.  So folding the Latin capitals decides the
tests as folding all capitals would.

`derive` puts the rules, the names given by the model and the fallbacks
together.  It always keeps the two names apart, and reports what it had to
mend as `NamingIssue`s.
-/

namespace SchemaTypes.Naming

/-! ## Words -/

/-- The name up to and with its last dot, and the word after it. -/
def splitLastDot (name : List Char) : List Char × List Char :=
  ((name.reverse.dropWhile (· ≠ '.')).reverse, (name.reverse.takeWhile (· ≠ '.')).reverse)

/-- The word after the last dot. -/
def lastSegment (name : String) : String := String.ofList (splitLastDot name.toList).2

/-- The word in small letters. -/
def fold (word : List Char) : List Char := word.map Char.toLower

/-- Whether the word ends with one of the suffixes, capitals or not. -/
def endsWithAny (suffixes : List String) (word : List Char) : Bool :=
  suffixes.any fun s => s.toList.isSuffixOf (fold word)

/-- A letter of the Latin alphabet other than a, e, i, o and u. -/
def isConsonant (c : Char) : Bool :=
  c.isAlpha && !(['a', 'e', 'i', 'o', 'u'].contains c.toLower)

/-- Whether a consonant stands right before the last `n` characters. -/
def consonantBefore (n : Nat) (word : List Char) : Bool :=
  (word.reverse[n]?).any isConsonant

/-- The word without its last `n` characters. -/
def dropEnd (n : Nat) (word : List Char) : List Char := word.take (word.length - n)

/-! ## The rules -/

/-- The singular of a word. -/
def singularWord (word : List Char) : List Char :=
  if endsWithAny ["species", "news", "ess"] word then word
  else if endsWithAny ["ees"] word then dropEnd 1 word
  else if endsWithAny ["ses", "zes"] word then dropEnd 2 word
  else if endsWithAny ["ies"] word && consonantBefore 3 word then dropEnd 3 word ++ ['y']
  else if endsWithAny ["s", "_"] word then dropEnd 1 word
  else word

/-- The plural of a word. -/
def pluralWord (word : List Char) : List Char :=
  if endsWithAny ["analysis", "status", "species", "news"] word then word
  else if endsWithAny ["y"] word && consonantBefore 1 word then dropEnd 1 word ++ ['i', 'e', 's']
  else if endsWithAny ["s", "x", "z", "ch", "sh"] word then word ++ ['e', 's']
  else word ++ ['s']

/-- The name with its last dotted segment changed. -/
def onLastSegment (change : List Char → List Char) (name : String) : String :=
  let (before, word) := splitLastDot name.toList
  String.ofList (before ++ change word)

/-- The singular of the last dotted segment of a name. -/
def singularOf (name : String) : String := onLastSegment singularWord name

/-- The plural of the last dotted segment of a name. -/
def pluralOf (name : String) : String := onLastSegment pluralWord name

/-! ## Deriving the names of a definition -/

/-- Goes to the end of a plural that would equal the singular. -/
def pluralSuffix : String := "_"

/-- The names of one definition. -/
structure Inflection where
  /-- The name where the definition is used as a type. -/
  typeName : String
  /-- The name of one. -/
  singular : String
  /-- The name of many. -/
  plural : String
deriving DecidableEq, Repr, Inhabited

/-- The same name for all three uses. -/
def Inflection.uninflected (name : String) : Inflection := ⟨name, name, name⟩

/-- What had to be mended while deriving names. -/
inductive NamingIssue
  | emptySingular
  | emptyPlural
  | singularEqualsPlural
deriving DecidableEq, Repr

/-- The wording of an issue. -/
def NamingIssue.describe : NamingIssue → String
  | .emptySingular => "derived singular name is empty, falling back to the plain name"
  | .emptyPlural => "derived plural name is empty, falling back to the plain name"
  | .singularEqualsPlural =>
      "singular and plural names are equal, the plural was suffixed with '_'"

/-- The names of a definition with the given plain name.  `singular?` and
`plural?` are the names the model gives.  Only their last segment counts. -/
def derive (plain : String) (singular? plural? : Option String) : Inflection × List NamingIssue :=
  let wantedPlural := (plural?.map lastSegment).getD plain
  let wantedSingular := (singular?.map lastSegment).getD (singularOf plain)
  let plural := if wantedPlural = "" then plain else wantedPlural
  let singular := if wantedSingular = "" then plain else wantedSingular
  let finalPlural := if singular = plural then plural ++ pluralSuffix else plural
  (⟨singular, singular, finalPlural⟩,
    (if wantedPlural = "" then [.emptyPlural] else []) ++
    (if wantedSingular = "" then [.emptySingular] else []) ++
    (if singular = plural then [.singularEqualsPlural] else []))

end SchemaTypes.Naming
