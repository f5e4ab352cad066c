import SchemaTypes.Json.Document

/-!
# Reading a document from its text

The grammar is strict.  Nothing but one value and blanks around it may stand
in the text.  There are no comments, no commas at the end of a list, and no
control characters in strings.  A number starts with a digit or a minus sign,
and with no zero before another digit.

A string is read piece by piece.  A piece is a character or a unit of sixteen
bits from an escape.  `assemble` joins the two halves of a surrogate pair, and
fails where a half stands alone.

Every step consumes a part of the text, so twice its length bounds the number
of steps.
-/

namespace SchemaTypes.Json

namespace Reader

/-- A blank between two tokens. -/
def isGap (c : Char) : Bool := c == ' ' || c == '\n' || c == '\t' || c == '\r'

/-- The text without the blanks at its start. -/
def skipGaps (cs : List Char) : List Char := cs.dropWhile isGap

/-! ## Strings -/

/-- A part of a string: a character, or a unit of sixteen bits. -/
inductive Piece
  | char (c : Char)
  | unit (n : Nat)

/-- The number a digit to the base sixteen stands for. -/
def hexValue? (c : Char) : Option Nat :=
  if '0' ≤ c ∧ c ≤ '9' then some (c.toNat - '0'.toNat)
  else if 'a' ≤ c ∧ c ≤ 'f' then some (c.toNat - 'a'.toNat + 10)
  else if 'A' ≤ c ∧ c ≤ 'F' then some (c.toNat - 'A'.toNat + 10)
  else none

/-- The unit that four digits to the base sixteen stand for. -/
def hexUnit? (a b c d : Char) : Option Nat :=
  match hexValue? a, hexValue? b, hexValue? c, hexValue? d with
  | some a, some b, some c, some d => some (((a * 16 + b) * 16 + c) * 16 + d)
  | _, _, _, _ => none

/-- The character that an escape of one letter stands for. -/
def escaped? (c : Char) : Option Char :=
  match c with
  | '"' => some '"'
  | '\\' => some '\\'
  | '/' => some '/'
  | 'b' => some '\x08'
  | 'f' => some '\x0c'
  | 'n' => some '\n'
  | 'r' => some '\r'
  | 't' => some '\t'
  | _ => none

/-- The pieces up to the closing quote, last one first, and the text after
it. -/
def scanString (done : List Piece) : List Char → Option (List Piece × List Char)
  | [] => none
  | '"' :: rest => some (done, rest)
  | '\\' :: 'u' :: a :: b :: c :: d :: rest =>
      match hexUnit? a b c d with
      | some n => scanString (.unit n :: done) rest
      | none => none
  | '\\' :: c :: rest =>
      match escaped? c with
      | some e => scanString (.char e :: done) rest
      | none => none
  | c :: rest => if c.toNat < 32 then none else scanString (.char c :: done) rest

/-- Whether a unit is the first half of a surrogate pair. -/
def isHighHalf (n : Nat) : Bool := 0xD800 ≤ n && n ≤ 0xDBFF

/-- Whether a unit is the second half of a surrogate pair. -/
def isLowHalf (n : Nat) : Bool := 0xDC00 ≤ n && n ≤ 0xDFFF

/-- The characters that pieces stand for, if no half of a pair stands
alone. -/
def assemble : List Piece → Option (List Char)
  | [] => some []
  | .char c :: rest => (assemble rest).map (c :: ·)
  | .unit n :: .unit m :: rest =>
      if isHighHalf n then
        if isLowHalf m then
          (assemble rest).map (Char.ofNat (0x10000 + (n - 0xD800) * 0x400 + (m - 0xDC00)) :: ·)
        else none
      else if isLowHalf n then none
      else (assemble (.unit m :: rest)).map (Char.ofNat n :: ·)
  | .unit n :: rest =>
      if isHighHalf n || isLowHalf n then none else (assemble rest).map (Char.ofNat n :: ·)

/-- The string after an opening quote, and the text after it. -/
def readString (cs : List Char) : Option (Option String × List Char) :=
  match scanString [] cs with
  | none => none
  | some (pieces, rest) => some ((assemble pieces.reverse).map String.ofList, rest)

/-! ## Numbers -/

/-- The digits at the start of a text, and what follows them. -/
def readDigits (cs : List Char) : List Nat × List Char :=
  ((cs.takeWhile Char.isDigit).map fun c => c.toNat - '0'.toNat, cs.dropWhile Char.isDigit)

/-- The digits before the point: a zero alone, or digits that start with
another one. -/
def readWhole (cs : List Char) : Option (List Nat × List Char) :=
  match readDigits cs with
  | ([], _) => none
  | (0 :: _ :: _, _) => none
  | whole => some whole

/-- The digits after a point, none without a point. -/
def readDecimals (cs : List Char) : Option (List Nat × List Char) :=
  match cs with
  | '.' :: rest =>
      match readDigits rest with
      | ([], _) => none
      | decimals => some decimals
  | _ => some ([], cs)

/-- The sign of an exponent, and what follows it. -/
def readExponentSign (cs : List Char) : Bool × List Char :=
  match cs with
  | '+' :: rest => (false, rest)
  | '-' :: rest => (true, rest)
  | _ => (false, cs)

/-- The sign and the digits of an exponent, if there is one. -/
def readExponent (cs : List Char) : Option (Option (Bool × List Nat) × List Char) :=
  match cs with
  | c :: rest =>
      if c == 'e' || c == 'E' then
        let (negative, rest) := readExponentSign rest
        match readDigits rest with
        | ([], _) => none
        | (ds, rest) => some (some (negative, ds), rest)
      else some (none, cs)
  | [] => some (none, cs)

/-- The numeral at the start of a text, and what follows it. -/
def readNumeral (cs : List Char) : Option (Numeral × List Char) :=
  let (negative, unsigned) := match cs with
    | '-' :: rest => (true, rest)
    | _ => (false, cs)
  match readWhole unsigned with
  | none => none
  | some (whole, afterWhole) =>
      match readDecimals afterWhole with
      | none => none
      | some (decimals, afterDecimals) =>
          match readExponent afterDecimals with
          | none => none
          | some (exponent, rest) =>
              some (⟨negative, whole, decimals, exponent, decimals.isEmpty && exponent.isNone⟩, rest)

/-! ## Values -/

/-- The text after a word, if it starts with it. -/
def afterWord? (word : String) (cs : List Char) : Option (List Char) :=
  if word.toList.isPrefixOf cs then some (cs.drop word.length) else none

/-- A word of the grammar, or a number. -/
def readScalar (cs : List Char) : Option (Document × List Char) :=
  match afterWord? "null" cs with
  | some rest => some (.null, rest)
  | none =>
      match afterWord? "true" cs with
      | some rest => some (.bool true, rest)
      | none =>
          match afterWord? "false" cs with
          | some rest => some (.bool false, rest)
          | none => (readNumeral cs).map fun (n, rest) => (.number n.value?, rest)

/-- The name of a member with the colon after it. -/
def readName (cs : List Char) : Option (Option String × List Char) :=
  match skipGaps cs with
  | '"' :: rest =>
      match readString rest with
      | none => none
      | some (name, rest) =>
          match skipGaps rest with
          | ':' :: rest => some (name, rest)
          | _ => none
  | _ => none

mutual

/-- The value at the start of a text, and what follows it. -/
def readValue (steps : Nat) (cs : List Char) : Option (Document × List Char) :=
  match steps with
  | 0 => none
  | steps + 1 =>
      match skipGaps cs with
      | '"' :: rest => (readString rest).map fun (s, rest) => (.string s, rest)
      | '[' :: rest =>
          match skipGaps rest with
          | ']' :: rest => some (.array [], rest)
          | _ => readItems steps [] rest
      | '{' :: rest =>
          match skipGaps rest with
          | '}' :: rest => some (.object [], rest)
          | _ => readMembers steps [] rest
      | rest => readScalar rest

/-- The items of a list up to its end.  `done` holds the items so far, last one
first. -/
def readItems (steps : Nat) (done : List Document) (cs : List Char) :
    Option (Document × List Char) :=
  match steps with
  | 0 => none
  | steps + 1 =>
      match readValue steps cs with
      | none => none
      | some (item, rest) =>
          match skipGaps rest with
          | ',' :: rest => readItems steps (item :: done) rest
          | ']' :: rest => some (.array (item :: done).reverse, rest)
          | _ => none

/-- The members of an object up to its end.  `done` holds the members so far,
last one first. -/
def readMembers (steps : Nat) (done : List (Option String × Document)) (cs : List Char) :
    Option (Document × List Char) :=
  match steps with
  | 0 => none
  | steps + 1 =>
      match readName cs with
      | none => none
      | some (name, rest) =>
          match readValue steps rest with
          | none => none
          | some (member, rest) =>
              match skipGaps rest with
              | ',' :: rest => readMembers steps ((name, member) :: done) rest
              | '}' :: rest => some (.object ((name, member) :: done).reverse, rest)
              | _ => none

end

end Reader

/-- The document a text says, if it follows the grammar. -/
def Document.parse? (text : String) : Option Document :=
  let cs := text.toList
  match Reader.readValue (2 * cs.length + 2) cs with
  | none => none
  | some (d, rest) => if (Reader.skipGaps rest).isEmpty then some d else none

end SchemaTypes.Json
