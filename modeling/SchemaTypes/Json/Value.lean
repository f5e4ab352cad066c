import SchemaTypes.Json.Number
import SchemaTypes.Table
import SchemaTypes.Text.Split

/-!
# Values of a document

A value is what is kept of a document: scalars, lists and objects.  An object
keeps its names in order and names nothing twice.

`Value.text` writes a value without blanks.  In a string the quote, the
backslash and the control characters are escaped, and nothing else is.
-/

namespace SchemaTypes.Json

/-- A value that is kept of a document. -/
inductive Value
  | null
  | bool (b : Bool)
  | number (n : Number)
  | string (s : String)
  | array (items : List Value)
  | object (members : List (String × Value))
deriving Inhabited

namespace Value

/-! ## Escaped strings -/

/-- A digit to the base sixteen, with small letters. -/
def hexDigit (n : Nat) : Char := (Nat.digitChar (n % 16))

/-- What stands for a character in a string. -/
def escapeChar (c : Char) : List Char :=
  if c = '"' then ['\\', '"']
  else if c = '\\' then ['\\', '\\']
  else if c = '\n' then ['\\', 'n']
  else if c = '\r' then ['\\', 'r']
  else if c = '\t' then ['\\', 't']
  else if c = '\x08' then ['\\', 'b']
  else if c = '\x0c' then ['\\', 'f']
  else if c.toNat < 32 then ['\\', 'u', '0', '0', hexDigit (c.toNat / 16), hexDigit c.toNat]
  else [c]

/-- A string in double quotes. -/
def quoted (s : String) : String :=
  String.ofList ('"' :: s.toList.flatMap escapeChar ++ ['"'])

/-! ## The text of a value -/

mutual

/-- The text of a value. -/
def text : Value → String
  | .null => "null"
  | .bool b => if b then "true" else "false"
  | .number n => n.text
  | .string s => quoted s
  | .array items => "[" ++ Text.join "," (itemTexts items) ++ "]"
  | .object members => "\x7b" ++ Text.join "," (memberTexts members) ++ "\x7d"

/-- The texts of values. -/
def itemTexts : List Value → List String
  | [] => []
  | v :: rest => text v :: itemTexts rest

/-- The texts of the members of an object. -/
def memberTexts : List (String × Value) → List String
  | [] => []
  | (name, v) :: rest => (quoted name ++ ":" ++ text v) :: memberTexts rest

end

/-! ## Looking into a value -/

/-- The string a value is, if it is one. -/
def asString? : Value → Option String
  | .string s => some s
  | _ => none

/-- The truth value a value is, if it is one. -/
def asBool? : Value → Option Bool
  | .bool b => some b
  | _ => none

/-- Whether a value is the truth value true. -/
def isTrue (v : Value) : Bool := v.asBool? == some true

end Value

end SchemaTypes.Json
