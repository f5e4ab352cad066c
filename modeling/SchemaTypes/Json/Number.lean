import SchemaTypes.Json.Shortest

/-!
# Numbers of a document

A number of a document is an integer where it is written without a point and
an exponent and fits into 64 bits, with or without a sign.  Every other number
is a double, and so is the integer `-0`.

A double is not read as the nearest one.  The first digits that fit into 64
bits without a sign make up the significand, and all digits after them only
count.  The significand is rounded to a double and then scaled by a power of
ten, which rounds once more.  `Numeral.value?` is that rule.  It has no value
where the result is too large.
-/

namespace SchemaTypes.Json

/-- A number that a document keeps. -/
inductive Number
  | integer (n : Int)
  | double (x : Double)
deriving DecidableEq, Repr, Inhabited

/-- The text of a number. -/
def Number.text : Number → String
  | .integer n => toString n
  | .double x => x.text

/-- A number as it is written. -/
structure Numeral where
  /-- Whether a minus sign stands before it. -/
  negative : Bool
  /-- The digits before the point. -/
  whole : List Nat
  /-- The digits after the point, none without a point. -/
  decimals : List Nat
  /-- The sign and the digits of the exponent. -/
  exponent : Option (Bool × List Nat)
  /-- Whether there is neither a point nor an exponent. -/
  plain : Bool
deriving Repr

namespace Numeral

/-- The first number with a sign of its own that 64 bits cannot hold. -/
def limit : Nat := powerOfTwo 64

/-- The greatest exponent that is counted. -/
def maxExponent : Nat := powerOfTwo 31 - 1

/-- Takes digits into a significand as long as it fits into 64 bits, and
counts the digits that are left over. -/
def take (significand : Nat) : List Nat → Nat × Nat
  | [] => (significand, 0)
  | d :: rest =>
      if significand * 10 + d < limit then take (significand * 10 + d) rest
      else (significand, rest.length + 1)

/-- The number that digits denote. -/
def ofDigits (ds : List Nat) : Nat := ds.foldl (fun n d => n * 10 + d) 0

/-- The power of ten, rounded to a double. -/
def tenTo (n : Nat) : Double := (Double.ofNat? (powerOfTen n)).getD (.zero false)

/-- A significand divided by a power of ten, by at most `1e308` at a time.
Nothing is left of 64 bits after two such steps. -/
def scaleDown? (x : Double) (e : Nat) : Option Double :=
  if e ≤ 308 then x.div? (tenTo e)
  else if e ≤ 616 then (x.div? (tenTo 308)).bind fun y => y.div? (tenTo (e - 308))
  else some (.zero x.negative)

/-- A double times a power of ten, if it is finite. -/
def scale? (x : Double) (e : Int) : Option Double :=
  if 0 ≤ e then
    if e ≤ 308 then x.mul? (tenTo e.toNat)
    else if x.isZero then some x
    else none
  else scaleDown? x e.natAbs

/-- A significand times a power of ten, with the sign of the numeral. -/
def scaled? (n : Numeral) (significand : Nat) (e : Int) : Option Double := do
  let x ← Double.ofNat? significand
  let y ← scale? x e
  pure (if n.negative then y.neg else y)

/-- The double a numeral stands for, if it is finite. -/
def double? (n : Numeral) : Option Double :=
  let (s, dropped) := take 0 n.whole
  let (s, left) := take s n.decimals
  let start : Int := (dropped : Int) - ((n.decimals.length - left : Nat) : Int)
  match n.exponent with
  | none => n.scaled? s start
  | some (negativeExponent, ds) =>
      let e := ofDigits ds
      if maxExponent < e then
        if s ≠ 0 ∧ negativeExponent = false then none else some (.zero n.negative)
      else n.scaled? s (if negativeExponent then start - e else start + e)

/-- The number a numeral stands for, if it is in range. -/
def value? (n : Numeral) : Option Number :=
  let (s, dropped) := take 0 n.whole
  if n.plain && dropped == 0 then
    if n.negative then
      if s = 0 ∨ powerOfTwo 63 < s then (n.scaled? s 0).map .double
      else some (.integer (-(s : Int)))
    else some (.integer s)
  else n.double?.map .double

end Numeral

end SchemaTypes.Json
