/-!
# Numbers with 53 bits

A double is a sign, a significand of at most 53 bits and a power of two.  It
is finite: an operation that leaves the range has no result.  All arithmetic
here is exact arithmetic of natural numbers, followed by one rounding to the
nearest double.  A value half-way between two doubles goes to the one with the
even significand.
-/

namespace SchemaTypes.Json

/-! ## Powers -/

/-- A power of two. -/
def powerOfTwo (n : Nat) : Nat := Nat.pow 2 n

/-- A power of ten. -/
def powerOfTen (n : Nat) : Nat := Nat.pow 10 n

/-! ## Doubles -/

/-- A finite double: `± significand * 2 ^ exponent`. -/
structure Double where
  /-- Whether the sign is minus. -/
  negative : Bool
  /-- Less than `2 ^ 53`, and at least `2 ^ 52` unless the exponent is the
  least one. -/
  significand : Nat
  /-- From `-1074` to `971`. -/
  exponent : Int
deriving DecidableEq, Repr, Inhabited

namespace Double

/-- The least exponent. -/
def minExponent : Int := -1074

/-- The greatest exponent. -/
def maxExponent : Int := 971

/-- Zero with a sign. -/
def zero (negative : Bool) : Double := ⟨negative, 0, minExponent⟩

/-- Whether the value is zero. -/
def isZero (x : Double) : Bool := x.significand == 0

/-! ## Rounding a quotient -/

/-- The quotient rounded to the nearest integer, a half to the even one. -/
def roundedQuotient (num den : Nat) : Nat :=
  let floor := num / den
  let twice := 2 * (num % den)
  if twice < den then floor
  else if den < twice then floor + 1
  else floor + floor % 2

/-- The quotient of `num` and `den` in units of `2 ^ exponent`, as a
fraction. -/
def inUnits (num den : Nat) (exponent : Int) : Nat × Nat :=
  (num * powerOfTwo (-exponent).toNat, den * powerOfTwo exponent.toNat)

/-- The exponent at which the quotient has 53 bits, or the least one. -/
def exponentFor (num den : Nat) : Int :=
  let guess : Int := (Nat.log2 num : Int) - (Nat.log2 den : Int) - 52
  let (n, d) := inUnits num den guess
  max minExponent (if powerOfTwo 52 ≤ n / d then guess else guess - 1)

/-- The double nearest to the quotient of two numbers, if it is finite. -/
def ofQuotient? (negative : Bool) (num den : Nat) : Option Double :=
  if num = 0 then some (zero negative)
  else
    let e := exponentFor num den
    let (n, d) := inUnits num den e
    let rounded := roundedQuotient n d
    let (significand, exponent) :=
      if rounded = powerOfTwo 53 then (powerOfTwo 52, e + 1) else (rounded, e)
    if maxExponent < exponent then none
    else if significand = 0 then some (zero negative)
    else some ⟨negative, significand, exponent⟩

/-- The double nearest to a natural number, if it is finite. -/
def ofNat? (n : Nat) : Option Double := ofQuotient? false n 1

/-! ## Arithmetic -/

/-- The value without its sign, as a fraction. -/
def fraction (x : Double) : Nat × Nat :=
  (x.significand * powerOfTwo x.exponent.toNat, powerOfTwo (-x.exponent).toNat)

/-- The other sign. -/
def neg (x : Double) : Double := { x with negative := !x.negative }

/-- The double nearest to the product, if it is finite. -/
def mul? (x y : Double) : Option Double :=
  let (a, b) := x.fraction
  let (c, d) := y.fraction
  ofQuotient? (x.negative != y.negative) (a * c) (b * d)

/-- The double nearest to the quotient, if it is finite. -/
def div? (x y : Double) : Option Double :=
  let (a, b) := x.fraction
  let (c, d) := y.fraction
  ofQuotient? (x.negative != y.negative) (a * d) (b * c)

end Double

end SchemaTypes.Json
