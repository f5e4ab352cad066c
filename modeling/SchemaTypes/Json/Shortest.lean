import SchemaTypes.Json.Double

/-!
# The shortest decimal of a double

Among the decimals that are read back as a given double, `digits` finds one
with the fewest digits, and of several the nearest to the double.

The decimals that are read back form an interval around the double.  Its ends
belong to it exactly when the significand is even.  For 1, 2, up to 17 digits
the two neighbours of the double on the grid of such decimals are tested.
Seventeen digits always suffice.

`text` writes the digits: with a point and at least one digit after it where
the value lies between `1e-5` and `1e16`, and with an exponent elsewhere.
-/

namespace SchemaTypes.Json

namespace Double

/-! ## Fractions -/

/-- How many decimal digits a number has.  Zero has one. -/
def digitCount (n : Nat) : Nat := (Nat.toDigits 10 n).length

/-- The power of ten the quotient lies below, but not below a tenth of it. -/
def decimalExponent (num den : Nat) : Int :=
  if den ≤ num then digitCount (num / den)
  else 1 - (digitCount ((den + num - 1) / num - 1) : Int)

/-- The fraction in units of a power of ten. -/
def inDecimalUnits (num den : Nat) (exponent : Int) : Nat × Nat :=
  (num * powerOfTen (-exponent).toNat, den * powerOfTen exponent.toNat)

/-! ## The interval of a double -/

/-- The two ends of the interval that is read back as the double, and the
double itself, as numerators over one denominator. -/
structure Interval where
  low : Nat
  value : Nat
  high : Nat
  den : Nat
  /-- Whether the ends belong to it. -/
  closed : Bool

/-- The interval around a double other than zero.  Below a power of two the
doubles lie twice as close. -/
def interval (x : Double) : Interval :=
  let below := if x.significand = powerOfTwo 52 ∧ minExponent < x.exponent then 1 else 2
  let scale := powerOfTwo (x.exponent - 2).toNat
  ⟨(4 * x.significand - below) * scale, 4 * x.significand * scale,
    (4 * x.significand + 2) * scale, powerOfTwo (2 - x.exponent).toNat, x.significand % 2 == 0⟩

/-- Whether `n` units of a power of ten lie in the interval. -/
def Interval.holds (i : Interval) (n : Nat) (unit : Int) : Bool :=
  let point := n * powerOfTen unit.toNat * i.den
  let low := i.low * powerOfTen (-unit).toNat
  let high := i.high * powerOfTen (-unit).toNat
  if i.closed then low ≤ point && point ≤ high else low < point && point < high

/-- The neighbour of the double on the grid of a power of ten that lies in the
interval.  Where both do, it is the nearer one, or the even one. -/
def Interval.onGrid? (i : Interval) (unit : Int) : Option Nat :=
  let (n, d) := inDecimalUnits i.value i.den unit
  let floor := n / d
  let nearest := roundedQuotient n d
  let other := if nearest = floor then floor + 1 else floor
  if i.holds nearest unit then some nearest
  else if i.holds other unit then some other
  else none

/-- Tries grids with more and more digits. -/
def Interval.search (i : Interval) (top : Int) : Nat → Nat → Nat × Int
  | 0, tried =>
      let (n, d) := inDecimalUnits i.value i.den (top - tried)
      (n / d, top - tried)
  | more + 1, tried =>
      let unit := top - (tried + 1 : Nat)
      match i.onGrid? unit with
      | some n => (n, unit)
      | none => i.search top more (tried + 1)

/-- Drops the zeros at the end of a numeral and counts them. -/
def dropZeros : List Char → List Char × Nat
  | [] => ([], 0)
  | c :: rest =>
      match dropZeros rest with
      | ([], n) => if c = '0' then ([], n + 1) else ([c], n)
      | (kept, n) => (c :: kept, n)

/-- The digits of the shortest decimal of a double other than zero, and the
power of ten of the last one. -/
def digits (x : Double) : List Char × Int :=
  let i := x.interval
  let (n, unit) := i.search (decimalExponent i.value i.den) 17 0
  let (kept, zeros) := dropZeros (Nat.toDigits 10 n)
  (kept, unit + zeros)

/-! ## The text -/

/-- The digits with a point before the digit at the given place. -/
def withPoint (ds : List Char) (place : Nat) : List Char := ds.take place ++ '.' :: ds.drop place

/-- The text without the sign of digits whose point stands at `place`. -/
def digitsText (ds : List Char) (place : Int) : List Char :=
  let count : Int := ds.length
  if 0 < place && place ≤ 16 then
    if count ≤ place then ds ++ List.replicate (place - count).toNat '0' ++ ['.', '0']
    else withPoint ds place.toNat
  else if -5 < place && place ≤ 0 then
    '0' :: '.' :: List.replicate (-place).toNat '0' ++ ds
  else
    let mantissa := if ds.length ≤ 1 then ds else withPoint ds 1
    let e := place - 1
    mantissa ++ 'e' :: (if e < 0 then '-' else '+') :: Nat.toDigits 10 e.natAbs

/-- The text of a double. -/
def text (x : Double) : String :=
  let sign := if x.negative then ['-'] else []
  if x.isZero then String.ofList (sign ++ ['0', '.', '0'])
  else
    let (ds, unit) := x.digits
    String.ofList (sign ++ digitsText ds (unit + ds.length))

end Double

end SchemaTypes.Json
