import ProgramQueue.Double

/-!
# Numerals in a bounded accumulator

A numeral is gathered into a 64-bit significand and a power of ten.  Digits are
taken while they fit; a digit of the whole part that no longer fits raises the
power instead, one of the fraction is dropped.  The number is the significand
times or divided by that power in double arithmetic.
-/

namespace ProgramQueue.Decimal

/-- One more than the largest significand. -/
def significandBound : Nat := Nat.pow 2 64

def digitValue (c : Char) : Nat := c.toNat - '0'.toNat

/-- The digits appended to a significand while they fit, and those that are left. -/
def gather (significand : Nat) : List Char → Nat × List Char
  | [] => (significand, [])
  | c :: rest =>
      let next := significand * 10 + digitValue c
      if next < significandBound then gather next rest
      else (significand, c :: rest)

/-- The number `significand * 10 ^ exponent` before it is rounded. -/
structure Scaled where
  significand : Nat
  exponent : Int
deriving DecidableEq, Repr

/-- A numeral from the digits before and after the point and the power that it
was written with. -/
def Scaled.ofDigits (whole fraction : List Char) (power : Int) : Scaled :=
  let (high, overflow) := gather 0 whole
  let (significand, dropped) := gather high fraction
  { significand
    exponent := overflow.length - (fraction.length - dropped.length : Nat) + power }

def powerOfTen (n : Nat) : Double := Double.ofNat (Nat.pow 10 n)

/-- The largest power of ten that a double can hold. -/
def stride : Nat := 308

/-- A value divided by `10 ^ stride` so many times. -/
def divideByStrides (value : Double) : Nat → Double
  | 0 => value
  | count + 1 => divideByStrides (value / powerOfTen stride) count

/-- Division by a power of ten in strides that a double can hold.  Three strides
bring every significand to zero, so no more are made. -/
def divideByPower (value : Double) (n : Nat) : Double :=
  let count := (n - 1) / stride
  divideByStrides value (min count 3) / powerOfTen (n - stride * count)

/-- The magnitude of the numeral, if it is within the range of a double. -/
def Scaled.magnitude? (number : Scaled) : Option Double :=
  let value := Double.ofNat number.significand
  match number.exponent with
  | .ofNat n =>
      if n ≤ stride then
        let product := value * powerOfTen n
        if product.isInfinite then none else some product
      else if number.significand = 0 then some value
      else none
  | .negSucc n => some (divideByPower value (n + 1))

/-- The numeral with its sign as a double, if it is within range. -/
def Scaled.toDouble? (negative : Bool) (number : Scaled) : Option Double :=
  number.magnitude?.map fun value => if negative then value.neg else value

end ProgramQueue.Decimal
