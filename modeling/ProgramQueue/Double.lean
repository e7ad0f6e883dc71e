/-!
# Double-precision numbers

A double is known by its sixty-four bits: a sign, eleven bits of exponent and
fifty-two of fraction.  Arithmetic is exact on natural numbers and is rounded
once, to the nearest double, an exact tie going to the even one.  Two doubles are
equal here when their bits are; whether one is at most another is a question of
the numbers they stand for, so it holds both ways between the two zeros and never
of something that is not a number.
-/

namespace ProgramQueue

/-- A double-precision number, known by its bits. -/
structure Double where
  bits : UInt64
deriving DecidableEq, Repr, Inhabited

namespace Double

/-! ## Parts -/

/-- The eleven bits of the exponent. -/
def exponentField (x : Double) : Nat := x.bits.toNat / Nat.pow 2 52 % Nat.pow 2 11

/-- The fifty-two bits of the fraction. -/
def fractionField (x : Double) : Nat := x.bits.toNat % Nat.pow 2 52

def isNegative (x : Double) : Bool := Nat.pow 2 63 ≤ x.bits.toNat

/-- Neither infinite nor something that is not a number. -/
def isFinite (x : Double) : Bool := x.exponentField != 2047

def isNaN (x : Double) : Bool := x.exponentField == 2047 && x.fractionField != 0

/-- Larger than every finite number, with either sign. -/
def isInfinite (x : Double) : Bool := x.exponentField == 2047 && x.fractionField == 0

/-- The magnitude of a finite number is `mantissa * Nat.pow 2 power`. -/
def mantissa (x : Double) : Nat :=
  if x.exponentField = 0 then x.fractionField else x.fractionField + Nat.pow 2 52

/-- The power of two that goes with `mantissa`. -/
def power (x : Double) : Int :=
  if x.exponentField = 0 then -1074 else x.exponentField - 1075

/-! ## Rounding -/

/-- The bits of positive infinity. -/
def infinityBits : Nat := 2047 * Nat.pow 2 52

/-- A number from the bits of its magnitude; what is too large is infinite. -/
def ofMagnitude (negative : Bool) (bits : Nat) : Double :=
  let bits := min bits infinityBits
  ⟨UInt64.ofNat (if negative then bits + Nat.pow 2 63 else bits)⟩

def nan : Double := ⟨UInt64.ofNat (infinityBits + Nat.pow 2 51)⟩

def infinity (negative : Bool) : Double := ofMagnitude negative infinityBits

/-- The whole number nearest to a quotient, a tie going to the even one. -/
def nearestQuotient (num den : Nat) : Nat :=
  let floor := num / den
  let rest := num % den
  if 2 * rest > den ∨ (2 * rest = den ∧ floor % 2 = 1) then floor + 1 else floor

/-- The largest power of two that is no larger than a positive quotient. -/
def floorLog2 (num den : Nat) : Int :=
  let guess : Int := (Nat.log2 num : Int) - Nat.log2 den
  if den * Nat.pow 2 guess.toNat ≤ num * Nat.pow 2 (-guess).toNat then guess else guess - 1

/-- The bits of the double nearest to a positive quotient: the last place is the
fifty-third below the leading one, or the last that any double has. -/
def nearestMagnitude (num den : Nat) : Nat :=
  let place := max (floorLog2 num den - 52) (-1074)
  let m := nearestQuotient (num * Nat.pow 2 (-place).toNat) (den * Nat.pow 2 place.toNat)
  (place + 1074).toNat * Nat.pow 2 52 + m

/-- The double nearest to a quotient with a sign. -/
def ofQuotient (negative : Bool) (num den : Nat) : Double :=
  ofMagnitude negative (if num = 0 then 0 else nearestMagnitude num den)

/-- The double nearest to `m * Nat.pow 2 power`. -/
def ofScaled (negative : Bool) (m : Nat) (power : Int) : Double :=
  ofQuotient negative (m * Nat.pow 2 power.toNat) (Nat.pow 2 (-power).toNat)

def ofNat (n : Nat) : Double := ofQuotient false n 1

def ofInt (n : Int) : Double := ofQuotient (n < 0) n.natAbs 1

def one : Double := ofNat 1

/-! ## Arithmetic -/

def neg (x : Double) : Double := ⟨x.bits ^^^ 0x8000000000000000⟩

def mul (x y : Double) : Double :=
  let negative := x.isNegative != y.isNegative
  if x.isNaN || y.isNaN then nan
  else if x.isInfinite then
    if y.isFinite && y.mantissa = 0 then nan else infinity negative
  else if y.isInfinite then if x.mantissa = 0 then nan else infinity negative
  else ofScaled negative (x.mantissa * y.mantissa) (x.power + y.power)

def div (x y : Double) : Double :=
  let negative := x.isNegative != y.isNegative
  if x.isNaN || y.isNaN then nan
  else if x.isInfinite then if y.isInfinite then nan else infinity negative
  else if y.isInfinite then ofMagnitude negative 0
  else if y.mantissa = 0 then
    if x.mantissa = 0 then nan else infinity negative
  else
    let power := x.power - y.power
    ofQuotient negative (x.mantissa * Nat.pow 2 power.toNat)
      (y.mantissa * Nat.pow 2 (-power).toNat)

instance : Mul Double := ⟨mul⟩
instance : Div Double := ⟨div⟩

/-! ## Comparison -/

/-- The place of a number among all numbers; both zeros have the same. -/
def rank (x : Double) : Int :=
  if x.isNegative then -(x.bits.toNat - Nat.pow 2 63 : Nat) else x.bits.toNat

def le (x y : Double) : Bool := !x.isNaN && !y.isNaN && x.rank ≤ y.rank

def same (x y : Double) : Bool := x.le y && y.le x

/-- The larger of two numbers; something that is no number does not count. -/
def max (x y : Double) : Double :=
  if x.isNaN then y else if y.isNaN then x else if x.le y then y else x

/-- The whole part of a number, brought into the range below a bound. -/
def toNatBelow (bound : Nat) (x : Double) : Nat :=
  if x.isNaN || x.isNegative then 0
  else if x.isInfinite then bound - 1
  else min (x.mantissa * Nat.pow 2 x.power.toNat / Nat.pow 2 (-x.power).toNat) (bound - 1)

end Double

end ProgramQueue
