import ProgramQueue.Double

/-!
# The shortest decimal that reads back

Every double is the nearest one to an interval of reals around it.  Among the
decimals inside that interval the ones with the fewest digits are kept, and of
those the one nearest to the number, an exact tie going to the even last digit.
All of it is exact arithmetic on natural numbers.
-/

namespace ProgramQueue.Decimal

/-- The number `digits * Nat.pow 10 exponent`. -/
structure Digits where
  digits : Nat
  exponent : Int
deriving DecidableEq, Repr

/-- The reals that round to a double, all four times as large as they are:
`low`, `value` and `high` times `2 ^ power`. -/
structure Span where
  low : Nat
  value : Nat
  high : Nat
  power : Int
  endsIncluded : Bool
deriving Repr

/-- The reals that round to a positive finite double.  The ends belong to it
when its last bit is zero, and below a power of two the gap is half as wide. -/
def Span.ofDouble (number : Double) : Span :=
  let m := number.mantissa
  let below := if number.fractionField = 0 ∧ 1 < number.exponentField then 1 else 2
  { low := 4 * m - below
    value := 4 * m
    high := 4 * m + 2
    power := number.power - 2
    endsIncluded := m % 2 = 0 }

/-- The exponent of the leading decimal digit of `value * Nat.pow 2 power`, for a
value that no double undercuts. -/
def leadingExponent (value : Nat) (power : Int) : Int :=
  let scaled := value * Nat.pow 10 400 * Nat.pow 2 power.toNat / Nat.pow 2 (-power).toNat
  (Nat.toDigits 10 scaled).length - 401

/-- The best multiple of `10 ^ grid` in the span, if one of the two multiples
next to the value lies in it. -/
def Span.nearestOn? (span : Span) (grid : Int) : Option Nat :=
  let up := Nat.pow 2 span.power.toNat * Nat.pow 10 (-grid).toNat
  let unit := Nat.pow 2 (-span.power).toNat * Nat.pow 10 grid.toNat
  let floor := span.value * up / unit
  let inside (n : Nat) : Bool :=
    if span.endsIncluded then
      span.low * up ≤ n * unit && n * unit ≤ span.high * up
    else span.low * up < n * unit && n * unit < span.high * up
  let below := span.value * up - floor * unit
  let above := (floor + 1) * unit - span.value * up
  match inside floor, inside (floor + 1) with
  | false, false => none
  | true, false => some floor
  | false, true => some (floor + 1)
  | true, true =>
      if below < above then some floor
      else if above < below then some (floor + 1)
      else if floor % 2 = 0 then some floor else some (floor + 1)

/-- Tries ever finer grids, at most `count` of them. -/
def Span.search (span : Span) (grid : Int) : Nat → Digits
  | 0 => ⟨span.value * Nat.pow 2 span.power.toNat / Nat.pow 2 (-span.power).toNat, 0⟩
  | count + 1 =>
      match span.nearestOn? grid with
      | some n => ⟨n, grid⟩
      | none => span.search (grid - 1) count

/-- The shortest decimal that reads back as a positive finite double; seventeen
digits always suffice. -/
def shortest (number : Double) : Digits :=
  let span := Span.ofDouble number
  span.search (leadingExponent span.value span.power) 18

end ProgramQueue.Decimal
