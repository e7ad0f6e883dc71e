import ProgramQueue.Decimal.Shortest

/-!
# How a decimal is set out

A number is written with a fraction or with an exponent, never as a bare
integer, so that a reader can tell it from one.  Which exponents are written
positionally, and whether a positive exponent carries its sign, is up to the
format that the number is written in.
-/

namespace ProgramQueue.Decimal

/-- The choices a format makes about its numbers. -/
structure Layout where
  /-- The least exponent of the leading digit that is written positionally. -/
  leastPositional : Int
  /-- The greatest exponent of the leading digit that is written positionally. -/
  greatestPositional : Int
  plusSign : Bool
  notANumber : String
  infinite : String
  minusInfinite : String

/-- The digits without the zeros that end them. -/
def trimZeros (digits : List Char) : List Char :=
  (digits.reverse.dropWhile (· = '0')).reverse

/-- Digits of which the first has the place value `10 ^ exponent`, with a point. -/
def positional (digits : List Char) (exponent : Int) : List Char :=
  if exponent < 0 then
    '0' :: '.' :: (List.replicate (-exponent - 1).toNat '0' ++ digits)
  else
    let whole := exponent.toNat + 1
    if digits.length ≤ whole then
      digits ++ List.replicate (whole - digits.length) '0' ++ ['.', '0']
    else digits.take whole ++ '.' :: digits.drop whole

/-- Digits of which the first has the place value `10 ^ exponent`, with a power
of ten. -/
def scientific (plusSign : Bool) (digits : List Char) (exponent : Int) : List Char :=
  let mantissa :=
    match digits with
    | first :: second :: rest => first :: '.' :: second :: rest
    | few => few
  let sign := if exponent < 0 then ['-'] else if plusSign then ['+'] else []
  mantissa ++ 'e' :: (sign ++ Nat.toDigits 10 exponent.natAbs)

/-- A positive decimal as the layout sets it out. -/
def Layout.positive (layout : Layout) (number : Digits) : List Char :=
  let all := Nat.toDigits 10 number.digits
  let exponent := number.exponent + (all.length - 1)
  let digits := trimZeros all
  if layout.leastPositional ≤ exponent ∧ exponent ≤ layout.greatestPositional then
    positional digits exponent
  else scientific layout.plusSign digits exponent

/-- The text of a double: the shortest decimal that reads back, set out. -/
def Layout.text (layout : Layout) (number : Double) : List Char :=
  if number.isNaN then layout.notANumber.toList
  else if !number.isFinite then
    (if number.isNegative then layout.minusInfinite else layout.infinite).toList
  else
    let magnitude :=
      if number.mantissa = 0 then ['0', '.', '0']
      else layout.positive (shortest number)
    if number.isNegative then '-' :: magnitude else magnitude

end ProgramQueue.Decimal
