import ProgramQueue.Decimal.Scaled
import ProgramQueue.Hex
import ProgramQueue.Yaml

/-!
# What scalars mean

A scalar without quotes may stand for no value, a truth value or a number; in
quotes it is always a text.  Integers may be written in four bases, but not with
leading zeros.  A text that would be read as something else without quotes, or
that another reader may take for a number, is ambiguous.
-/

namespace ProgramQueue.Yaml

/-! ## Words -/

def nullWords : List String := ["null", "Null", "NULL", "~"]

def boolWords : List String := ["true", "True", "TRUE", "false", "False", "FALSE"]

/-! ## Integers -/

/-- A text without the plus sign in front of it. -/
def unsigned : List Char → List Char
  | '+' :: rest => rest
  | text => text

def isSigned : List Char → Bool
  | '+' :: _ => true
  | '-' :: _ => true
  | _ => false

def withoutSign (text : List Char) : List Char :=
  if isSigned text then text.drop 1 else text

/-- The number that digits of a base denote, if there are any. -/
def natOfDigits? (base : Nat) (digits : List Char) : Option Nat :=
  if digits.isEmpty then none
  else
    digits.foldlM (fun n c => do
      let d ← Hex.value? c
      if d < base then some (n * base + d) else none) 0

/-- A number that digits of a base denote, if it is below a bound. -/
def natBelow? (bound base : Nat) (digits : List Char) : Option Nat :=
  (natOfDigits? base digits).filter (· < bound)

/-- Zeros lead the digits of what might be a number. -/
def hasLeadingZeros (text : List Char) : Bool :=
  match withoutSign text with
  | '0' :: c :: rest => (c :: rest).all Char.isDigit
  | _ => false

/-- The base that a text names in front of its digits, and the digits. -/
def namedBase? : List Char → Option (Nat × List Char)
  | '0' :: 'x' :: digits => some (16, digits)
  | '0' :: 'o' :: digits => some (8, digits)
  | '0' :: 'b' :: digits => some (2, digits)
  | _ => none

/-- The integer from zero up to a bound that a scalar denotes. -/
def readNat? (bound : Nat) (text : List Char) : Option Nat :=
  let digits := unsigned text
  match namedBase? digits with
  | some (base, digits) => natBelow? bound base digits
  | none => if hasLeadingZeros text then none else natBelow? bound 10 digits

/-- The scalar denotes an integer below zero that 128 bits can hold. -/
def isNegativeInteger (text : List Char) : Bool :=
  match text with
  | '-' :: digits =>
      match namedBase? digits with
      | some (base, digits) => (natBelow? (Nat.pow 2 127 + 1) base digits).isSome
      | none =>
          !hasLeadingZeros text && (natBelow? (Nat.pow 2 127 + 1) 10 digits).isSome
  | _ => false

/-- The scalar denotes an integer of 128 bits, with or without a sign. -/
def isInteger (text : List Char) : Bool :=
  (readNat? (Nat.pow 2 128) text).isSome || isNegativeInteger text

/-! ## Decimals -/

/-- The digits of a mantissa before and after the point, and what follows. -/
def mantissa? (text : List Char) : Option (List Char × List Char × List Char) :=
  let whole := text.takeWhile Char.isDigit
  let rest := text.dropWhile Char.isDigit
  let (fraction, rest) :=
    match rest with
    | '.' :: rest => (rest.takeWhile Char.isDigit, rest.dropWhile Char.isDigit)
    | rest => ([], rest)
  if whole.isEmpty && fraction.isEmpty then none else some (whole, fraction, rest)

/-- The power of ten that ends a decimal. -/
def power? : List Char → Option Int
  | [] => some 0
  | mark :: rest =>
      if mark = 'e' || mark = 'E' then do
        let n ← natOfDigits? 10 (withoutSign rest)
        return if rest.head? = some '-' then -(n : Int) else n
      else none

/-- The double nearest to `digits * 10 ^ power`; none if it is too large. -/
def nearest? (negative : Bool) (digits : Nat) (power : Int) : Option Double :=
  let leading := power + (Nat.toDigits 10 digits).length
  if digits = 0 ∨ leading < -400 then some (.ofQuotient negative 0 1)
  else if 400 < leading then none
  else
    let x := Double.ofQuotient negative (digits * Nat.pow 10 power.toNat)
      (Nat.pow 10 (-power).toNat)
    if x.isFinite then some x else none

/-- The finite number that a decimal with an optional sign denotes. -/
def decimal? (text : List Char) : Option Double := do
  let (whole, fraction, rest) ← mantissa? (withoutSign text)
  let power ← power? rest
  let digits := (whole ++ fraction).foldl (fun n c => n * 10 + Decimal.digitValue c) 0
  nearest? (text.head? = some '-') digits (power - fraction.length)

/-- The double that a scalar denotes. -/
def readDouble? (text : String) : Option Double :=
  let digits := unsigned text.toList
  if [".inf", ".Inf", ".INF"].contains (String.ofList digits) then
    some (.infinity false)
  else if ["-.inf", "-.Inf", "-.INF"].contains text then some (.infinity true)
  else if [".nan", ".NaN", ".NAN"].contains text then some .nan
  else if text.toList.head? = some '+' && isSigned digits then none
  else decimal? digits

/-! ## Texts -/

/-- The text would be read as something else if it stood without quotes, or
looks like a number. -/
def isAmbiguous (text : String) : Bool :=
  text.isEmpty || nullWords.contains text || boolWords.contains text ||
    isInteger text.toList || hasLeadingZeros text.toList ||
    (readDouble? text).isSome

/-- The scalar that stands for a text. -/
def ofText (text : String) : Yaml := scalar (!isAmbiguous text) text

def text? : Yaml → Option String
  | scalar _ text => some text
  | _ => none

/-- The text of a scalar without quotes. -/
def plainText? : Yaml → Option String
  | scalar true text => some text
  | _ => none

def isNull : Yaml → Bool
  | scalar true text => text.isEmpty || nullWords.contains text
  | _ => false

/-- The integer below a bound that a node denotes. -/
def nat? (bound : Nat) (node : Yaml) : Option Nat :=
  node.plainText?.bind fun text => readNat? bound text.toList

def double? (node : Yaml) : Option Double := node.plainText?.bind readDouble?

/-- The items of a list; nothing written is a list without items. -/
def items? : Yaml → Option (List Yaml)
  | list items => some items
  | scalar true "" => some []
  | _ => none

/-- The entries of a map; nothing written is a map without entries. -/
def entries? : Yaml → Option (List (Yaml × Yaml))
  | map entries => some entries
  | scalar true "" => some []
  | _ => none

end ProgramQueue.Yaml
