import ProgramQueue.Text.Blank

/-!
# Native amounts

Amounts are decimal texts in the smallest unit of a currency.  They denote
natural numbers below `2 ^ 128`; every operation reads its operands, computes
exactly and fails if the result does not fit.
-/

namespace ProgramQueue.Amount

/-- One more than the largest amount. -/
def bound : Nat := Nat.pow 2 128

inductive Error where
  /-- The text denotes no amount. -/
  | malformed (text : String)
  /-- The sum is too large. -/
  | sumTooLarge (a b : String)
  /-- The product with the percentage is too large. -/
  | productTooLarge (a : String)
deriving DecidableEq, Repr

def Error.message : Error → String
  | malformed text => s!"invalid native amount '{text}'"
  | sumTooLarge a b => s!"native amount overflow: {a} + {b}"
  | productTooLarge a => s!"native amount overflow: {a}"

def digit? (c : Char) : Option Nat :=
  if '0' ≤ c ∧ c ≤ '9' then some (c.toNat - '0'.toNat) else none

/-- The number that digits append to one read so far, while it fits. -/
def digitsFrom? (total : Nat) : List Char → Option Nat
  | [] => some total
  | c :: rest => do
      let next := total * 10 + (← digit? c)
      if next < bound then digitsFrom? next rest else none

def digits? : List Char → Option Nat
  | [] => none
  | chars => digitsFrom? 0 chars

/-- The number that digits with at most one plus sign denote. -/
def unsigned? : List Char → Option Nat
  | '+' :: rest => digits? rest
  | chars => digits? chars

/-- The amount that a text denotes; blanks around it do not count. -/
def value? (text : String) : Option Nat := unsigned? (Text.trimChars text.toList)

def text (n : Nat) : String := String.ofList (Nat.toDigits 10 n)

def parse (a : String) : Except Error Nat :=
  match value? a with
  | some n => .ok n
  | none => .error (.malformed a)

def add (a b : String) : Except Error String := do
  let sum := (← parse a) + (← parse b)
  if sum < bound then .ok (text sum) else .error (.sumTooLarge a b)

/-- So many hundredths of an amount, rounded down. -/
def percentOf (a : String) (percent : Nat) : Except Error String := do
  let product := (← parse a) * percent
  if product < bound then .ok (text (product / 100))
  else .error (.productTooLarge a)

def compare (a b : String) : Except Error Ordering := do
  return Ord.compare (← parse a) (← parse b)

end ProgramQueue.Amount
