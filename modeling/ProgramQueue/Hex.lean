/-!
# Bytes in hexadecimal

Two digits to a byte, the high one first; lower case is written and either case
is read.
-/

namespace ProgramQueue.Hex

/-- A digit below sixteen in lower case. -/
def digit (n : Nat) : Char :=
  if n < 10 then Char.ofNat ('0'.toNat + n) else Char.ofNat ('a'.toNat + (n - 10))

/-- The value of a digit in either case. -/
def value? (c : Char) : Option Nat :=
  if '0' ≤ c ∧ c ≤ '9' then some (c.toNat - '0'.toNat)
  else if 'a' ≤ c ∧ c ≤ 'f' then some (c.toNat - 'a'.toNat + 10)
  else if 'A' ≤ c ∧ c ≤ 'F' then some (c.toNat - 'A'.toNat + 10)
  else none

def encodeChars : List UInt8 → List Char
  | [] => []
  | byte :: rest =>
      digit (byte.toNat / 16) :: digit (byte.toNat % 16) :: encodeChars rest

/-- The bytes of an even number of digits. -/
def decodeChars : List Char → Option (List UInt8)
  | [] => some []
  | [_] => none
  | high :: low :: rest => do
      let high ← value? high
      let low ← value? low
      let bytes ← decodeChars rest
      return UInt8.ofNat (high * 16 + low) :: bytes

def encode (bytes : List UInt8) : String := String.ofList (encodeChars bytes)

def decode? (text : String) : Option (List UInt8) := decodeChars text.toList

end ProgramQueue.Hex
