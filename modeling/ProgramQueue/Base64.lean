/-!
# Bytes in base 64

The standard alphabet, four characters to three bytes, padded at the end.  Only
canonical texts are read: the padding must be there and the bits that it leaves
over must be zero.
-/

namespace ProgramQueue.Base64

def digit (n : Nat) : Char :=
  if n < 26 then Char.ofNat ('A'.toNat + n)
  else if n < 52 then Char.ofNat ('a'.toNat + (n - 26))
  else if n < 62 then Char.ofNat ('0'.toNat + (n - 52))
  else if n = 62 then '+'
  else '/'

def value? (c : Char) : Option Nat :=
  if 'A' ≤ c ∧ c ≤ 'Z' then some (c.toNat - 'A'.toNat)
  else if 'a' ≤ c ∧ c ≤ 'z' then some (c.toNat - 'a'.toNat + 26)
  else if '0' ≤ c ∧ c ≤ '9' then some (c.toNat - '0'.toNat + 52)
  else if c = '+' then some 62
  else if c = '/' then some 63
  else none

def encodeChars : List UInt8 → List Char
  | [] => []
  | [a] =>
      let n := a.toNat * 16
      [digit (n / 64), digit (n % 64), '=', '=']
  | [a, b] =>
      let n := (a.toNat * 256 + b.toNat) * 4
      [digit (n / 4096), digit (n / 64 % 64), digit (n % 64), '=']
  | a :: b :: c :: rest =>
      let n := (a.toNat * 256 + b.toNat) * 256 + c.toNat
      digit (n / 262144) :: digit (n / 4096 % 64) :: digit (n / 64 % 64) ::
        digit (n % 64) :: encodeChars rest

/-- The bytes of a canonical text. -/
def decodeChars : List Char → Option (List UInt8)
  | [] => some []
  | [a, b, '=', '='] => do
      let n := (← value? a) * 64 + (← value? b)
      if n % 16 = 0 then some [UInt8.ofNat (n / 16)] else none
  | [a, b, c, '='] => do
      let n := ((← value? a) * 64 + (← value? b)) * 64 + (← value? c)
      if n % 4 = 0 then
        some [UInt8.ofNat (n / 1024), UInt8.ofNat (n / 4 % 256)]
      else none
  | a :: b :: c :: d :: rest => do
      let n := (((← value? a) * 64 + (← value? b)) * 64 + (← value? c)) * 64 +
        (← value? d)
      let bytes ← decodeChars rest
      return UInt8.ofNat (n / 65536) :: UInt8.ofNat (n / 256 % 256) ::
        UInt8.ofNat (n % 256) :: bytes
  | _ => none

def encode (bytes : List UInt8) : String := String.ofList (encodeChars bytes)

/-- The bytes that a canonical text denotes. -/
def decode? (text : String) : Option (List UInt8) := decodeChars text.toList

end ProgramQueue.Base64
