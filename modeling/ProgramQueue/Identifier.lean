import ProgramQueue.Hex

/-!
# Random identifiers

Sixteen random bytes become an identifier of version four: six of their bits are
fixed, and the digits stand in groups of eight, four, four, four and twelve.
-/

namespace ProgramQueue.Identifier

/-- The bytes with the bits that mark version four. -/
def mark (bytes : List UInt8) : List UInt8 :=
  bytes.mapIdx fun i byte =>
    if i = 6 then byte % 16 + 0x40
    else if i = 8 then byte % 64 + 0x80
    else byte

/-- Cuts characters into groups of the given sizes. -/
def groups : List Nat → List Char → List (List Char)
  | [], _ => []
  | size :: sizes, chars => chars.take size :: groups sizes (chars.drop size)

/-- The identifier made of sixteen random bytes. -/
def ofBytes (bytes : List UInt8) : String :=
  let digits := Hex.encodeChars (mark bytes)
  String.ofList (List.intercalate ['-'] (groups [8, 4, 4, 4, 12] digits))

end ProgramQueue.Identifier
