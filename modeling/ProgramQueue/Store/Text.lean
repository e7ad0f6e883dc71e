import ProgramQueue.Json.Reader
import ProgramQueue.Store

/-!
# Stores as text

A whole store can be written as one JSON text and read back from it.  However
deep a stored record nests, the text of the store is readable: the limit on the
depth of a record concerns only those who ask for the record.  Rates are written
as their bits, so that they are not read from their texts before someone asks.
-/

namespace ProgramQueue

namespace Json

/-- The name under which the bits of a rate stand. -/
def bitsName : String := "bits"

mutual

/-- The tree with the bits of each rate in its place. -/
def packed : Json → Json
  | .float rate => .obj [(bitsName, .int rate.bits.toNat)]
  | .arr items => .arr (packedItems items)
  | .obj members => .obj (packedMembers members)
  | json => json

def packedItems : List Json → List Json
  | [] => []
  | item :: rest => packed item :: packedItems rest

def packedMembers : List (String × Json) → List (String × Json)
  | [] => []
  | (name, value) :: rest => (name, packed value) :: packedMembers rest

end

/-- What stands in the place of a rate is a rate again. -/
def ofPacked : List (String × Json) → Json
  | [(name, .int bits)] =>
      if name = bitsName then .float ⟨UInt64.ofNat bits.toNat⟩ else .obj [(name, .int bits)]
  | members => .obj members

mutual

def unpacked : Json → Json
  | .arr items => .arr (unpackedItems items)
  | .obj members => ofPacked (unpackedMembers members)
  | json => json

def unpackedItems : List Json → List Json
  | [] => []
  | item :: rest => unpacked item :: unpackedItems rest

def unpackedMembers : List (String × Json) → List (String × Json)
  | [] => []
  | (name, value) :: rest => (name, unpacked value) :: unpackedMembers rest

end

end Json

namespace Store

open Wire

/-- Any integer. -/
def readInt : Reader Int
  | _, .int value => some value
  | _, _ => none

/-- The members of a claim, with the id of the program that is held. -/
def claimRecord : Record (String × String × Int × Unit) :=
  .cons (.required "programId" .str .str) <|
  .cons (.required "owner" .str .str) <|
  .cons (.required "claimedAt" readInt .int) .nil

def claimJson (entry : String × Claim) : Json :=
  claimRecord.write (entry.1, entry.2.owner, entry.2.claimedAt, ())

def readClaim : Reader (String × Claim) := fun level json => do
  let (id, owner, claimedAt, ()) ← claimRecord.read level json
  return (id, ⟨owner, claimedAt⟩)

def readItem : Reader Item := fun level json => Item.read level json.unpacked

def record : Record (List Item × List (String × Claim) × List String × Unit) :=
  .cons (.required "programs" (.list readItem) fun items =>
    .arr (items.map fun item => item.toJson.packed)) <|
  .cons (.required "claims" (.list readClaim) fun claims =>
    .arr (claims.map claimJson)) <|
  .cons (.required "retired" (.list .str) Wire.strs) .nil

def toJson (store : Store) : Json :=
  record.write (store.items.values, store.claims.entries, store.retired, ())

def print (store : Store) : String := store.toJson.compact

/-- The store that a text denotes.  A program is kept under its own id. -/
def parse? (text : String) : Option Store := do
  let json ← Json.parse? text
  let (items, claims, retired, ()) ← record.read ⟨json.depth, false⟩ json
  return {
    items := Table.ofList (items.map fun item => (item.program.id, item))
    claims := Table.ofList claims
    retired }

end Store

end ProgramQueue
