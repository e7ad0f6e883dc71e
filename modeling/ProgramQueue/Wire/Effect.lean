import ProgramQueue.Effect
import ProgramQueue.Wire.Tagged

/-!
# Effects on the wire

An effect is tagged with the word for its kind.  The snapshot of a failed
parallel node is left out where there is none.
-/

namespace ProgramQueue

open Wire

namespace FailureKind

def word : FailureKind → String
  | validation => "validation"
  | execution => "execution"
  | invalidState => "invalid-state"
  | cancelled => "cancelled"

def ofWord? : String → Option FailureKind
  | "validation" => some validation
  | "execution" => some execution
  | "invalid-state" => some invalidState
  | "cancelled" => some cancelled
  | _ => none

end FailureKind

namespace Failure

def record : Record (FailureKind × String × Unit) :=
  .cons (.required "kind" (.word FailureKind.ofWord?) fun kind => .str kind.word) <|
  .cons (.required "message" .str .str) .nil

def toJson (failure : Failure) : Json :=
  record.write (failure.kind, failure.message, ())

def read : Reader Failure := fun level json => do
  let (kind, message, ()) ← record.read level json
  return ⟨kind, message⟩

end Failure

namespace Condition

/-- The members of a balance that is waited for. -/
def addressBalanceRecord :
    Record (String × String × Option String × Option String × Option String ×
      Unit) :=
  .cons (.required "address" .str .str) <|
  .cons (.required "walletId" .str .str) <|
  .cons (.optional "tokenId" .str .str) <|
  .cons (.optional "aboveAmount" .str .str) <|
  .cons (.optional "belowAmount" .str .str) .nil

def txConfsRecord : Record (String × String × UInt32 × Unit) :=
  .cons (.required "txId" .str .str) <|
  .cons (.required "walletId" .str .str) <|
  .cons (.required "confirmations" .uint32 fun n => Wire.nat n.toNat) .nil

/-- The members of a rate that is waited for. -/
def priceLevelRecord :
    Record (String × Option Double × Option Double × Unit) :=
  .cons (.required "currencyPair" .str .str) <|
  .cons (.optional "aboveRate" .double .float) <|
  .cons (.optional "belowRate" .double .float) .nil

def unixtimeRecord : Record (Int64 × Unit) :=
  .cons (.required "timestamp" .int64 fun n => .int n.toInt) .nil

/-- The members that are written for a condition. -/
def members : Condition → List (String × Json)
  | addressBalance address walletId tokenId above below =>
      addressBalanceRecord.members (address, walletId, tokenId, above, below, ())
  | txConfs txId walletId confirmations =>
      txConfsRecord.members (txId, walletId, confirmations, ())
  | priceLevel pair above below =>
      priceLevelRecord.members (pair, above, below, ())
  | unixtime timestamp => unixtimeRecord.members (timestamp, ())

/-- A condition, by the word for its kind. -/
def readContent (level : Level) (content : Content) : String → Option Condition
  | "address-balance" => do
      let (address, walletId, tokenId, above, below, ()) ←
        addressBalanceRecord.readContent level content
      return addressBalance address walletId tokenId above below
  | "tx-confs" => do
      let (txId, walletId, confirmations, ()) ←
        txConfsRecord.readContent level content
      return txConfs txId walletId confirmations
  | "price-level" => do
      let (pair, above, below, ()) ← priceLevelRecord.readContent level content
      return priceLevel pair above below
  | "unixtime" => do
      let (timestamp, ()) ← unixtimeRecord.readContent level content
      return unixtime timestamp
  | _ => none

end Condition

namespace Effect

/-- The members of a running sequence; the child is read afterwards. -/
def seqRecord : Record (Nat × Json × Unit) :=
  .cons (.required "opIndex" (.natBelow (Nat.pow 2 64)) Wire.nat) <|
  .cons (.required "childEffect" .raw id) .nil

/-- The members of running parallel children, which are read afterwards. -/
def parRecord : Record (Json × Unit) :=
  .cons (.required "childEffects" .raw id) .nil

/-- The members of an effect that is over; the snapshot is read afterwards. -/
def doneRecord : Record (Option Failure × Option Json × Unit) :=
  .cons (.optional "error" Failure.read Failure.toJson) <|
  .cons (.optional "childEffects" .raw id) .nil

/-! ## Writing -/

mutual

def toJson : Effect → Json
  | seq index child => tagged "seq" (seqRecord.members (index, toJson child, ()))
  | par children => tagged "par" (parRecord.members (.arr (listToJson children), ()))
  | await condition => tagged condition.typeName condition.members
  | init => tagged "init" []
  | done failure none => tagged "done" (doneRecord.members (failure, none, ()))
  | done failure (some snapshot) =>
      tagged "done"
        (doneRecord.members (failure, some (.arr (listToJson snapshot)), ()))

def listToJson : List Effect → List Json
  | [] => []
  | child :: rest => toJson child :: listToJson rest

end

/-! ## Reading -/

/-- The words for the kinds of effects, in their order. -/
def words : List String :=
  ["seq", "par", "address-balance", "tx-confs", "price-level", "unixtime",
    "init", "done"]

/-- The effect at a place with so much room. -/
def ofJsonAt : (room : Nat) → (kept : Bool) → Json → Option Effect
  | 0, _, _ => none
  | room + 1, kept, json => do
      let level : Level := ⟨room + 1, kept⟩
      let (word, content) ← untag words level json
      let children (nodes : Json) : Option (List Effect) :=
        match nodes with
        | .arr items => items.mapM (ofJsonAt room true)
        | _ => none
      match word with
      | "seq" => do
          let (index, child, ()) ← seqRecord.readContent level.within content
          return seq index (← ofJsonAt room true child)
      | "par" => do
          let (nodes, ()) ← parRecord.readContent level.within content
          return par (← children nodes)
      | "init" => if content.isBare then some init else none
      | "done" => do
          let (failure, snapshot, ()) ←
            doneRecord.readContent level.within content
          match snapshot with
          | none => return done failure none
          | some nodes => return done failure (some (← children nodes))
      | word => (Condition.readContent level.within content word).map await

def read : Reader Effect := fun level json => ofJsonAt level.room level.kept json

end Effect

end ProgramQueue
