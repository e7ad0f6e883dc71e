import ProgramQueue.Action
import ProgramQueue.Wire.Tagged

/-!
# Actions on the wire

An action is tagged with the word for its kind.  The children of an inner node
are actions again, one level of objects and one of arrays further in.
-/

namespace ProgramQueue

namespace Status

def word : Status → String
  | pending => "pending"
  | active => "active"
  | done => "done"
  | error => "error"

def ofWord? : String → Option Status
  | "pending" => some pending
  | "active" => some active
  | "done" => some done
  | "error" => some error
  | _ => none

end Status

namespace LoanKind

def ofWord? : String → Option LoanKind
  | "borrow" => some borrow
  | "deposit" => some deposit
  | "repay" => some repay
  | "withdraw" => some withdraw
  | _ => none

end LoanKind

namespace AmountSide

def word : AmountSide → String
  | sent => "from"
  | received => "to"

def ofWord? : String → Option AmountSide
  | "from" => some sent
  | "to" => some received
  | _ => none

end AmountSide

namespace Action

open Wire

/-- The status at the end of every action. -/
def statusField : Wire.Field (Option Status) :=
  .optional "status" (.word Status.ofWord?) fun status => .str status.word

/-- The members of an inner node; the children are read afterwards. -/
def nodeRecord : Record (Json × Option Status × Unit) :=
  .cons (.required "actions" .raw id) <| .cons statusField .nil

def exchangeRecord :
    Record (String × String × Option String × String × Option Status × Unit) :=
  .cons (.required "exchangePluginId" .str .str) <|
  .cons (.required "walletId" .str .str) <|
  .cons (.optional "tokenId" .str .str) <|
  .cons (.required "nativeAmount" .str .str) <|
  .cons statusField .nil

def loanRecord :
    Record (String × String × Option String × String × Option String ×
      Option Status × Unit) :=
  .cons (.required "borrowPluginId" .str .str) <|
  .cons (.required "walletId" .str .str) <|
  .cons (.optional "tokenId" .str .str) <|
  .cons (.required "nativeAmount" .str .str) <|
  .cons (.optional "fromTokenId" .str .str) <|
  .cons statusField .nil

def swapRecord :
    Record (String × Option String × String × Option String × String ×
      AmountSide × Option String × Option Status × Unit) :=
  .cons (.required "fromWalletId" .str .str) <|
  .cons (.optional "fromTokenId" .str .str) <|
  .cons (.required "toWalletId" .str .str) <|
  .cons (.optional "toTokenId" .str .str) <|
  .cons (.required "nativeAmount" .str .str) <|
  .cons (.required "amountFor" (.word AmountSide.ofWord?)
    fun side => .str side.word) <|
  .cons (.optional "expectedPayoutNativeAmount" .str .str) <|
  .cons statusField .nil

/-- The members of a transaction that was signed beforehand. -/
def broadcastRecord :
    Record (String × String × List UInt8 × Option Status × Unit) :=
  .cons (.required "walletId" .str .str) <|
  .cons (.required "pluginId" .str .str) <|
  .cons (.required "rawTx" .bytes Wire.bytes) <|
  .cons statusField .nil

def toastRecord : Record (String × Option Status × Unit) :=
  .cons (.required "message" .str .str) <| .cons statusField .nil

def delayRecord : Record (UInt64 × Option Status × Unit) :=
  .cons (.required "ms" .uint64 fun ms => Wire.nat ms.toNat) <|
  .cons statusField .nil

/-! ## Writing -/

def stepMembers (status : Option Status) : Step → List (String × Json)
  | .exchangeBuy x | .exchangeSell x =>
      exchangeRecord.members
        (x.exchangePluginId, x.walletId, x.tokenId, x.nativeAmount, status, ())
  | .loan _ x =>
      loanRecord.members
        (x.borrowPluginId, x.walletId, x.tokenId, x.nativeAmount, x.fromTokenId,
          status, ())
  | .swap x =>
      swapRecord.members
        (x.fromWalletId, x.fromTokenId, x.toWalletId, x.toTokenId,
          x.nativeAmount, x.amountFor, x.expectedPayout, status, ())
  | .broadcast x =>
      broadcastRecord.members (x.walletId, x.pluginId, x.rawTx, status, ())
  | .toast message => toastRecord.members (message, status, ())
  | .delay ms => delayRecord.members (ms, status, ())

mutual

def toJson : Action → Json
  | seq children status =>
      tagged "seq" (nodeRecord.members (.arr (listToJson children), status, ()))
  | par children status =>
      tagged "par" (nodeRecord.members (.arr (listToJson children), status, ()))
  | step s status => tagged s.typeName (stepMembers status s)

def listToJson : List Action → List Json
  | [] => []
  | child :: rest => toJson child :: listToJson rest

end

/-! ## Reading -/

/-- The words for the kinds of actions, in their order. -/
def words : List String :=
  ["seq", "par", "exchange-buy", "exchange-sell", "loan-borrow", "loan-deposit",
    "loan-repay", "loan-withdraw", "swap", "broadcast-tx", "toast", "delay"]

def readExchange (make : Exchange → Step) (level : Level) (content : Content) :
    Option Action := do
  let (plugin, wallet, token, amount, status, ()) ←
    exchangeRecord.readContent level content
  return step (make ⟨plugin, wallet, token, amount⟩) status

def readLoan (kind : LoanKind) (level : Level) (content : Content) :
    Option Action := do
  let (plugin, wallet, token, amount, fromToken, status, ()) ←
    loanRecord.readContent level content
  return step (.loan kind ⟨plugin, wallet, token, amount, fromToken⟩) status

/-- A step, by the word for its kind. -/
def readStep (level : Level) (content : Content) : String → Option Action
  | "exchange-buy" => readExchange .exchangeBuy level content
  | "exchange-sell" => readExchange .exchangeSell level content
  | "loan-borrow" => readLoan .borrow level content
  | "loan-deposit" => readLoan .deposit level content
  | "loan-repay" => readLoan .repay level content
  | "loan-withdraw" => readLoan .withdraw level content
  | "swap" => do
      let (fromWallet, fromToken, toWallet, toToken, amount, side, payout,
        status, ()) ← swapRecord.readContent level content
      return step (.swap ⟨fromWallet, fromToken, toWallet, toToken, amount, side,
        payout⟩) status
  | "broadcast-tx" => do
      let (wallet, plugin, rawTx, status, ()) ←
        broadcastRecord.readContent level content
      return step (.broadcast ⟨wallet, plugin, rawTx⟩) status
  | "toast" => do
      let (message, status, ()) ← toastRecord.readContent level content
      return step (.toast message) status
  | "delay" => do
      let (ms, status, ()) ← delayRecord.readContent level content
      return step (.delay ms) status
  | _ => none

/-- The action at a place with so much room. -/
def ofJsonAt : (room : Nat) → (kept : Bool) → Json → Option Action
  | 0, _, _ => none
  | room + 1, kept, json => do
      let level : Level := ⟨room + 1, kept⟩
      let (word, content) ← untag words level json
      let children (nodes : Json) : Option (List Action) :=
        match nodes with
        | .arr items => items.mapM (ofJsonAt room true)
        | _ => none
      match word with
      | "seq" => do
          let (nodes, status, ()) ← nodeRecord.readContent level.within content
          return seq (← children nodes) status
      | "par" => do
          let (nodes, status, ()) ← nodeRecord.readContent level.within content
          return par (← children nodes) status
      | word => readStep level.within content word

def read : Reader Action := fun level json => ofJsonAt level.room level.kept json

end Action

end ProgramQueue
