import ProgramQueue.Queue.Requests
import ProgramQueue.Wire.Loan
import ProgramQueue.Wire.Push

/-!
# Records of requests

A request to someone outside can be written down as an array: its name, and then
what was said.  Reading the clock and waiting leave no record.
-/

namespace ProgramQueue

def Query.record? : Query → Option Json
  | .walletInfo id => some (.arr [.str "walletInfo", .str id])
  | .balance id token => some (.arr [.str "balance", .str id, .optionalStr token])
  | .receiveAddress id token =>
      some (.arr [.str "receiveAddress", .str id, .optionalStr token])
  | .confirmations id txId => some (.arr [.str "txConfirmations", .str id, .str txId])
  | .send id token amount address =>
      some (.arr [.str "send", .str id, .optionalStr token, .str amount, .str address])
  | .broadcast id rawTx =>
      some (.arr [.str "broadcast", .str id, .str (Hex.encode rawTx)])
  | .approveLoan request => some (.arr [.str "approve", request.toJson])
  | .approveSwap r =>
      some (.arr [.str "approveSwap", .str r.fromWalletId, .optionalStr r.fromTokenId,
        .str r.toWalletId, .optionalStr r.toTokenId, .str r.nativeAmount,
        .str r.amountFor.word])
  | .depositAddress o =>
      some (.arr [.str "depositAddress", .str o.exchangePluginId, .str o.walletId,
        .optionalStr o.tokenId, .str o.nativeAmount])
  | .placeBuy o address =>
      some (.arr [.str "placeBuy", .str o.exchangePluginId, .str o.walletId,
        .optionalStr o.tokenId, .str o.nativeAmount, .str address])
  | .rate pair => some (.arr [.str "rate", .str pair])
  | .toast message => some (.arr [.str "toast", .str message])
  | .clock => none
  | .pause _ => none

def Push.Request.record : Push.Request → Json
  | .updateDevice update => .arr [.str "updateDevice", update.toJson]
  | .updateLogin update => .arr [.str "updateLogin", update.toJson]
  | .loginEvents => .arr [.str "loginEvents"]

/-- The record of a part of an operation that goes outside. -/
def Queue.Request.record? : Queue.Request → Option Json
  | .outside query => query.record?
  | .push request => some request.record
  | _ => none

end ProgramQueue
