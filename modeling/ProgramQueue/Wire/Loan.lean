import ProgramQueue.Outside
import ProgramQueue.Wire.Action

/-!
# Loan requests on the wire

What a borrow engine is asked to do.  A token that is not named is written as
null.
-/

namespace ProgramQueue.LoanRequest

open Wire

def record :
    Record (LoanKind × String × String × Option String × String × Option String ×
      Unit) :=
  .cons (.required "kind" (.word LoanKind.ofWord?) fun kind => .str kind.word) <|
  .cons (.required "borrowPluginId" .str .str) <|
  .cons (.required "walletId" .str .str) <|
  .cons (.nullable "tokenId" .str .str) <|
  .cons (.required "nativeAmount" .str .str) <|
  .cons (.nullable "fromTokenId" .str .str) .nil

def toJson (request : LoanRequest) : Json :=
  let terms := request.terms
  record.write (request.kind, terms.borrowPluginId, terms.walletId, terms.tokenId,
    terms.nativeAmount, terms.fromTokenId, ())

def read : Reader LoanRequest := fun level json => do
  let (kind, plugin, wallet, token, amount, fromToken, ()) ←
    record.read level json
  return ⟨kind, ⟨plugin, wallet, token, amount, fromToken⟩⟩

end ProgramQueue.LoanRequest
