import ProgramQueue.Outside

/-!
# Starting a step and checking what it waits for

A step is started once and leaves a condition behind; the condition is checked
until it holds.  Whatever can be found wrong without moving funds is looked at
before the request that moves them.
-/

namespace ProgramQueue

/-- What a check of a condition found. -/
inductive Check where
  | pending
  | satisfied
  | failed (reason : String)
deriving DecidableEq, Repr

namespace Check

def ofBool (holds : Bool) : Check := if holds then satisfied else pending

end Check

namespace Step

/-- The percentage of a quoted payout that is waited for when the amount that is
sent is fixed. -/
def payoutPercent : Nat := 90

def awaitTx (walletId txId : String) : Effect := .await (.txConfs txId walletId 1)

def startSell (order : Exchange) : Calling Effect := do
  let deposit ← Outside.depositAddress order
  let txId ← Outside.send order.walletId order.tokenId order.nativeAmount deposit
  return awaitTx order.walletId txId

/-- Buys at an exchange: the balance has to grow by the amount. -/
def startBuy (order : Exchange) : Calling Effect := do
  let balance ← Outside.balance order.walletId order.tokenId
  let address ← Outside.receiveAddress order.walletId order.tokenId
  let above ← Outside.amount (Amount.add balance order.nativeAmount)
  Outside.placeBuy order address
  return .await (.addressBalance address order.walletId order.tokenId (some above) none)

/-- Has a loan operation carried out; its last transaction completes it. -/
def startLoan (kind : LoanKind) (terms : Loan) : Calling Effect := do
  let _ ← Outside.walletInfo terms.walletId
  let _ ← Outside.amount (Amount.parse terms.nativeAmount)
  let txs ← Outside.approveLoan ⟨kind, terms⟩
  match txs.getLast? with
  | some last => return awaitTx last.walletId last.txId
  | none =>
      throw (.failed
        s!"{terms.borrowPluginId} approved without broadcasting a transaction")

/-- The payout that is waited for: the one that was named, else the quoted one,
less a tenth if it is the sent amount that is fixed. -/
def awaitedPayout (order : Swap) (quoted : String) : Except Amount.Error String :=
  match order.expectedPayout, order.amountFor with
  | some expected, _ => .ok expected
  | none, .sent => Amount.percentOf quoted payoutPercent
  | none, .received => .ok quoted

def startSwap (order : Swap) : Calling Effect := do
  let _ ← Outside.walletInfo order.fromWalletId
  let _ ← Outside.walletInfo order.toWalletId
  let balance ← Outside.balance order.toWalletId order.toTokenId
  let receipt ← Outside.approveSwap
    { fromWalletId := order.fromWalletId
      fromTokenId := order.fromTokenId
      toWalletId := order.toWalletId
      toTokenId := order.toTokenId
      nativeAmount := order.nativeAmount
      amountFor := order.amountFor }
  let payout ← Outside.amount (awaitedPayout order receipt.payoutAmount)
  let above ← Outside.amount (Amount.add balance payout)
  return .await (.addressBalance receipt.payoutAddress order.toWalletId
    order.toTokenId (some above) none)

/-- The later of two times that is still a time. -/
def addMillis (time : Int64) (ms : UInt64) : Int64 :=
  let sum := time.toInt + min (ms.toNat : Int) Int64.maxValue.toInt
  Int64.ofInt (min sum Int64.maxValue.toInt)

/-- Waits on the spot if the delay is no longer than the cap, else until a
deadline. -/
def startDelay (inlineCap : Nat) (ms : UInt64) : Task Outside Effect := do
  if ms.toNat ≤ inlineCap then
    Outside.pause ms
    return .completed
  else
    let now ← Outside.clock
    return .await (.unixtime (addMillis now ms))

/-- Starts a step and says what marks it complete. -/
def start (inlineCap : Nat) : Step → Calling Effect
  | exchangeSell order => startSell order
  | exchangeBuy order => startBuy order
  | loan kind terms => startLoan kind terms
  | swap order => startSwap order
  | broadcast transaction => do
      let txId ← Outside.broadcast transaction.walletId transaction.rawTx
      return awaitTx transaction.walletId txId
  | toast message => do
      Outside.toast message
      return .completed
  | delay ms => ExceptT.lift (startDelay inlineCap ms)

end Step

namespace Action

/-- Starts an action if it is a step; an inner node cannot be started so. -/
def start (inlineCap : Nat) : Action → Calling Effect
  | step s _ => s.start inlineCap
  | inner => throw (.invalid s!"'{inner.typeName}' is not a leaf step")

end Action

namespace Condition

/-- Whether a balance is at a bound or beyond it; an absent bound is never
reached, and `short` is how a balance compares that has not reached one. -/
def balancePasses (balance : String) (short : Ordering) :
    Option String → Except Amount.Error Bool
  | none => .ok false
  | some bound => (Amount.compare balance bound).map (· != short)

/-- Whether a balance is at one of the bounds or beyond it.  Both are read. -/
def balanceReaches (balance : String) (above below : Option String) :
    Except Amount.Error Bool := do
  let reachesAbove ← balancePasses balance .lt above
  let reachesBelow ← balancePasses balance .gt below
  return reachesAbove || reachesBelow

/-- Whether a rate is at one of the bounds or beyond it. -/
def rateReaches (rate : Double) (above below : Option Double) : Bool :=
  above.any (fun a => a.le rate) || below.any fun b => rate.le b

def check : Condition → Calling Check
  | addressBalance _ walletId tokenId above below => do
      if above.isNone && below.isNone then
        return .failed "address-balance effect has no bound"
      let balance ← Outside.balance walletId tokenId
      let reached ← Outside.amount (balanceReaches balance above below)
      return .ofBool reached
  | txConfs txId walletId confirmations => do
      match ← Outside.confirmations walletId txId with
      | .unknown => return .pending
      | .dropped => return .failed s!"transaction {txId} was dropped"
      | .confirmed => return .satisfied
      | .count n => return .ofBool (confirmations ≤ n)
  | priceLevel pair above below => do
      let rate ← Outside.rate pair
      return .ofBool (rateReaches rate above below)
  | unixtime timestamp => do
      let now ← ExceptT.lift Outside.clock
      return .ofBool (timestamp ≤ now)

end Condition

namespace Effect

/-- Checks what an effect waits for; an effect that waits for nothing cannot be
checked. -/
def check : Effect → Calling Check
  | await condition => condition.check
  | other => return .failed s!"'{other.typeName}' is not a checkable effect"

end Effect

end ProgramQueue
