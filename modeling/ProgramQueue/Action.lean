/-!
# Actions: what a program does

A program is a tree.  Its leaves are steps, each one financial operation that is
carried out by a collaborator; its inner nodes run their children one after the
other or side by side.  The tree never changes while the program runs.
-/

namespace ProgramQueue

/-- A status that an author may attach to a node for information. -/
inductive Status where
  | pending
  | active
  | done
  | error
deriving DecidableEq, Repr

/-- An order at an exchange for a wallet's currency or one of its tokens. -/
structure Exchange where
  exchangePluginId : String
  walletId : String
  tokenId : Option String
  nativeAmount : String
deriving DecidableEq, Repr

/-- Which operation of a borrow engine a step performs. -/
inductive LoanKind where
  | borrow
  | deposit
  | repay
  | withdraw
deriving DecidableEq, Repr

/-- The terms of a loan operation.  A debt may be repaid out of another token. -/
structure Loan where
  borrowPluginId : String
  walletId : String
  tokenId : Option String
  nativeAmount : String
  fromTokenId : Option String
deriving DecidableEq, Repr

/-- Whether the amount of a swap is what is sent or what is received. -/
inductive AmountSide where
  | sent
  | received
deriving DecidableEq, Repr

/-- A swap between two wallets. -/
structure Swap where
  fromWalletId : String
  fromTokenId : Option String
  toWalletId : String
  toTokenId : Option String
  nativeAmount : String
  amountFor : AmountSide
  /-- Takes the place of the quoted payout when the awaited balance is set. -/
  expectedPayout : Option String
deriving DecidableEq, Repr

/-- A transaction that was signed beforehand. -/
structure Broadcast where
  walletId : String
  pluginId : String
  rawTx : List UInt8
deriving DecidableEq, Repr

inductive Step where
  | exchangeBuy (order : Exchange)
  | exchangeSell (order : Exchange)
  | loan (kind : LoanKind) (terms : Loan)
  | swap (order : Swap)
  | broadcast (transaction : Broadcast)
  | toast (message : String)
  | delay (ms : UInt64)
deriving DecidableEq, Repr

/-- A node of a program: children in sequence, children in parallel, or a step. -/
inductive Action where
  | seq (children : List Action) (status : Option Status)
  | par (children : List Action) (status : Option Status)
  | step (step : Step) (status : Option Status)
deriving Repr, Inhabited

namespace LoanKind

def word : LoanKind → String
  | borrow => "borrow"
  | deposit => "deposit"
  | repay => "repay"
  | withdraw => "withdraw"

end LoanKind

namespace Step

def typeName : Step → String
  | exchangeBuy _ => "exchange-buy"
  | exchangeSell _ => "exchange-sell"
  | loan .borrow _ => "loan-borrow"
  | loan .deposit _ => "loan-deposit"
  | loan .repay _ => "loan-repay"
  | loan .withdraw _ => "loan-withdraw"
  | swap _ => "swap"
  | broadcast _ => "broadcast-tx"
  | toast _ => "toast"
  | delay _ => "delay"

end Step

namespace Action

def typeName : Action → String
  | seq _ _ => "seq"
  | par _ _ => "par"
  | step s _ => s.typeName

def children? : Action → Option (List Action)
  | seq children _ => some children
  | par children _ => some children
  | step _ _ => none

def status? : Action → Option Status
  | seq _ status => status
  | par _ status => status
  | step _ status => status

/-- Whether the push server can carry the node out by itself: only a transaction
that was signed beforehand. -/
def hasPushPayload : Action → Bool
  | step (.broadcast _) _ => true
  | _ => false

/-- The step that starts first when a node starts, if there is exactly one.
Parallel children start at once and give none. -/
def firstLeaf? : Action → Option Action
  | seq [] _ => none
  | seq (first :: _) _ => firstLeaf? first
  | par _ _ => none
  | step s status => some (step s status)

end Action

end ProgramQueue
