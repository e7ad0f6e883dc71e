import ProgramQueue.Action
import ProgramQueue.Amount
import ProgramQueue.Effect
import ProgramQueue.Task

/-!
# Collaborators

Wallets, borrow engines, swap providers, exchanges, rates, notifications and the
clock are outside.  A step sees them only through the requests listed here.
-/

namespace ProgramQueue

inductive CollaboratorError where
  | walletNotFound (walletId : String)
  | pluginNotFound (pluginId : String)
  | invalid (reason : String)
  | failed (reason : String)
  | unavailable (reason : String)
deriving DecidableEq, Repr

namespace CollaboratorError

def message : CollaboratorError → String
  | walletNotFound id => s!"wallet not found: {id}"
  | pluginNotFound id => s!"plugin not found: {id}"
  | invalid reason => s!"invalid request: {reason}"
  | failed reason => reason
  | unavailable reason => s!"temporarily unavailable: {reason}"

/-- The request names something that is not there, or can never succeed. -/
def isValidation : CollaboratorError → Bool
  | walletNotFound _ => true
  | pluginNotFound _ => true
  | invalid _ => true
  | failed _ => false
  | unavailable _ => false

/-- The same request may succeed later. -/
def isTransient : CollaboratorError → Bool
  | unavailable _ => true
  | _ => false

/-- The failure of a step that met this error. -/
def toFailure (error : CollaboratorError) : Failure where
  kind := if error.isValidation then .validation else .execution
  message := error.message

/-- An operation on amounts that cannot be done is an invalid request. -/
def ofAmount (error : Amount.Error) : CollaboratorError := invalid error.message

end CollaboratorError

structure WalletInfo where
  walletId : String
  pluginId : String
deriving DecidableEq, Repr

/-- What a wallet knows about one of its transactions. -/
inductive Confirmations where
  /-- Not seen yet. -/
  | unknown
  | count (n : UInt32)
  /-- Final by the chain's own standard. -/
  | confirmed
  /-- Evicted from the network; it will never be confirmed. -/
  | dropped
deriving DecidableEq, Repr

/-- What a borrow engine is asked to do. -/
structure LoanRequest where
  kind : LoanKind
  terms : Loan
deriving DecidableEq, Repr

/-- A transaction that was broadcast for a loan operation. -/
structure ApprovedTx where
  walletId : String
  txId : String
deriving DecidableEq, Repr

/-- What a swap provider is asked to do. -/
structure SwapRequest where
  fromWalletId : String
  fromTokenId : Option String
  toWalletId : String
  toTokenId : Option String
  nativeAmount : String
  amountFor : AmountSide
deriving DecidableEq, Repr

/-- A swap that was approved: where it pays out, and how much is quoted. -/
structure SwapReceipt where
  txId : String
  payoutAddress : String
  payoutAmount : String
deriving DecidableEq, Repr

inductive Query where
  | walletInfo (walletId : String)
  /-- A balance in the smallest unit. -/
  | balance (walletId : String) (tokenId : Option String)
  | receiveAddress (walletId : String) (tokenId : Option String)
  | confirmations (walletId txId : String)
  /-- Builds, signs and broadcasts a payment; answers with its id. -/
  | send (walletId : String) (tokenId : Option String) (amount address : String)
  /-- Broadcasts a signed transaction; answers with its id. -/
  | broadcast (walletId : String) (rawTx : List UInt8)
  /-- Broadcasts all transactions of a loan operation, in order. -/
  | approveLoan (request : LoanRequest)
  | approveSwap (request : SwapRequest)
  /-- The address at an exchange that a sell order pays to. -/
  | depositAddress (order : Exchange)
  | placeBuy (order : Exchange) (payoutAddress : String)
  | rate (currencyPair : String)
  | toast (message : String)
  | clock
  | pause (ms : UInt64)
deriving DecidableEq, Repr

abbrev Query.Answer : Query → Type
  | walletInfo _ => Except CollaboratorError WalletInfo
  | balance _ _ => Except CollaboratorError String
  | receiveAddress _ _ => Except CollaboratorError String
  | confirmations _ _ => Except CollaboratorError Confirmations
  | send _ _ _ _ => Except CollaboratorError String
  | broadcast _ _ => Except CollaboratorError String
  | approveLoan _ => Except CollaboratorError (List ApprovedTx)
  | approveSwap _ => Except CollaboratorError SwapReceipt
  | depositAddress _ => Except CollaboratorError String
  | placeBuy _ _ => Except CollaboratorError Unit
  | rate _ => Except CollaboratorError Double
  | toast _ => Except CollaboratorError Unit
  | clock => Int64
  | pause _ => Unit

abbrev Outside : Interface where
  Request := Query
  Answer := Query.Answer

/-- A task that stops at the first error of a collaborator. -/
abbrev Calling (α : Type) := ExceptT CollaboratorError (Task Outside) α

namespace Outside

def walletInfo (walletId : String) : Calling WalletInfo :=
  ExceptT.mk (Task.request (I := Outside) (.walletInfo walletId))

def balance (walletId : String) (tokenId : Option String) : Calling String :=
  ExceptT.mk (Task.request (I := Outside) (.balance walletId tokenId))

def receiveAddress (walletId : String) (tokenId : Option String) : Calling String :=
  ExceptT.mk (Task.request (I := Outside) (.receiveAddress walletId tokenId))

/-- How far a transaction is. -/
def confirmations (walletId txId : String) : Calling Confirmations :=
  ExceptT.mk (Task.request (I := Outside) (.confirmations walletId txId))

def send (walletId : String) (tokenId : Option String) (amount address : String) :
    Calling String :=
  ExceptT.mk (Task.request (I := Outside) (.send walletId tokenId amount address))

def broadcast (walletId : String) (rawTx : List UInt8) : Calling String :=
  ExceptT.mk (Task.request (I := Outside) (.broadcast walletId rawTx))

def approveLoan (request : LoanRequest) : Calling (List ApprovedTx) :=
  ExceptT.mk (Task.request (I := Outside) (.approveLoan request))

def approveSwap (request : SwapRequest) : Calling SwapReceipt :=
  ExceptT.mk (Task.request (I := Outside) (.approveSwap request))

/-- Where to pay for a sell order. -/
def depositAddress (order : Exchange) : Calling String :=
  ExceptT.mk (Task.request (I := Outside) (.depositAddress order))

def placeBuy (order : Exchange) (payoutAddress : String) : Calling Unit :=
  ExceptT.mk (Task.request (I := Outside) (.placeBuy order payoutAddress))

def rate (currencyPair : String) : Calling Double :=
  ExceptT.mk (Task.request (I := Outside) (.rate currencyPair))

def toast (message : String) : Calling Unit :=
  ExceptT.mk (Task.request (I := Outside) (.toast message))

def clock : Task Outside Int64 := Task.request (I := Outside) .clock

def pause (ms : UInt64) : Task Outside Unit := Task.request (I := Outside) (.pause ms)

/-- The result of an operation on amounts. -/
def amount {α : Type} (result : Except Amount.Error α) : Calling α :=
  ExceptT.mk (.done (result.mapError CollaboratorError.ofAmount))

end Outside

end ProgramQueue
