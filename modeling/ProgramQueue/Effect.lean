import ProgramQueue.Double

/-!
# Effects: what a program is waiting for

An effect has the shape of the part of the action tree that is in progress: a
sequence carries the index of the child that is running, parallel children carry
one effect each.  A leaf waits for a condition.
-/

namespace ProgramQueue

/-- Why a program, or one branch of it, stopped without completing. -/
inductive FailureKind where
  /-- The program names a wallet, a plugin or an amount that can never work. -/
  | validation
  /-- A collaborator refused the operation or failed in it. -/
  | execution
  /-- The stored effect does not fit the action tree. -/
  | invalidState
  | cancelled
deriving DecidableEq, Repr

structure Failure where
  kind : FailureKind
  message : String
deriving DecidableEq, Repr

inductive Condition where
  | addressBalance (address walletId : String)
      (tokenId aboveAmount belowAmount : Option String)
  | txConfs (txId walletId : String) (confirmations : UInt32)
  | priceLevel (currencyPair : String) (aboveRate belowRate : Option Double)
  /-- A deadline in unix milliseconds, which only a local clock can watch. -/
  | unixtime (timestamp : Int64)
deriving DecidableEq, Repr

inductive Effect where
  | seq (index : Nat) (child : Effect)
  | par (children : List Effect)
  | await (condition : Condition)
  | init
  /-- Over.  The snapshot holds the branches of parallel children that failed. -/
  | done (failure : Option Failure) (snapshot : Option (List Effect))
deriving Repr, Inhabited

namespace FailureKind

def label : FailureKind → String
  | validation => "Validation"
  | execution => "Execution"
  | invalidState => "InvalidState"
  | cancelled => "Cancelled"

end FailureKind

namespace Failure

def display (failure : Failure) : String :=
  failure.kind.label ++ ": " ++ failure.message

end Failure

namespace Condition

def typeName : Condition → String
  | addressBalance .. => "address-balance"
  | txConfs .. => "tx-confs"
  | priceLevel .. => "price-level"
  | unixtime _ => "unixtime"

/-- Whether the push server can watch the condition. -/
def isTriggerable : Condition → Bool
  | unixtime _ => false
  | _ => true

end Condition

namespace Effect

def typeName : Effect → String
  | seq _ _ => "seq"
  | par _ => "par"
  | await condition => condition.typeName
  | init => "init"
  | done _ _ => "done"

def completed : Effect := done none none

def failed (failure : Failure) : Effect := done (some failure) none

def isDone : Effect → Bool
  | done _ _ => true
  | _ => false

def failure? : Effect → Option Failure
  | done failure _ => failure
  | _ => none

/-- Waiting for a condition. -/
def isLeaf : Effect → Bool
  | await _ => true
  | _ => false

/-- Waiting for a condition that the push server can watch. -/
def isTriggerable : Effect → Bool
  | await condition => condition.isTriggerable
  | _ => false

/-! ## Equality is decidable -/

mutual

def decEq : (a b : Effect) → Decidable (a = b)
  | seq i a, seq j b =>
      if hi : i = j then
        match decEq a b with
        | isTrue h => isTrue (by rw [hi, h])
        | isFalse h => isFalse fun eq => h (by cases eq; rfl)
      else isFalse fun eq => hi (by cases eq; rfl)
  | par as, par bs =>
      match decEqList as bs with
      | isTrue h => isTrue (by rw [h])
      | isFalse h => isFalse fun eq => h (by cases eq; rfl)
  | await a, await b =>
      if h : a = b then isTrue (by rw [h])
      else isFalse fun eq => h (by cases eq; rfl)
  | init, init => isTrue rfl
  | done e none, done f none =>
      if h : e = f then isTrue (by rw [h])
      else isFalse fun eq => h (by cases eq; rfl)
  | done e (some as), done f (some bs) =>
      if he : e = f then
        match decEqList as bs with
        | isTrue h => isTrue (by rw [he, h])
        | isFalse h => isFalse fun eq => h (by cases eq; rfl)
      else isFalse fun eq => he (by cases eq; rfl)
  | done _ none, done _ (some _) => isFalse nofun
  | done _ (some _), done _ none => isFalse nofun
  | seq _ _, par _ => isFalse nofun
  | seq _ _, await _ => isFalse nofun
  | seq _ _, init => isFalse nofun
  | seq _ _, done _ _ => isFalse nofun
  | par _, seq _ _ => isFalse nofun
  | par _, await _ => isFalse nofun
  | par _, init => isFalse nofun
  | par _, done _ _ => isFalse nofun
  | await _, seq _ _ => isFalse nofun
  | await _, par _ => isFalse nofun
  | await _, init => isFalse nofun
  | await _, done _ _ => isFalse nofun
  | init, seq _ _ => isFalse nofun
  | init, par _ => isFalse nofun
  | init, await _ => isFalse nofun
  | init, done _ _ => isFalse nofun
  | done _ _, seq _ _ => isFalse nofun
  | done _ _, par _ => isFalse nofun
  | done _ _, await _ => isFalse nofun
  | done _ _, init => isFalse nofun

def decEqList : (as bs : List Effect) → Decidable (as = bs)
  | [], [] => isTrue rfl
  | [], _ :: _ => isFalse nofun
  | _ :: _, [] => isFalse nofun
  | a :: as, b :: bs =>
      match decEq a b with
      | isFalse h => isFalse fun eq => h (by cases eq; rfl)
      | isTrue h =>
          match decEqList as bs with
          | isTrue hs => isTrue (by rw [h, hs])
          | isFalse hs => isFalse fun eq => hs (by cases eq; rfl)

end

instance : DecidableEq Effect := decEq

end Effect

end ProgramQueue
