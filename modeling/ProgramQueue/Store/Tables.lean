import ProgramQueue.Error
import ProgramQueue.Program
import ProgramQueue.Table
import ProgramQueue.Task

/-!
# The tables of the store

The store consists of three tables.  A transaction that writes works on a copy of them,
and nothing of what it does is there until it commits: if it ends with an error before
that, or its process dies, the copy is lost.
-/

namespace ProgramQueue

/-- Who holds a program, and since when, in unix milliseconds. -/
structure Claim where
  owner : String
  claimedAt : Int
deriving DecidableEq, Repr

/-- All that is kept about programs. -/
structure Store where
  /-- The records, as they were written. -/
  items : Table Item
  claims : Table Claim
  /-- The ids of programs that were removed. -/
  retired : List String
deriving Inhabited

namespace Store

def empty : Store := ⟨Table.empty, Table.empty, []⟩

/-- One step of a transaction. -/
inductive Access where
  | beginWrite
  | commit
  | item (id : String)
  | items
  | putItem (id : String) (item : Item)
  /-- Takes a record out and answers with it. -/
  | takeItem (id : String)
  | isRetired (id : String)
  | retire (id : String)
  | claim (id : String)
  | claims
  | putClaim (id : String) (claim : Claim)
  | dropClaim (id : String)

abbrev Access.Answer : Access → Type
  | item _ => Option Item
  | items => List (String × Item)
  | takeItem _ => Option Item
  | isRetired _ => Bool
  | claim _ => Option Claim
  | claims => List (String × Claim)
  | _ => Unit

/-- What transactions ask of the tables. -/
abbrev Tables : Interface where
  Request := Access
  Answer := Access.Answer

/-- A transaction ends with a value or with an error. -/
abbrev Transaction (α : Type) := ExceptT Error (Task Tables) α

def access (step : Access) : Transaction step.Answer :=
  ExceptT.lift (Task.request (I := Tables) step)

end Store

/-- The tables with the copy that a transaction works on. -/
structure Database where
  committed : Store
  working : Option Store

namespace Database

/-- No transaction is under way. -/
def resting (store : Store) : Database := ⟨store, none⟩

/-- The tables as the transaction sees them that is under way. -/
def seen (database : Database) : Store := database.working.getD database.committed

/-- Changes the copy that is worked on. -/
def change (f : Store → Store) (database : Database) : Database :=
  { database with working := database.working.map f }

def respond : (step : Store.Access) → Database → step.Answer × Database
  | .beginWrite, database => ((), { database with working := some database.committed })
  | .commit, database => ((), resting database.seen)
  | .item id, database => (database.seen.items.find? id, database)
  | .items, database => (database.seen.items.entries, database)
  | .putItem id item, database =>
      ((), database.change fun store => { store with items := store.items.insert id item })
  | .takeItem id, database =>
      (database.seen.items.find? id,
        database.change fun store => { store with items := store.items.erase id })
  | .isRetired id, database => (database.seen.retired.contains id, database)
  | .retire id, database =>
      ((), database.change fun store => { store with retired := id :: store.retired })
  | .claim id, database => (database.seen.claims.find? id, database)
  | .claims, database => (database.seen.claims.entries, database)
  | .putClaim id claim, database =>
      ((), database.change fun store => { store with claims := store.claims.insert id claim })
  | .dropClaim id, database =>
      ((), database.change fun store => { store with claims := store.claims.erase id })

def world : World Store.Tables Database := ⟨respond⟩

end Database

/-- Runs a transaction on a store.  What it has not committed is lost. -/
def Store.perform {α : Type} (transaction : Transaction α) (store : Store) :
    Except Error α × Store :=
  let run := Task.run Database.world transaction (.resting store)
  (run.value, run.state.committed)

end ProgramQueue
