import ProgramQueue.Journal
import ProgramQueue.Push.Event
import ProgramQueue.Store

/-!
# What the queue asks for

Every operation of the queue is a task over the requests listed here: to the
collaborators, to the push server, to the clock that dates claims, to the store,
to the locks of its process and to the journal.  One request is one atomic part of an operation;
between two of them anything may happen that another task or process does.
-/

namespace ProgramQueue

namespace Push

inductive Request where
  | updateDevice (update : DeviceUpdate)
  | updateLogin (update : LoginUpdate)
  | loginEvents

abbrev Request.Answer : Request → Type
  | updateDevice _ => Except RequestError Device
  | updateLogin _ => Except RequestError Unit
  | loginEvents => Except RequestError Login

end Push

namespace Store

/-- A transaction of the store. -/
inductive Request where
  | insert (program : Program)
  | get (id : String)
  | list
  | update (id : String) (change : State → State)
  | save (state : State)
  | remove (id : String)
  | tryClaim (id owner : String) (now : Int) (ttl : Nat)
  | release (id owner : String)
  | claim (id : String)
  | recoverStale (now : Int) (maxAge : Nat)

abbrev Request.Answer : Request → Type
  | insert _ => Except Error Item
  | get _ => Except Error (Option Item)
  | list => Except Error (List (String × Item))
  | update _ _ => Except Error State
  | save _ => Except Error Unit
  | remove _ => Except Error Item
  | tryClaim _ _ _ _ => Except Error Bool
  | release _ _ => Unit
  | claim _ => Option Claim
  | recoverStale _ _ => Except Error Nat

def respond : (request : Request) → Store → request.Answer × Store
  | .insert program, store => store.insert program
  | .get id, store => (store.get id, store)
  | .list, store => (store.list, store)
  | .update id change, store => store.update id change
  | .save state, store => store.save state
  | .remove id, store => store.remove id
  | .tryClaim id owner now ttl, store => store.tryClaim id owner now ttl
  | .release id owner, store => ((), store.release id owner)
  | .claim id, store => (store.claim? id, store)
  | .recoverStale now maxAge, store => store.recoverStale now maxAge

end Store

namespace Queue

/-- One atomic part of an operation of the queue. -/
inductive Request where
  | outside (query : Query)
  | push (request : Push.Request)
  /-- The time that claims are dated with, in unix milliseconds. -/
  | wallClock
  | store (request : Store.Request)
  /-- Waits until no other task of this process has the program. -/
  | lock (id : String)
  | unlock (id : String)
  /-- An entry of the journal. -/
  | note (note : Note)

abbrev Request.Answer : Request → Type
  | outside query => query.Answer
  | push request => request.Answer
  | wallClock => Int
  | store request => request.Answer
  | lock _ => Unit
  | unlock _ => Unit
  | note _ => Unit

/-- The surroundings of the queue. -/
abbrev Surroundings : Interface where
  Request := Request
  Answer := Request.Answer

abbrev Operation (α : Type) := Task Surroundings α

/-- A part of an operation that stops at the first error. -/
abbrev Attempt (α : Type) := ExceptT Error (Task Surroundings) α

def outside {α : Type} (task : Task Outside α) : Operation α :=
  task.relay (J := Surroundings) Request.outside fun _ answer => answer

/-- The request of an operation that stands for one of a task with a journal. -/
def Request.ofJournaled : Journaled.Request → Request
  | .note entry => .note entry
  | .ask query => .outside query

/-- The answer to a request is the answer to the one that stands for it. -/
def Request.answerJournaled :
    (request : Journaled.Request) → (Request.ofJournaled request).Answer → request.Answer
  | .note _, answer => answer
  | .ask _, answer => answer

/-- Asks the collaborators and keeps the journal. -/
def journaled {α : Type} (task : Task Journaled α) : Operation α :=
  task.relay (J := Surroundings) Request.ofJournaled Request.answerJournaled

def note (entry : Note) : Operation Unit :=
  Task.request (I := Surroundings) (.note entry)

def store (request : Store.Request) : Operation request.Answer :=
  Task.request (I := Surroundings) (.store request)

def push (request : Push.Request) : Operation request.Answer :=
  Task.request (I := Surroundings) (.push request)

/-- Reads the clock that claims are dated with. -/
def wallClock : Operation Int := Task.request (I := Surroundings) .wallClock

/-- Waits for a program to be free in this process. -/
def lock (id : String) : Operation Unit := Task.request (I := Surroundings) (.lock id)

def unlock (id : String) : Operation Unit :=
  Task.request (I := Surroundings) (.unlock id)

/-- The result of a part that may be an error. -/
def attempt {α : Type} (operation : Operation (Except Error α)) : Attempt α :=
  ExceptT.mk operation

end Queue

end ProgramQueue
