import ProgramQueue.Table

/-!
# The locks of a process

Tasks of one process take turns on a program by way of a lock that is registered
under the program's id.  A lock is made when the first task asks for it.  Every
task that waits for it or holds it refers to it, and so does the registry until
a task that is done with it finds that nobody else refers to it any more.

Letting go of a lock and looking after the registry are two steps, and anything
may happen between them.  A task that gives up while it waits just drops its
reference.
-/

namespace ProgramQueue.Queue

/-- How far a task is with a lock. -/
inductive LockStage where
  | waiting
  /-- The lock is the task's, which has not noticed yet. -/
  | granted
  | holding
deriving DecidableEq, Repr

/-- What a task has to do with a lock. -/
structure LockTicket where
  task : Nat
  id : String
  /-- The number of the lock that the task refers to. -/
  lock : Nat
  stage : LockStage
deriving DecidableEq, Repr

/-- The locks of a process. -/
structure Locks where
  /-- The registered lock of each id. -/
  registry : Table Nat
  /-- The tasks that refer to locks, in the order they asked. -/
  tickets : List LockTicket
  /-- The ids of locks that were let go of since their registration was last
  looked after. -/
  outstanding : List String
  /-- The number of the next lock. -/
  next : Nat
deriving DecidableEq

/-- One step of a task, or of the lock it refers to. -/
inductive LockStep where
  /-- A task asks for the lock of an id. -/
  | request (task : Nat) (id : String)
  /-- A lock that is free passes to the first task that waits for it. -/
  | grant (lock : Nat)
  | resume (task : Nat)
  /-- A task gives up before it has noticed that it has its lock. -/
  | giveUp (task : Nat)
  | unlock (task : Nat)
  /-- The registration of an id is looked after. -/
  | sweep (id : String)
deriving DecidableEq, Repr

namespace Locks

def empty : Locks := ⟨.empty, [], [], 0⟩

variable (locks : Locks)

def ticket? (task : Nat) : Option LockTicket := locks.tickets.find? (·.task = task)

/-- Some task has the lock. -/
def isTaken (lock : Nat) : Bool :=
  locks.tickets.any fun ticket => ticket.lock = lock && ticket.stage != .waiting

/-- Some task refers to the lock. -/
def isReferred (lock : Nat) : Bool := locks.tickets.any (·.lock = lock)

/-- Some task waits for the lock of an id or has it. -/
def isWanted (id : String) : Bool := locks.tickets.any (·.id = id)

/-- The locks with a task at another stage. -/
def setStage (task : Nat) (stage : LockStage) : Locks :=
  { locks with
    tickets := locks.tickets.map fun ticket =>
      if ticket.task = task then { ticket with stage } else ticket }

/-- The locks without the reference of a task. -/
def withoutTask (task : Nat) : Locks :=
  { locks with tickets := locks.tickets.filter (·.task != task) }

def request (task : Nat) (id : String) : Option Locks :=
  if (locks.ticket? task).isSome then none
  else
    match locks.registry.find? id with
    | some lock =>
        some { locks with tickets := locks.tickets ++ [⟨task, id, lock, .waiting⟩] }
    | none =>
        some { locks with
          registry := locks.registry.insert id locks.next
          tickets := locks.tickets ++ [⟨task, id, locks.next, .waiting⟩]
          next := locks.next + 1 }

def grant (lock : Nat) : Option Locks :=
  if locks.isTaken lock then none
  else (locks.tickets.find? (·.lock = lock)).map fun first =>
    locks.setStage first.task .granted

def resume (task : Nat) : Option Locks :=
  match locks.ticket? task with
  | some ⟨_, _, _, .granted⟩ => some (locks.setStage task .holding)
  | _ => none

def giveUp (task : Nat) : Option Locks :=
  match locks.ticket? task with
  | some ⟨_, _, _, .holding⟩ => none
  | some _ => some (locks.withoutTask task)
  | none => none

def unlock (task : Nat) : Option Locks :=
  match locks.ticket? task with
  | some ⟨_, id, _, .holding⟩ =>
      let left := locks.withoutTask task
      some { left with outstanding := id :: left.outstanding }
  | _ => none

/-- The registration of an id is dropped if nobody refers to the lock. -/
def sweep (id : String) : Option Locks :=
  if id ∈ locks.outstanding then
    let swept := { locks with outstanding := locks.outstanding.erase id }
    match locks.registry.find? id with
    | some lock =>
        if locks.isReferred lock then some swept
        else some { swept with registry := locks.registry.erase id }
    | none => some swept
  else none

/-- The locks after one step, if the step can be taken. -/
def after : LockStep → Option Locks
  | .request task id => locks.request task id
  | .grant lock => locks.grant lock
  | .resume task => locks.resume task
  | .giveUp task => locks.giveUp task
  | .unlock task => locks.unlock task
  | .sweep id => locks.sweep id

end Locks

/-- Locks that some order of steps leads to. -/
inductive Locks.Reachable : Locks → Prop where
  | start : Locks.Reachable .empty
  | step {before later : Locks} (step : LockStep) :
      Locks.Reachable before → before.after step = some later → Locks.Reachable later

end ProgramQueue.Queue
