import Mathlib.Logic.Function.Basic
import ProgramQueue.Proofs.Conducts
import ProgramQueue.Proofs.Locking

/-!
# Processes that share a store

Processes share a store and a clock.  Each has locks of its own and any number of tasks, and
a task carries out one command after the other, one request at a time; between two of them
anything may happen that another task does.
-/

namespace ProgramQueue.Queue

/-- A task of a process. -/
structure Worker where
  /-- The name of the process. -/
  owner : String
  task : Nat
deriving DecidableEq

/-- Processes that share a store and a clock. -/
structure System where
  store : Store
  now : Int
  locks : String → Locks
  /-- What each task has left to do. -/
  left : Worker → Operation Unit
  /-- How far each task is with holding a program, as its requests tell. -/
  stage : Worker → Conduct

namespace System

/-- Nothing has begun. -/
def start (store : Store) (now : Int) : System where
  store := store
  now := now
  locks _ := .empty
  left _ := .done ()
  stage _ := .free none

variable (system : System)

/-- The locks of one process have changed. -/
def relock (owner : String) (locks : Locks) : System :=
  { system with locks := Function.update system.locks owner locks }

@[simp]
theorem relock_stage (owner : String) (locks : Locks) :
    (system.relock owner locks).stage = system.stage := rfl

/-- What a task has left to do, and how far it is, have changed. -/
def put (worker : Worker) (left : Operation Unit) (stage : Conduct) : System :=
  { system with
    left := Function.update system.left worker left
    stage := Function.update system.stage worker stage }

/-- A task goes on after an answer. -/
def proceed (worker : Worker) (request : Request) (answer : request.Answer)
    (next : request.Answer → Operation Unit) : System :=
  system.put worker (next answer) ((system.stage worker).after request answer)

/-- A task begins an operation, or stops before it is done. -/
def assign (worker : Worker) (operation : Operation Unit) : System :=
  system.put worker operation (system.stage worker)

/-- A process is no more, and what its tasks held in memory is lost. -/
def without (owner : String) : System :=
  { system with
    locks := Function.update system.locks owner .empty
    left := fun worker => if worker.owner = owner then .done () else system.left worker
    stage := fun worker => if worker.owner = owner then .free none else system.stage worker }

end System

/-- A request that is answered by the world outside. -/
inductive Request.IsOutside : Request → Prop
  | outside (query : Query) : IsOutside (.outside query)
  | push (request : Push.Request) : IsOutside (.push request)
  | note (note : Note) : IsOutside (.note note)

/-- One step of the processes. -/
inductive SystemStep (settings : String → Settings) (ttl : Nat) : System → System → Prop
  | wait {system : System} {later : Int} (hlater : system.now ≤ later) :
      SystemStep settings ttl system { system with now := later }
  /-- A task that has nothing left to do is given a command that deletes nothing. -/
  | begin {system : System} {worker : Worker} {command : Command}
      (hleft : system.left worker = .done ()) (hremoves : command.removes = false) :
      SystemStep settings ttl system
        (system.assign worker (command.operation (settings worker.owner)))
  /-- A task asks for a lock, ... -/
  | line {system : System} {worker : Worker} {id : String} {next : Unit → Operation Unit}
      {locks : Locks} (hleft : system.left worker = .ask (.lock id) next)
      (hlocks : (system.locks worker.owner).request worker.task id = some locks) :
      SystemStep settings ttl system (system.relock worker.owner locks)
  /-- ... which passes to the task that has waited longest, ... -/
  | grant {system : System} {owner : String} {lock : Nat} {locks : Locks}
      (hlocks : (system.locks owner).grant lock = some locks) :
      SystemStep settings ttl system (system.relock owner locks)
  /-- ... and the task goes on. -/
  | enter {system : System} {worker : Worker} {id : String} {next : Unit → Operation Unit}
      {locks : Locks} (hleft : system.left worker = .ask (.lock id) next)
      (hlocks : (system.locks worker.owner).resume worker.task = some locks) :
      SystemStep settings ttl system
        ((system.relock worker.owner locks).proceed worker (.lock id) () next)
  /-- A task does not wait any longer for a lock, and is dropped. -/
  | giveUp {system : System} {worker : Worker} {id : String} {next : Unit → Operation Unit}
      {locks : Locks} (hleft : system.left worker = .ask (.lock id) next)
      (hlocks : (system.locks worker.owner).giveUp worker.task = some locks) :
      SystemStep settings ttl system ((system.relock worker.owner locks).assign worker (.done ()))
  | unlock {system : System} {worker : Worker} {id : String} {next : Unit → Operation Unit}
      {locks : Locks} (hleft : system.left worker = .ask (.unlock id) next)
      (hlocks : (system.locks worker.owner).unlock worker.task = some locks) :
      SystemStep settings ttl system
        ((system.relock worker.owner locks).proceed worker (.unlock id) () next)
  /-- The registration of a lock is looked after. -/
  | sweep {system : System} {owner : String} {id : String} {locks : Locks}
      (hlocks : (system.locks owner).sweep id = some locks) :
      SystemStep settings ttl system (system.relock owner locks)
  | read {system : System} {worker : Worker} {next : Int → Operation Unit}
      (hleft : system.left worker = .ask .wallClock next) :
      SystemStep settings ttl system (system.proceed worker .wallClock system.now next)
  /-- A transaction with the store. -/
  | transact {system : System} {worker : Worker} {request : Store.Request}
      {next : request.Answer → Operation Unit}
      (hleft : system.left worker = .ask (.store request) next) :
      SystemStep settings ttl system
        ({ system with store := (Store.respond request system.store).2 }.proceed worker
          (.store request) (Store.respond request system.store).1 next)
  /-- Whatever the world outside answers. -/
  | ask {system : System} {worker : Worker} {request : Request}
      {next : request.Answer → Operation Unit} (houtside : request.IsOutside)
      (answer : request.Answer) (hleft : system.left worker = .ask request next) :
      SystemStep settings ttl system (system.proceed worker request answer next)
  /-- Claims are dropped that are older than so many seconds. -/
  | recover {system : System} {reading : Int} {maxAge : Nat} (hread : reading ≤ system.now)
      (hage : ttl ≤ maxAge) :
      SystemStep settings ttl system
        { system with store := (system.store.recoverStale reading maxAge).2 }
  /-- A process dies, whatever its tasks were doing. -/
  | die {system : System} (owner : String) : SystemStep settings ttl system (system.without owner)

/-- For every task that has claimed a program and not dropped the claim yet, less than the
given number of seconds have passed since the date of the claim. -/
def System.Punctual (ttl : Nat) (system : System) : Prop :=
  ∀ worker id since, system.stage worker = .inside id since → system.now < since + ttl * 1000

/-- What the processes come to, from any store and at any time, if every task drops its claims
in time. -/
inductive Reached (settings : String → Settings) (ttl : Nat) : System → Prop
  | start (store : Store) (now : Int) : Reached settings ttl (.start store now)
  | step {before after : System} (h : Reached settings ttl before)
      (hpunctual : before.Punctual ttl) (hstep : SystemStep settings ttl before after) :
      Reached settings ttl after

variable {system : System} {worker : Worker} {ttl : Nat}

theorem System.Punctual.put (h : system.Punctual ttl) {left : Operation Unit} {stage : Conduct}
    (hstage : ∀ id since, stage = .inside id since → system.now < since + ttl * 1000) :
    (system.put worker left stage).Punctual ttl := by
  intro other id since hinside
  by_cases heq : other = worker
  · rw [heq] at hinside
    exact hstage id since ((Function.update_self ..).symm.trans hinside)
  · exact h other id since ((Function.update_of_ne heq ..).symm.trans hinside)

theorem System.Punctual.relock (h : system.Punctual ttl) (owner : String) (locks : Locks) :
    (system.relock owner locks).Punctual ttl := h

theorem System.Punctual.proceed (h : system.Punctual ttl) {request : Request}
    {answer : request.Answer} {next : request.Answer → Operation Unit}
    (hstage : ∀ id since, (system.stage worker).after request answer = .inside id since →
      system.now < since + ttl * 1000) :
    (system.proceed worker request answer next).Punctual ttl := h.put hstage

/-! ## What concerns a task -/

/-- What a task has left, how far it is, and its ticket for a lock. -/
structure Situation where
  left : Operation Unit
  stage : Conduct
  ticket? : Option LockTicket

def System.situation (system : System) (worker : Worker) : Situation where
  left := system.left worker
  stage := system.stage worker
  ticket? := (system.locks worker.owner).ticket? worker.task

theorem situation_relock (worker : Worker) {locks : Locks} {ticket? : Option LockTicket}
    (hticket : ∀ task, locks.ticket? task =
      if task = worker.task then ticket? else (system.locks worker.owner).ticket? task)
    (other : Worker) : (system.relock worker.owner locks).situation other =
      if other = worker then { system.situation worker with ticket? := ticket? }
      else system.situation other := by
  obtain ⟨owner, task⟩ := worker
  obtain ⟨owner', task'⟩ := other
  by_cases howner : owner' = owner
  · subst howner
    have hlocks : (system.relock owner' locks).locks owner' = locks := Function.update_self ..
    by_cases htask : task' = task
    · subst htask
      rw [if_pos rfl]
      unfold System.situation
      dsimp only
      rw [hlocks, hticket, if_pos rfl]
      rfl
    · rw [if_neg fun heq => htask (Worker.mk.inj heq).2]
      unfold System.situation
      dsimp only
      rw [hlocks, hticket, if_neg htask]
      rfl
  · have hlocks : (system.relock owner locks).locks owner' = system.locks owner' :=
      Function.update_of_ne howner ..
    rw [if_neg fun heq => howner (Worker.mk.inj heq).1]
    unfold System.situation
    dsimp only
    rw [hlocks]
    rfl

theorem situation_put {left : Operation Unit} {stage : Conduct} (other : Worker) :
    (system.put worker left stage).situation other =
      if other = worker then { system.situation worker with left := left, stage := stage }
      else system.situation other := by
  by_cases heq : other = worker
  · subst heq
    simp [System.situation, System.put]
  · simp [System.situation, System.put, heq]

theorem situation_exchange {locks : Locks} {found : Option LockTicket} {left : Operation Unit}
    {stage : Conduct} (hticket : ∀ task, locks.ticket? task =
      if task = worker.task then found else (system.locks worker.owner).ticket? task)
    (other : Worker) : ((system.relock worker.owner locks).put worker left stage).situation other =
      if other = worker then ⟨left, stage, found⟩ else system.situation other := by
  rw [situation_put, situation_relock worker hticket, situation_relock worker hticket, if_pos rfl]
  by_cases heq : other = worker
  · rw [if_pos heq, if_pos heq]
  · rw [if_neg heq, if_neg heq, if_neg heq]

end ProgramQueue.Queue
