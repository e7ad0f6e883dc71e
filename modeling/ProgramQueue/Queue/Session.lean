import ProgramQueue.Queue.Requests

/-!
# Running operations

A host answers what the queue asks of the world outside; the store is answered
by the store itself.  Operations that do not overlap always find the locks free.
An operation can also be stopped before a request, and go on later.
-/

namespace ProgramQueue.Queue

/-- The world outside of the queue and its store. -/
structure Host (σ : Type) where
  outside : World Outside σ
  push : (request : Push.Request) → σ → request.Answer × σ
  wallClock : σ → Int × σ

/-- A store together with the state of the world outside. -/
structure Session (σ : Type) where
  store : Store
  outer : σ

variable {σ α : Type}

def Host.respond (host : Host σ) :
    (request : Request) → Session σ → request.Answer × Session σ
  | .outside query, session =>
      let (answer, outer) := host.outside.respond query session.outer
      (answer, { session with outer })
  | .push request, session =>
      let (answer, outer) := host.push request session.outer
      (answer, { session with outer })
  | .wallClock, session =>
      let (answer, outer) := host.wallClock session.outer
      (answer, { session with outer })
  | .store request, session =>
      let (answer, store) := Store.respond request session.store
      (answer, { session with store })
  | .lock _, session => ((), session)
  | .unlock _, session => ((), session)
  | .note _, session => ((), session)

def Host.world (host : Host σ) : World Surroundings (Session σ) := ⟨host.respond⟩

/-- An operation that has stopped before a request, or is over. -/
structure Progress (σ α : Type) where
  left : Operation α
  session : Session σ
  requests : List Request

/-- Runs an operation up to the first request of a kind. -/
def runUntil (host : Host σ) (stop : Request → Bool) :
    Operation α → Session σ → Progress σ α
  | .done value, session => ⟨.done value, session, []⟩
  | .ask request next, session =>
      if stop request then ⟨.ask request next, session, []⟩
      else
        let (answer, session) := host.respond request session
        let later := runUntil host stop (next answer) session
        { later with requests := request :: later.requests }

/-- Waiting for a program to be free. -/
def isLock : Request → Bool
  | .lock _ => true
  | _ => false

end ProgramQueue.Queue
