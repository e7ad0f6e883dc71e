/-!
# Tasks that ask their surroundings

A task is a tree of requests: it is over, or it makes a request and goes on in a
way that depends on the answer.  Nothing is assumed about the answers, which may
be different each time the same request is made.  A world answers requests out
of a state of its own; running a task in a world gives its value, the state that
the world is left in, and the requests that were made.
-/

namespace ProgramQueue

/-- The requests that can be made, and the type of the answer to each. -/
structure Interface where
  Request : Type
  Answer : Request → Type

/-- A computation that makes requests. -/
inductive Task (I : Interface) (α : Type) : Type where
  | done (value : α)
  | ask (request : I.Request) (next : I.Answer request → Task I α)

namespace Task

variable {I J : Interface} {α β : Type}

/-- Goes on with the value of a task. -/
def bind : Task I α → (α → Task I β) → Task I β
  | done value, f => f value
  | ask request next, f => ask request fun answer => (next answer).bind f

instance : Monad (Task I) where
  pure := done
  bind := bind

/-- Makes one request and returns its answer. -/
def request (r : I.Request) : Task I (I.Answer r) := ask r done

/-- A task of one interface as a task of another that offers its requests. -/
def relay (embed : I.Request → J.Request)
    (back : (r : I.Request) → J.Answer (embed r) → I.Answer r) :
    Task I α → Task J α
  | done value => done value
  | ask r next => ask (embed r) fun answer => (next (back r answer)).relay embed back

/-- A task in which each request is made by a task of another interface. -/
def through (handle : (r : I.Request) → Task J (I.Answer r)) :
    Task I α → Task J α
  | done value => done value
  | ask r next => (handle r).bind fun answer => (next answer).through handle

end Task

/-- Something that answers requests out of a state of its own. -/
structure World (I : Interface) (σ : Type) where
  respond : (r : I.Request) → σ → I.Answer r × σ

/-- What a run came to: the value, the state of the world, and the requests in
the order they were made. -/
structure Run (I : Interface) (σ α : Type) where
  value : α
  state : σ
  requests : List I.Request

namespace Task

variable {I : Interface} {α σ : Type}

def run (world : World I σ) : Task I α → σ → Run I σ α
  | done value, state => ⟨value, state, []⟩
  | ask r next, state =>
      let (answer, state) := world.respond r state
      let later := (next answer).run world state
      { later with requests := r :: later.requests }

/-- The state of the world when so many requests of a task have been made. -/
def stateAfter (world : World I σ) : Nat → Task I α → σ → σ
  | 0, _, state => state
  | _ + 1, done _, state => state
  | count + 1, ask r next, state =>
      let (answer, state) := world.respond r state
      (next answer).stateAfter world count state

end Task

end ProgramQueue
