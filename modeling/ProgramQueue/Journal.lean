import ProgramQueue.Outside
import ProgramQueue.Path

/-!
# The journal of a program

What happens to a program is written into a journal while it happens: when it is
run, when it advances, which of its leaves are started and what each comes to.
The journal is only written.  Nothing is read back from it, so a task comes to
the same with it and without it.
-/

namespace ProgramQueue

/-- Where a node stands: its program, and its place in the tree. -/
structure Site where
  programId : String
  place : Path
deriving DecidableEq, Repr

namespace Site

def below (site : Site) (branch : Branch) : Site :=
  { site with place := site.place ++ [branch] }

end Site

/-- An entry of the journal. -/
inductive Note where
  /-- A program goes on from its stored effect, perhaps because of an event. -/
  | step (programId : String) (fired : Option String)
  | advance (programId : String)
  | execute (site : Site)
  /-- A leaf that was started or checked has come to an effect. -/
  | leaf (site : Site) (next : Effect)
  /-- A program is stopped. -/
  | terminate (programId : String) (failure : Failure)
deriving DecidableEq, Repr

/-- A request of a task that keeps a journal. -/
inductive Journaled.Request where
  | note (note : Note)
  | ask (query : Query)

abbrev Journaled.Request.Answer : Journaled.Request → Type
  | note _ => Unit
  | ask query => query.Answer

/-- The collaborators and a journal. -/
abbrev Journaled : Interface where
  Request := Journaled.Request
  Answer := Journaled.Request.Answer

namespace Journaled

variable {α : Type}

def write (note : Note) : Task Journaled Unit :=
  Task.request (I := Journaled) (.note note)

/-- Asks the collaborators and writes nothing. -/
def asking (task : Task Outside α) : Task Journaled α :=
  task.relay (J := Journaled) Request.ask fun _ answer => answer

/-- The task without its journal. -/
def silent : Task Journaled α → Task Outside α
  | .done value => .done value
  | .ask (.note _) next => silent (next ())
  | .ask (.ask query) next => .ask query fun answer => silent (next answer)

end Journaled

end ProgramQueue
