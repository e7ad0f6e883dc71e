import ProgramQueue.Action
import ProgramQueue.Effect

/-!
# Programs and their progress

A program is an action tree with a name that is never used twice.  Its state is
all that running it changes.
-/

namespace ProgramQueue

structure CompleteMessage where
  title : String
  message : String
deriving DecidableEq, Repr

/-- A named action tree. -/
structure Program where
  id : String
  action : Action
  completeMessage : Option CompleteMessage
deriving Repr

/-- The time that stands for never. -/
def never : Int64 := -1

structure State where
  programId : String
  /-- Absent until the first step has run. -/
  effect : Option Effect
  /-- The events registered with the push server for this program. -/
  pushEventIds : List String
  lastRun : Int64
  /-- When the program is to be run again in the foreground. -/
  nextRun : Int64
deriving DecidableEq, Repr

/-- A stored program with its progress. -/
structure Item where
  program : Program
  state : State
deriving Repr

/-- What running a program came to, or one condition it waits for: the effect,
the step that follows if the push server may take it, and the place in the
tree. -/
structure ExecutionResult where
  effect : Effect
  action : Option Action
  callStackId : String
deriving Repr

namespace State

def fresh (programId : String) : State where
  programId := programId
  effect := none
  pushEventIds := []
  lastRun := never
  nextRun := never

/-- The effect to go on from. -/
def current (state : State) : Effect := state.effect.getD .init

def isDone (state : State) : Bool := state.current.isDone

/-- The program is to be run in the foreground by this time. -/
def isDue (state : State) (now : Int64) : Bool :=
  !state.isDone && state.nextRun != never && state.nextRun ≤ now

end State

namespace Item

def fresh (program : Program) : Item := ⟨program, State.fresh program.id⟩

end Item

end ProgramQueue
