import ProgramQueue.Program
import ProgramQueue.Wire.Action
import ProgramQueue.Wire.Effect

/-!
# Programs, states and stored items on the wire

The three members of a state that have defaults are always written.
-/

namespace ProgramQueue

open Wire

namespace CompleteMessage

def record : Record (String × String × Unit) :=
  .cons (.required "title" .str .str) <|
  .cons (.required "message" .str .str) .nil

def toJson (complete : CompleteMessage) : Json :=
  record.write (complete.title, complete.message, ())

def read : Reader CompleteMessage := fun level json => do
  let (title, message, ()) ← record.read level json
  return ⟨title, message⟩

end CompleteMessage

namespace Program

def record : Record (String × Action × Option CompleteMessage × Unit) :=
  .cons (.required "programId" .str .str) <|
  .cons (.required "actionOp" Action.read Action.toJson) <|
  .cons (.optional "completeMessage" CompleteMessage.read CompleteMessage.toJson)
    .nil

def toJson (program : Program) : Json :=
  record.write (program.id, program.action, program.completeMessage, ())

def read : Reader Program := fun level json => do
  let (id, action, complete, ()) ← record.read level json
  return ⟨id, action, complete⟩

end Program

namespace State

/-- A time in unix milliseconds, or never. -/
def timeField (name : String) : Wire.Field Int64 :=
  .defaulted name never .int64 fun time => .int time.toInt

def record : Record (String × Option Effect × List String × Int64 × Int64 × Unit) :=
  .cons (.required "programId" .str .str) <|
  .cons (.optional "effect" Effect.read Effect.toJson) <|
  .cons (.defaulted "pushEventIds" [] (.list .str) Wire.strs) <|
  .cons (timeField "lastExecutionTime") <|
  .cons (timeField "nextExecutionTime") .nil

def toJson (state : State) : Json :=
  record.write (state.programId, state.effect, state.pushEventIds, state.lastRun,
    state.nextRun, ())

def read : Reader State := fun level json => do
  let (programId, effect, ids, last, next, ()) ← record.read level json
  return ⟨programId, effect, ids, last, next⟩

end State

namespace Item

def record : Record (Program × State × Unit) :=
  .cons (.required "program" Program.read Program.toJson) <|
  .cons (.required "state" State.read State.toJson) .nil

def toJson (item : Item) : Json := record.write (item.program, item.state, ())

def read : Reader Item := fun level json => do
  let (program, state, ()) ← record.read level json
  return ⟨program, state⟩

end Item

namespace ExecutionResult

def record : Record (Effect × Option Action × String × Unit) :=
  .cons (.required "effect" Effect.read Effect.toJson) <|
  .cons (.optional "action" Action.read Action.toJson) <|
  .cons
    { name := "callStackId"
      read := .str
      absent := some ""
      unlisted := some ""
      write := fun place => if place.isEmpty then none else some (.str place) }
    .nil

def toJson (result : ExecutionResult) : Json :=
  record.write (result.effect, result.action, result.callStackId, ())

def read : Reader ExecutionResult := fun level json => do
  let (effect, action, place, ()) ← record.read level json
  return ⟨effect, action, place⟩

end ExecutionResult

end ProgramQueue
