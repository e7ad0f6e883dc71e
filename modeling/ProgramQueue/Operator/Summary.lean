import ProgramQueue.Calendar
import ProgramQueue.Path
import ProgramQueue.Program

/-!
# What an operator sees of a program

A program is summed up by how it stands, what it waits for, and when it was run
and is to be run.
-/

namespace ProgramQueue.Operator

def statusText (state : State) : String :=
  match state.current.failure? with
  | some failure => s!"failed ({failure.display})"
  | none => if state.isDone then "done" else "running"

/-- The list without entries that are equal to the one before them. -/
def withoutRepeats : List String → List String
  | [] => []
  | [last] => [last]
  | first :: second :: rest =>
      if first = second then withoutRepeats (second :: rest)
      else first :: withoutRepeats (second :: rest)

/-- What a program waits for: the kinds of its outstanding leaves. -/
def waitingText (state : State) : String :=
  let effect := state.current
  if effect.isDone then "-"
  else
    match effect.pendingLeaves with
    | [] => effect.typeName
    | leaves =>
        ",".intercalate (withoutRepeats (leaves.map fun (_, leaf) => leaf.typeName))

/-- The time of a run; a dash stands for never, and a time without a date is
given as it is. -/
def timeText (time : Int64) : String :=
  let ms := time.toInt
  if ms < 0 then "-"
  else if Calendar.isDated ms then (Calendar.Stamp.ofMs ms).short
  else toString ms

end ProgramQueue.Operator
