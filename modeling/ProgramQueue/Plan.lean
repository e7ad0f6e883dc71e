import ProgramQueue.Path
import ProgramQueue.Program

/-!
# What a program waits for, and what comes next

One entry for each condition that is waited for, with its place and the step
that follows it.  A step follows only where nothing else has to be waited for
first, and it is named only if the push server can carry it out.
-/

namespace ProgramQueue

namespace Action

mutual

/-- The conditions an action waits for at an effect, given the place of the
action and the step that follows it. -/
def plan : Action → Effect → Path → Option Action → List (Path × Effect × Option Action)
  | seq children _, .seq index child, place, next =>
      planSeq children index child (place ++ [.seq index]) next
  | par children _, .par effects, place, _ => planPar 0 children effects place
  | _, .await condition, place, next =>
      [(place, .await condition, next.filter Action.hasPushPayload)]
  | _, _, _, _ => []

/-- Plans the child of a sequence after so many others; the next child, or what
follows the sequence, comes after it. -/
def planSeq : List Action → Nat → Effect → Path → Option Action →
    List (Path × Effect × Option Action)
  | [], _, _, _, _ => []
  | running :: rest, 0, child, place, next =>
      let following :=
        match rest with
        | sibling :: _ => sibling.firstLeaf?
        | [] => next
      plan running child place following
  | _ :: rest, skip + 1, child, place, next => planSeq rest skip child place next

/-- Plans parallel children, numbered from an index.  What follows them waits
for all, so no single one carries it. -/
def planPar (index : Nat) : List Action → List Effect → Path →
    List (Path × Effect × Option Action)
  | child :: children, effect :: effects, place =>
      plan child effect (place ++ [.par index]) none ++
        planPar (index + 1) children effects place
  | _, _, _ => []

end

end Action

namespace Program

/-- What a program waits for at an effect. -/
def plannedResults (program : Program) (effect : Effect) : List ExecutionResult :=
  (program.action.plan effect [] none).map fun (place, awaited, action) =>
    ⟨awaited, action, place.text⟩

end Program

end ProgramQueue
