import ProgramQueue.Journal
import ProgramQueue.Leaf
import ProgramQueue.Program

/-!
# Advancing a program

One advance takes an action and its effect to the next effect.  A step that has
not been started is started, a condition is checked, a sequence moves on to its
next child when the running one is over, and parallel children all advance.
Nothing that is recorded as started is ever started again.  The journal tells
which leaves were started and checked.
-/

namespace ProgramQueue

/-- The ways in which an effect can fail to fit an action. -/
inductive Misfit where
  /-- The effect is of a kind that the action never has. -/
  | kind (effect action : String)
  /-- A sequence runs a child that it does not have. -/
  | position (index count : Nat)
  /-- Parallel children and their effects differ in number. -/
  | width (effects actions : Nat)
deriving DecidableEq, Repr

namespace Misfit

def message : Misfit → String
  | kind effect action => s!"'{effect}' effect cannot drive '{action}' action"
  | position index count => s!"opIndex {index} out of range for {count} actions"
  | width effects actions =>
      s!"par has {effects} child effects for {actions} actions"

/-- The effect of a program that is stopped by a misfit. -/
def effect (misfit : Misfit) : Effect := .failed ⟨.invalidState, misfit.message⟩

end Misfit

/-- How a sequence of so many children goes on once the child at an index has
advanced.  A failure keeps the snapshot that it came with. -/
def Effect.afterChild (count index : Nat) : Effect → Effect
  | .done (some failure) snapshot => .done (some failure) snapshot
  | .done none _ =>
      if count ≤ index + 1 then .completed else .seq (index + 1) .init
  | pending => .seq index pending

/-- What parallel children come to once they have all advanced.  The first
failure by position counts. -/
def Effect.afterChildren (children : List Effect) : Effect :=
  match children.findSome? Effect.failure? with
  | some failure => .done (some failure) (some children)
  | none => if children.all Effect.isDone then .completed else .par children

/-- The effect of a step once it has been started. -/
def Effect.ofStart : Except CollaboratorError Effect → Effect
  | .ok next => next
  | .error e => .failed e.toFailure

/-- The effect of a leaf once its condition has been checked.  An error that may
pass leaves it waiting. -/
def Effect.ofCheck (pending : Effect) : Except CollaboratorError Check → Effect
  | .ok .satisfied => .completed
  | .ok .pending => pending
  | .ok (.failed reason) => .failed ⟨.execution, reason⟩
  | .error e => if e.isTransient then pending else .failed e.toFailure

/-- Parallel children advance if there is one effect for each; if there are none
they are over at once. -/
def Action.gather (actions effects : Nat) (advanced : Task Journaled (List Effect)) :
    Task Journaled Effect :=
  if effects ≠ actions then return (Misfit.width effects actions).effect
  else if actions = 0 then return .completed
  else do return .afterChildren (← advanced)

def Step.execute (inlineCap : Nat) (site : Site) (step : Step) :
    Task Journaled Effect := do
  Journaled.write (.execute site)
  let next := Effect.ofStart (← Journaled.asking (step.start inlineCap).run)
  Journaled.write (.leaf site next)
  return next

def Condition.recheck (site : Site) (condition : Condition) : Task Journaled Effect := do
  let next :=
    Effect.ofCheck (.await condition) (← Journaled.asking condition.check.run)
  Journaled.write (.leaf site next)
  return next

def Step.advance (inlineCap : Nat) (site : Site) (step : Step) :
    Effect → Task Journaled Effect
  | .done failure snapshot => return .done failure snapshot
  | .init => step.execute inlineCap site
  | .await condition => condition.recheck site
  | other => return (Misfit.kind other.typeName step.typeName).effect

namespace Action

mutual

/-- Advances an action by one turn.  What is over stays as it is. -/
def advance (inlineCap : Nat) (site : Site) : Action → Effect → Task Journaled Effect
  | seq children _, effect =>
      match effect with
      | .done failure snapshot => return .done failure snapshot
      | .init => advanceSeq inlineCap site children children.length 0 0 .init
      | .seq index child =>
          advanceSeq inlineCap site children children.length index index child
      | other => return (Misfit.kind other.typeName "seq").effect
  | par children _, effect =>
      match effect with
      | .done failure snapshot => return .done failure snapshot
      | .init =>
          gather children.length children.length
            (advanceAll inlineCap site 0 children (children.map fun _ => .init))
      | .par effects =>
          gather children.length effects.length
            (advanceAll inlineCap site 0 children effects)
      | other => return (Misfit.kind other.typeName "par").effect
  | step s _, effect => s.advance inlineCap site effect

/-- Advances the child at an index of a sequence, of which so many children are
still to be passed over.  A sequence of no children is over at once. -/
def advanceSeq (inlineCap : Nat) (site : Site) (rest : List Action)
    (count index skip : Nat) (child : Effect) : Task Journaled Effect :=
  if count = 0 then return .completed
  else
    match rest, skip with
    | [], _ => return (Misfit.position index count).effect
    | running :: _, 0 => do
        return .afterChild count index
          (← advance inlineCap (site.below (.seq index)) running child)
    | _ :: rest, skip + 1 => advanceSeq inlineCap site rest count index skip child

/-- Advances each child with its effect, from the first to the last; the children
are numbered from an index. -/
def advanceAll (inlineCap : Nat) (site : Site) (index : Nat) :
    List Action → List Effect → Task Journaled (List Effect)
  | child :: children, effect :: effects => do
      let next ← advance inlineCap (site.below (.par index)) child effect
      let others ← advanceAll inlineCap site (index + 1) children effects
      return next :: others
  | _, _ => return []

end

end Action

namespace Program

/-- Advances a program from an effect and keeps a journal. -/
def advanceJournaled (inlineCap : Nat) (program : Program) (effect : Effect) :
    Task Journaled Effect := do
  Journaled.write (.advance program.id)
  program.action.advance inlineCap ⟨program.id, []⟩ effect

/-- Advances a program until it is over, its effect stays the same, or so many
advances have been made, and keeps a journal. -/
def driveJournaled (inlineCap : Nat) (program : Program) :
    Nat → State → Task Journaled State
  | 0, state => return state
  | budget + 1, state =>
      if state.isDone then return state
      else do
        let next ← program.advanceJournaled inlineCap state.current
        let state' := { state with effect := some next }
        if next = state.current then return state'
        else program.driveJournaled inlineCap budget state'

/-- Advances a program from an effect. -/
def advance (inlineCap : Nat) (program : Program) (effect : Effect) :
    Task Outside Effect :=
  Journaled.silent (program.advanceJournaled inlineCap effect)

/-- Advances a program until it is over, its effect stays the same, or so many
advances have been made. -/
def drive (inlineCap : Nat) (program : Program) (budget : Nat) (state : State) :
    Task Outside State :=
  Journaled.silent (program.driveJournaled inlineCap budget state)

end Program

end ProgramQueue
