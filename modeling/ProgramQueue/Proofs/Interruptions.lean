import ProgramQueue.Proofs.Overlaps

/-!
# A registration that is interrupted

Of the ways in which a registration and a run can overlap, the plainest is that the run falls
between two requests of the registration.  All of it can then be carried out in one world.
-/

namespace ProgramQueue.Queue

open ProgramQueue.Task (follows_run)

variable {σ α : Type}

/-- What an operation asks for up to the first request of a kind. -/
def logUntil (host : Host σ) (stop : Request → Bool) : Operation α → Session σ → Log Surroundings
  | .done _, _ => []
  | .ask request next, session =>
      if stop request then []
      else
        let (answer, session) := host.respond request session
        ⟨request, answer⟩ :: logUntil host stop (next answer) session

theorem serves_logUntil (host : Host σ) (stop : Request → Bool) (operation : Operation α)
    (session : Session σ) : Serves session.store (logUntil host stop operation session)
      (runUntil host stop operation session).session.store := by
  induction operation generalizing session with
  | done value => exact .nil _
  | ask request next ih =>
      rw [logUntil, runUntil]
      split
      · exact .nil _
      · exact serves_respond host request session (ih _ _)

/-- An operation that has stopped goes on from there. -/
theorem follows_logUntil {host : Host σ} {stop : Request → Bool} {operation : Operation α}
    {session : Session σ} {later : Log Surroundings} {value : α}
    (h : (runUntil host stop operation session).left.Follows later value) :
    operation.Follows (logUntil host stop operation session ++ later) value := by
  induction operation generalizing session with
  | done value => exact h
  | ask request next ih =>
      rw [logUntil]
      rw [runUntil] at h
      split at h
      · rename_i hstop
        rw [if_pos hstop]
        exact h
      · rename_i hgoes
        rw [if_neg hgoes]
        exact .ask (ih _ h)

/-- A registration up to the first request of a kind, then a run, then what is left of the
registration. -/
structure Interruption (σ : Type) where
  contest : Contest
  host : Host σ
  stop : Request → Bool
  session : Session σ

namespace Interruption

variable (interruption : Interruption σ)

def registration : Operation (Except Error Push.Device) :=
  registerDevice interruption.contest.registrar interruption.contest.identity

def operation : Operation (Except Error (Option State)) :=
  interruption.contest.occasion.operation interruption.contest.runner

def begun : Progress σ (Except Error Push.Device) :=
  runUntil interruption.host interruption.stop interruption.registration interruption.session

def ran : Run Surroundings (Session σ) (Except Error (Option State)) :=
  interruption.operation.run interruption.host.world interruption.begun.session

def ended : Run Surroundings (Session σ) (Except Error Push.Device) :=
  interruption.begun.left.run interruption.host.world interruption.ran.state

def early : Log Surroundings :=
  logUntil interruption.host interruption.stop interruption.registration interruption.session

def meanwhile : Log Surroundings :=
  interruption.operation.log interruption.host.world interruption.begun.session

def late : Log Surroundings :=
  interruption.begun.left.log interruption.host.world interruption.ran.state

def whole : Log Surroundings :=
  interruption.early ++ (interruption.meanwhile ++ interruption.late)

theorem overlaps {answer : Option State} (hran : interruption.ran.value = .ok answer)
    (hended : interruption.ended.value.toBool = true)
    (hgranted : (interruption.whole.all fun entry => entry.request.grants entry.answer) = true) :
    Overlaps interruption.contest interruption.session.store
      (interruption.early ++ interruption.late) interruption.meanwhile interruption.whole answer
      interruption.ended.state.store where
  registers := by
    have hfollows : interruption.registration.Follows (interruption.early ++ interruption.late)
        interruption.ended.value := follows_logUntil (follows_run _ _ _)
    cases hdevice : interruption.ended.value with
    | error e =>
        rw [hdevice] at hended
        cases hended
    | ok device => exact ⟨device, hdevice ▸ hfollows⟩
  runs := by
    rw [← hran]
    exact follows_run _ _ _
  interleaved := .between _ _ _
  serves := by
    have hran : Serves interruption.begun.session.store interruption.meanwhile
      interruption.ran.state.store := serves_log _ _ _
    exact serves_append.2 ⟨_, serves_logUntil _ _ _ _,
      serves_append.2 ⟨_, hran, serves_log _ _ _⟩⟩
  granted := List.all_eq_true.1 hgranted

end Interruption

end ProgramQueue.Queue
