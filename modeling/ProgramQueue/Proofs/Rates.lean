import ProgramQueue.Proofs.Drives
import ProgramQueue.Proofs.Transcriptions

/-!
# No step waits for a rate

What a step starts waits for a balance, a transaction or a deadline.  So if an effect
comes back from its text as it was, all that a program comes to from there does.
-/

namespace ProgramQueue

open ProgramQueue.Task (Follows)

namespace Effect

variable {count index : Nat} {next : Effect} {nexts : List Effect}

theorem transcribed_afterChild (h : next.transcribed = next) :
    (afterChild count index next).transcribed = afterChild count index next := by
  cases hdone : next.isDone with
  | false => rw [afterChild_pending hdone, transcribed_seq, h]
  | true =>
      obtain ⟨failure, snapshot, rfl⟩ := isDone_iff.1 hdone
      cases failure with
      | some failure => exact h
      | none =>
          rw [afterChild_completed]
          split <;> rfl

theorem transcribed_afterChildren (h : ∀ next ∈ nexts, next.transcribed = next) :
    (afterChildren nexts).transcribed = afterChildren nexts := by
  have hnexts := map_transcribed_eq_self.2 h
  obtain ⟨failure, -, heq⟩ | ⟨-, -, heq⟩ | ⟨-, -, heq⟩ := afterChildren_cases nexts
  · rw [heq, transcribed_done, Option.map_some, hnexts]
  · rw [heq]
    rfl
  · rw [heq, transcribed_par, hnexts]

end Effect

namespace Step

variable {inlineCap : Nat} {step : Step} {site : Site} {next : Effect}

theorem Yields.transcribed {log : Log Outside} (h : Yields log next) :
    next.transcribed = next := by
  cases h <;> rfl

theorem transcribed_execute {log : Log Journaled}
    (h : (step.execute inlineCap site).Follows log next) : next.transcribed = next := by
  obtain ⟨inner, outer, result, -, -, hstart, rfl⟩ := follows_execute h
  cases result with
  | error e => rfl
  | ok effect => exact (start_yields hstart).transcribed

end Step

namespace Action

/-- What holds of all effects of parallel children is passed on to what they come to. -/
theorem Alongside.forall_mem {P : Effect → Prop} {site : Site} {index : Nat}
    {children : List Action} {effects nexts : List Effect} {log : Log Journaled}
    (h : Alongside (fun _ _ effect _ next => P effect → P next) site index children effects log
      nexts) (heffects : ∀ effect ∈ effects, P effect) : ∀ next ∈ nexts, P next := by
  induction h with
  | nil => exact heffects
  | cons first rest ih =>
      rw [List.forall_mem_cons] at heffects ⊢
      exact ⟨first heffects.1, ih heffects.2⟩

theorem transcribed_opened (action : Action) : action.opened.transcribed = action.opened := by
  cases action with
  | seq => rfl
  | par =>
      rw [opened, Effect.transcribed_par, List.map_map]
      rfl
  | step => rfl

/-- No advance brings in a rate. -/
theorem rateless (inlineCap : Nat) :
    AdvanceCases inlineCap fun _ _ effect _ next =>
      effect.transcribed = effect → next.transcribed = next where
  ended site action failure snapshot := id
  misfit site action effect misfit _ := by cases misfit <;> rfl
  empty site action effect _ _ := rfl
  opens site action log next h _ := h (transcribed_opened action)
  execute site step status log next h _ := Step.transcribed_execute h
  recheck site step status condition log next h hbefore := by
    obtain ⟨inner, outer, result, -, -, -, rfl⟩ := Condition.follows_recheck h
    obtain ⟨failure, heq⟩ | heq := Effect.ofCheck_cases (.await condition) result
    · rw [heq]
      rfl
    · rwa [heq]
  seq site children status index running child log next _ h hbefore :=
    Effect.transcribed_afterChild (h (Effect.seq.inj hbefore).2)
  par site children status effects log nexts h hbefore := by
    rw [Effect.transcribed_par, Effect.par.injEq, Effect.map_transcribed_eq_self] at hbefore
    exact Effect.transcribed_afterChildren (h.forall_mem hbefore)

end Action

theorem Program.rateless (inlineCap : Nat) (program : Program) :
    DriveCases inlineCap program fun effect _ final =>
      effect.transcribed = effect → final.transcribed = final where
  rest effect h := h
  advance effect log next later final _ hadvance hrest hbefore :=
    hrest ((Action.rateless inlineCap).holds _ hadvance hbefore)

end ProgramQueue
