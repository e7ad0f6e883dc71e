import ProgramQueue.Proofs.Deadlines
import ProgramQueue.Proofs.Resumption

/-!
# Where a program stays

A program that an advance leaves as it is waits for something, and each deadline that it
waits for lies after the time that was read when it was checked.  So it need not be looked
at as long as the clock reads that time.
-/

namespace ProgramQueue

open ProgramQueue.Task (follows_bindExcept follows_lift follows_request follows_pureExcept)

/-- A deadline that is checked and goes on being waited for has not come. -/
theorem Condition.deadline_ahead {site : Site} {deadline : Int64} {log : Log Journaled}
    (h : ((Condition.unixtime deadline).recheck site).Follows log (.await (.unixtime deadline))) :
    ∃ now, ⟨.ask .clock, now⟩ ∈ log ∧ now < deadline := by
  obtain ⟨inner, outer, result, rfl, hrelayed, hcheck, hnext⟩ := Condition.follows_recheck h
  obtain ⟨e, -, hclock⟩ | ⟨first, now, later, rfl, hclock, hlater⟩ := follows_bindExcept.1 hcheck
  · obtain ⟨now, heq, -⟩ := follows_lift.1 hclock
    cases heq
  obtain ⟨_, heq, hread⟩ := follows_lift.1 hclock
  cases heq
  obtain rfl := follows_request.1 hread
  obtain ⟨rfl, rfl⟩ := follows_pureExcept.1 hlater
  obtain ⟨_, hread, rfl⟩ := hrelayed.mem (List.mem_append_left _ List.mem_cons_self)
  refine ⟨now, List.mem_append_left _ hread, Int64.not_le.1 fun hcome => ?_⟩
  rw [decide_eq_true hcome] at hnext
  cases hnext

namespace Action

/-- The deadlines among some entries lie after times that were read. -/
def Ahead (log : Log Journaled) (entries : List (Path × Effect × Option Action)) : Prop :=
  ∀ entry ∈ entries, ∀ deadline, entry.2.1 = .await (.unixtime deadline) →
    ∃ now, ⟨.ask .clock, now⟩ ∈ log ∧ now < deadline

theorem Ahead.append {first later : Log Journaled}
    {entries others : List (Path × Effect × Option Action)} (hfirst : Ahead first entries)
    (hlater : Ahead later others) : Ahead (first ++ later) (entries ++ others) := by
  intro entry hentry deadline hdeadline
  rcases List.mem_append.1 hentry with hmem | hmem
  · obtain ⟨now, hnow, hlt⟩ := hfirst entry hmem deadline hdeadline
    exact ⟨now, List.mem_append_left _ hnow, hlt⟩
  · obtain ⟨now, hnow, hlt⟩ := hlater entry hmem deadline hdeadline
    exact ⟨now, List.mem_append_right _ hnow, hlt⟩

/-- What is not over and stays as it is waits for something, and its deadlines lie ahead. -/
def Stays (_site : Site) (action : Action) (effect : Effect) (log : Log Journaled)
    (next : Effect) : Prop :=
  next ≠ .init ∧ (next = effect → effect.isDone = false → ∀ place following,
    action.plan effect place following ≠ [] ∧ Ahead log (action.plan effect place following))

theorem Alongside.stays {site : Site} {index : Nat} {children : List Action}
    {effects nexts : List Effect} {log : Log Journaled}
    (h : Alongside (fun _ action effect log next => next = effect → effect.isDone = false →
      ∀ place following, action.plan effect place following ≠ [] ∧
        Ahead log (action.plan effect place following)) site index children effects log nexts)
    (hsame : nexts = effects) (place : Path) :
    Ahead log (planPar index children effects place) ∧
      (effects.all Effect.isDone = false → planPar index children effects place ≠ []) := by
  induction h with
  | nil =>
      constructor
      · rw [planPar]
        · exact List.forall_mem_nil _
        · simp
      · intro hopen
        cases hopen
  | @cons index child children effect next effects nexts log later first rest ih =>
      obtain ⟨rfl, hrest⟩ := List.cons.inj hsame
      obtain ⟨hahead, hwaits⟩ := ih hrest
      rw [planPar]
      cases hdone : next.isDone with
      | true =>
          obtain ⟨failure, snapshot, rfl⟩ := Effect.isDone_iff.1 hdone
          rw [plan_done]
          constructor
          · exact Ahead.append (List.forall_mem_nil _) hahead
          · intro hopen
            apply hwaits
            simpa [hdone] using hopen
      | false =>
          obtain ⟨hplanned, hfirst⟩ := first rfl hdone (place ++ [.par index]) none
          constructor
          · exact hfirst.append hahead
          · intro _ hnone
            exact hplanned (List.append_eq_nil_iff.1 hnone).1

theorem stays (inlineCap : Nat) : AdvanceCases inlineCap Stays := by
  apply unchanged inlineCap
  · intro site action failure snapshot hopen
    cases hopen
  · intro site step status condition log h _ place following
    rw [plan_await]
    refine ⟨List.cons_ne_nil _ _, fun entry hentry deadline hdeadline => ?_⟩
    rw [List.mem_singleton.1 hentry] at hdeadline
    obtain rfl := Effect.await.inj hdeadline
    exact Condition.deadline_ahead h
  · intro site children status index running child log hrunning hopen h _ place following
    rw [plan_running hrunning]
    exact h hopen _ _
  · intro site children status effects log hopen h _ place following
    obtain ⟨hahead, hwaits⟩ := h.stays rfl place
    rw [plan]
    exact ⟨hwaits hopen, hahead⟩

end Action

namespace Program

variable {program : Program} {inlineCap : Nat} {effect : Effect} {log : Log Journaled}

/-- A program that is not over and stays as it is has begun and waits for something, and
each of its deadlines lies after a time that was read. -/
theorem waits_of_unchanged
    (h : (program.advanceJournaled inlineCap effect).Follows log effect)
    (hopen : effect.isDone = false) :
    effect ≠ .init ∧ program.plannedResults effect ≠ [] ∧
      ∀ deadline, program.Awaits effect deadline →
        ∃ now, ⟨.ask .clock, now⟩ ∈ log ∧ now < deadline := by
  obtain ⟨rest, rfl, hadvance⟩ := follows_advance.1 h
  obtain ⟨hbegun, hstays⟩ := (Action.stays inlineCap).holds _ hadvance
  obtain ⟨hplanned, hahead⟩ := hstays rfl hopen [] none
  refine ⟨hbegun, mt List.map_eq_nil_iff.1 hplanned, ?_⟩
  rintro deadline ⟨result, hresult, hdeadline⟩
  obtain ⟨entry, hentry, rfl⟩ := mem_plannedResults.1 hresult
  obtain ⟨now, hnow, hlt⟩ := hahead entry hentry deadline hdeadline
  exact ⟨now, List.mem_cons_of_mem _ hnow, hlt⟩

end Program

end ProgramQueue
