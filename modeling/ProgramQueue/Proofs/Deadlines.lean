import ProgramQueue.Proofs.Runs

/-!
# When a program is looked at again

A program that waits for deadlines is looked at when the first of them has come; one
that waits for nothing but events is not looked at, and one that waits for nothing is
looked at once more.
-/

namespace ProgramQueue

namespace Step

/-- A deadline that is counted from a time after the epoch lies after the epoch. -/
theorem addMillis_nonneg {time : Int64} (h : 0 ≤ time) (ms : UInt64) : 0 ≤ addMillis time ms := by
  have hzero : (0 : Int64).toInt = 0 := rfl
  rw [Int64.le_iff_toInt_le, hzero] at h ⊢
  have hsmall : Int64.maxValue.toInt < 2 ^ 63 := by decide
  have hlarge : 0 ≤ Int64.maxValue.toInt := by decide
  unfold addMillis
  rw [Int64.toInt_ofInt_of_le (by omega) (by omega)]
  omega

end Step

namespace State

variable {state : State} {now : Int64}

/-- A time after the epoch is some time. -/
theorem ne_never_of_nonneg (h : 0 ≤ now) : now ≠ never := by
  rintro rfl
  exact absurd h (by decide)

/-- An unfinished program is due when its time has come. -/
theorem isDue_of_le (hopen : state.isDone = false) (hset : state.nextRun ≠ never)
    (hle : state.nextRun ≤ now) : state.isDue now = true := by
  simp [isDue, hopen, hset, hle]

end State

namespace Program

variable {program : Program} {effect : Effect}

theorem awaits_of_mem {result : ExecutionResult} (h : result ∈ program.plannedResults effect) :
    ∃ condition, result.effect = .await condition := by
  obtain ⟨entry, hentry, rfl⟩ := mem_plannedResults.1 h
  exact (Action.isEntry_of_mem _ hentry).awaits

/-- The program waits for a deadline. -/
def Awaits (program : Program) (effect : Effect) (deadline : Int64) : Prop :=
  ∃ result ∈ program.plannedResults effect, result.effect = .await (.unixtime deadline)

end Program

namespace Queue

variable {program : Program} {effect : Effect}

/-- The times at which local conditions are looked at are the deadlines. -/
theorem mem_localTimes (now : Int64) {time : Int64} :
    time ∈ ((program.plannedResults effect).filter (!·.effect.isTriggerable)).map
        (fun result => localCheckTime now result.effect) ↔
      program.Awaits effect time := by
  simp only [List.mem_map, List.mem_filter, Bool.not_eq_true']
  constructor
  · rintro ⟨result, ⟨hresult, hlocal⟩, rfl⟩
    obtain ⟨condition, hcondition⟩ := Program.awaits_of_mem hresult
    refine ⟨result, hresult, ?_⟩
    rw [hcondition] at hlocal ⊢
    cases condition <;> first | rfl | cases hlocal
  · rintro ⟨result, hresult, hdeadline⟩
    exact ⟨result, ⟨hresult, by rw [hdeadline]; rfl⟩, by rw [hdeadline]; rfl⟩

/-- The next run is at the first deadline; without a deadline there is none if anything
is waited for, and otherwise it is now. -/
theorem nextRunTime_cases (now : Int64) (program : Program) (effect : Effect) :
    (program.Awaits effect (nextRunTime now (program.plannedResults effect)) ∧
        ∀ deadline, program.Awaits effect deadline →
          nextRunTime now (program.plannedResults effect) ≤ deadline) ∨
      (∀ deadline, ¬program.Awaits effect deadline) ∧
        nextRunTime now (program.plannedResults effect) =
          if program.plannedResults effect = [] then now else never := by
  unfold nextRunTime
  dsimp only
  split
  · rename_i first hfirst
    obtain ⟨hmem, hleast⟩ := List.min?_eq_some_iff.1 hfirst
    refine Or.inl ⟨(mem_localTimes now).1 hmem, fun deadline h => ?_⟩
    exact hleast _ ((mem_localTimes now).2 h)
  · rename_i hnone
    rw [List.min?_eq_none_iff] at hnone
    have hdeadlines : ∀ deadline, ¬program.Awaits effect deadline := fun deadline h => by
      have htime := (mem_localTimes now).2 h
      rw [hnone] at htime
      cases htime
    refine Or.inr ⟨hdeadlines, ?_⟩
    cases hplanned : program.plannedResults effect with
    | nil => rfl
    | cons result rest =>
        have hresult : result ∈ program.plannedResults effect := by simp [hplanned]
        obtain ⟨condition, hcondition⟩ := Program.awaits_of_mem hresult
        -- without a deadline the first condition is one that the server can watch
        rw [if_pos, if_neg nofun]
        rw [List.any_cons, hcondition]
        cases condition with
        | unixtime deadline => exact absurd ⟨result, hresult, hcondition⟩ (hdeadlines deadline)
        | _ => rfl

end Queue

end ProgramQueue
