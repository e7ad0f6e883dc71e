import ProgramQueue.Proofs.Plans

/-!
# Driving a program

A program that is driven makes one advance after the other.  What holds of doing
nothing, and of an advance and what follows it, holds of a whole drive.  Nothing but
the effect changes.
-/

namespace ProgramQueue

open ProgramQueue.Task (Follows follows_pure follows_bind follows_request)

namespace Program

/-- What has to be shown of a property of a program to have it of every drive. -/
structure DriveCases (inlineCap : Nat) (program : Program)
    (Run : Effect → Log Journaled → Effect → Prop) : Prop where
  /-- A drive that makes no advance. -/
  rest : ∀ effect, Run effect [] effect
  /-- An advance of what is not over, and the drive that goes on from there. -/
  advance : ∀ effect log next later final, effect.isDone = false →
    (program.action.advance inlineCap ⟨program.id, []⟩ effect).Follows log next →
    Run next later final →
    Run effect (⟨.note (.advance program.id), ()⟩ :: log ++ later) final

/-- A property that has the cases holds of every drive, which changes the effect only. -/
theorem DriveCases.holds {inlineCap : Nat} {program : Program}
    {Run : Effect → Log Journaled → Effect → Prop}
    (cases : DriveCases inlineCap program Run) {budget : Nat} {state final : State}
    {log : Log Journaled}
    (h : (program.driveJournaled inlineCap budget state).Follows log final) :
    Run state.current log final.current ∧ ∃ effect, final = { state with effect } := by
  induction budget generalizing state log with
  | zero =>
      obtain ⟨rfl, rfl⟩ := follows_pure.1 h
      exact ⟨cases.rest _, _, rfl⟩
  | succ budget ih =>
      unfold driveJournaled at h
      split at h
      · obtain ⟨rfl, rfl⟩ := follows_pure.1 h
        exact ⟨cases.rest _, _, rfl⟩
      · rename_i hopen
        have hopen : state.current.isDone = false := by simpa [State.isDone] using hopen
        obtain ⟨first, next, later, rfl, hfirst, hlater⟩ := follows_bind.1 h
        obtain ⟨written, _, log, rfl, hwritten, hadvance⟩ := follows_bind.1 hfirst
        obtain rfl := follows_request.1 hwritten
        have hrest : Run next later final.current ∧
            ∃ effect, final = { state with effect } := by
          split at hlater
          · obtain ⟨rfl, rfl⟩ := follows_pure.1 hlater
            exact ⟨cases.rest _, _, rfl⟩
          · exact ih hlater
        exact ⟨cases.advance _ _ _ _ _ hopen hadvance hrest.1, hrest.2⟩

/-! ## What is planned after a drive -/

/-- What is planned after a drive was planned before, or it had not been started;
then a deadline was set by the clock. -/
def PlansOn (program : Program) (effect : Effect) (log : Log Journaled)
    (final : Effect) : Prop :=
  (∀ place ∈ program.action.unstarted final, place ∈ program.action.unstarted effect) ∧
  ∀ entry ∈ program.action.plan final [] none,
    entry ∈ program.action.plan effect [] none ∨
      Action.Timed log entry.2.1 ∧ entry.1 ∈ program.action.unstarted effect

theorem plansOn (inlineCap : Nat) (program : Program) :
    DriveCases inlineCap program program.PlansOn where
  rest effect := ⟨fun _ h => h, fun _ h => Or.inl h⟩
  advance effect log next later final _ hadvance hrest := by
    obtain ⟨places, -, hleft, -⟩ := (Action.starts inlineCap).holds _ hadvance
    have hfewer : ∀ place ∈ program.action.unstarted next,
        place ∈ program.action.unstarted effect := fun place hplace =>
      hleft.subset (List.mem_append_right _ hplace)
    refine ⟨fun place hplace => hfewer place (hrest.1 place hplace), fun entry hentry => ?_⟩
    obtain hbefore | ⟨htimed, hplace⟩ := hrest.2 entry hentry
    · refine ((Action.plans inlineCap).holds _ hadvance [] none entry hbefore).imp_right ?_
      rintro ⟨htimed, below, hbelow, heq⟩
      rw [List.nil_append] at heq
      refine ⟨?_, heq ▸ hbelow⟩
      exact (htimed.right [⟨.note (.advance program.id), ()⟩]).left later
    · exact Or.inr ⟨htimed.right _, hfewer _ hplace⟩

end Program

end ProgramQueue
