import ProgramQueue.Proofs.Deadlines
import ProgramQueue.Proofs.Histories

/-!
# When the step budget runs out

A step may end before a program has got as far as it can.  Whether the program is due
then depends only on what it waits for elsewhere, and on whether that could be
registered.  A leaf that could be started next is not taken into account: it is noticed
if nothing at all is waited for, and otherwise it has to wait as well.
-/

namespace ProgramQueue

namespace Program

/-- A deadline that is waited for, and no other one comes before it. -/
def FirstDeadline (program : Program) (effect : Effect) (first : Int64) : Prop :=
  program.Awaits effect first ∧ ∀ deadline, program.Awaits effect deadline → first ≤ deadline

theorem FirstDeadline.unique {program : Program} {effect : Effect} {first other : Int64}
    (hfirst : program.FirstDeadline effect first) (hother : program.FirstDeadline effect other) :
    first = other :=
  Int64.le_antisymm (hfirst.2 other hother.1) (hother.2 first hfirst.1)

end Program

namespace State

theorem isDue_iff {state : State} (hopen : state.isDone = false) (now : Int64) :
    state.isDue now = true ↔ state.nextRun ≠ never ∧ state.nextRun ≤ now := by
  simp [isDue, hopen]

end State

namespace Queue

/-- A wallet was not found, or an update was not accepted. -/
def Refused (log : Log Surroundings) : Prop :=
  (∃ wallet e, ⟨.outside (.walletInfo wallet), .error e⟩ ∈ log) ∨
    ∃ update e, ⟨.push (.updateLogin update), .error e⟩ ∈ log

def Timeless (log : Log Surroundings) : Prop := ∀ entry ∈ log, entry.request ≠ .outside .clock

/-- The last time that is read in a log, and what comes after it. -/
def ReadLast (log : Log Surroundings) (now : Int64) (later : Log Surroundings) : Prop :=
  (∃ earlier, log = earlier ++ ⟨.outside .clock, now⟩ :: later) ∧ Timeless later

/-- What makes a program due when a step is over: something was refused, nothing is waited
for, or the first deadline has come. -/
def Noticed (program : Program) (effect : Effect) (now : Int64) (later : Log Surroundings) :
    Prop :=
  (Refused later ∨ program.plannedResults effect = []) ∧ now ≠ never ∨
    ¬Refused later ∧ ∃ first, program.FirstDeadline effect first ∧ first ≠ never ∧ first ≤ now

variable {settings : Settings} {program : Program} {state final : State} {id : String}
  {log first later : Log Surroundings} {before after : Store} {now : Int64}

/-! ## Logs -/

theorem refused_append : Refused (first ++ later) ↔ Refused first ∨ Refused later := by
  simp only [Refused, List.mem_append, exists_or]
  exact or_or_or_comm

/-- Requests to the store and to the locks of the process, with which an operation ends. -/
def Closing (log : Log Surroundings) : Prop :=
  ∀ entry ∈ log, (∃ own, entry.request = .store own) ∨ ∃ id, entry.request = .unlock id

theorem Closing.timeless (h : Closing log) : Timeless log := by
  intro entry hentry hclock
  obtain ⟨own, heq⟩ | ⟨id, heq⟩ := h entry hentry <;> cases heq.symm.trans hclock

theorem Closing.not_refused (h : Closing log) : ¬Refused log := by
  rintro (⟨wallet, e, hmem⟩ | ⟨update, e, hmem⟩) <;>
    obtain ⟨own, heq⟩ | ⟨id, heq⟩ := h _ hmem <;> cases heq

theorem Timeless.append (hfirst : Timeless first) (hlater : Timeless later) :
    Timeless (first ++ later) := fun entry hentry =>
  (List.mem_append.1 hentry).elim (hfirst entry) (hlater entry)

/-- The last time that is read decides whether a program is due. -/
def Judges (program : Program) (state : State) (now : Int64) (log : Log Surroundings) : Prop :=
  ∃ later, ReadLast log now later ∧
    (state.isDue now = true ↔ Noticed program state.current now later)

theorem Judges.preceded (h : Judges program state now log) (first : Log Surroundings) :
    Judges program state now (first ++ log) := by
  obtain ⟨later, ⟨⟨earlier, rfl⟩, htimeless⟩, hdue⟩ := h
  exact ⟨later, ⟨⟨first ++ earlier, (List.append_assoc ..).symm⟩, htimeless⟩, hdue⟩

theorem Judges.followed (h : Judges program state now log) {closing : Log Surroundings}
    (hclosing : Closing closing) : Judges program state now (log ++ closing) := by
  obtain ⟨later, ⟨⟨earlier, rfl⟩, htimeless⟩, hdue⟩ := h
  refine ⟨later ++ closing, ⟨⟨earlier, by simp⟩, htimeless.append hclosing.timeless⟩, ?_⟩
  rw [hdue, Noticed, Noticed, refused_append, or_iff_left hclosing.not_refused]

/-! ## Settling -/

theorem asked_timeless {lookups : Log Outside} {asked : Log Surroundings}
    (h : Asked lookups asked)
    (hwallets : ∀ entry ∈ lookups, ∃ wallet, entry.request = .walletInfo wallet) :
    Timeless asked := by
  intro entry hentry hclock
  obtain ⟨own, hown, rfl⟩ := mem_asked h hentry
  obtain ⟨wallet, hwallet⟩ := hwallets own hown
  cases (congrArg Request.outside hwallet).symm.trans hclock

theorem found_not_refused {lookups : Log Outside} {asked : Log Surroundings}
    (h : Asked lookups asked) (hfound : Push.Found lookups) : ¬Refused asked := by
  rintro (⟨wallet, e, hmem⟩ | ⟨update, e, hmem⟩)
  · obtain ⟨own, hown, heq⟩ := mem_asked h hmem
    obtain ⟨_, _, rfl⟩ := hfound own hown
    cases heq
  · obtain ⟨own, -, heq⟩ := mem_asked h hmem
    cases heq

theorem missed_refused {lookups : Log Outside} {asked : Log Surroundings}
    {e : CollaboratorError} (h : Asked lookups asked) (hmissed : Push.Missed lookups e) :
    Refused asked := by
  obtain ⟨found, wallet, -, rfl⟩ := hmissed
  obtain ⟨given, hgiven, rfl⟩ := h.mem (List.mem_append_right _ List.mem_cons_self)
  exact Or.inl ⟨wallet, e, hgiven⟩

/-- A program that could not be registered is due at once. -/
theorem noticed_of_refused (hopen : state.isDone = false) (hrefused : Refused later) :
    ({ state with nextRun := now } : State).isDue now = true ↔
      Noticed program state.current now later := by
  have hdue : ({ state with nextRun := now } : State).isDue now = true ↔ now ≠ never := by
    rw [State.isDue_iff (by exact hopen)]
    exact and_iff_left (Int64.le_refl now)
  rw [hdue, Noticed]
  simp [hrefused]

/-- A program that was registered is due if it waits for nothing, or for a deadline that
has come. -/
theorem noticed_of_registered (hopen : state.isDone = false) (haccepted : ¬Refused later)
    (ids : List String) :
    ({ state with
        pushEventIds := ids
        nextRun := nextRunTime now (program.plannedResults state.current) } : State).isDue now =
        true ↔
      Noticed program state.current now later := by
  rw [State.isDue_iff (by exact hopen), Noticed]
  dsimp only
  obtain hfirst | ⟨hnone, hnext⟩ := nextRunTime_cases now program state.current
  · have hwaits : program.plannedResults state.current ≠ [] := by
      obtain ⟨⟨result, hresult, -⟩, -⟩ := hfirst
      exact List.ne_nil_of_mem hresult
    constructor
    · rintro ⟨hset, hle⟩
      exact Or.inr ⟨haccepted, _, hfirst, hset, hle⟩
    · rintro (⟨hrefused | hnothing, -⟩ | ⟨-, first, hother, hset, hle⟩)
      · exact absurd hrefused haccepted
      · exact absurd hnothing hwaits
      · obtain rfl := hother.unique hfirst
        exact ⟨hset, hle⟩
  · -- no deadline is waited for, so all depends on whether anything else is
    have hdeadline : ¬∃ first, program.FirstDeadline state.current first ∧ first ≠ never ∧
        first ≤ now := fun ⟨first, hfirst, _⟩ => hnone first hfirst.1
    rw [hnext]
    by_cases hnothing : program.plannedResults state.current = []
    · simp [hnothing, hdeadline]
    · simp [hnothing, hdeadline, haccepted]

theorem Settles.judges (h : Settles settings program state log final)
    (hopen : final.isDone = false) : ∃ now, Judges program final now log := by
  cases h with
  | finished hdone => cases hdone.symm.trans hopen
  | @missed now _ asked _ hopen hasked hmissed =>
      have htimeless := asked_timeless hasked fun _ => hmissed.wallet
      exact ⟨now, asked, ⟨⟨[], rfl⟩, htimeless⟩,
        noticed_of_refused hopen (missed_refused hasked hmissed)⟩
  | @refused now _ asked _ e hopen hasked hfound =>
      have htimeless := asked_timeless hasked fun _ => hfound.wallet
      refine ⟨now, _, ⟨⟨[], rfl⟩, htimeless.append ?_⟩, noticed_of_refused hopen ?_⟩
      · intro entry hentry hclock
        rw [List.mem_singleton.1 hentry] at hclock
        cases hclock
      · exact refused_append.2 (Or.inr (Or.inr ⟨_, e, List.mem_cons_self⟩))
  | @registered now _ asked told _ hopen hasked hfound _ htold =>
      have htimeless := asked_timeless hasked fun _ => hfound.wallet
      have htelling : Timeless told ∧ ¬Refused told := by
        rw [htold]
        split <;> simp [Timeless, Refused]
      refine ⟨now, _, ⟨⟨[], rfl⟩, htimeless.append htelling.1⟩,
        noticed_of_registered hopen ?_ _⟩
      rw [refused_append, not_or]
      exact ⟨found_not_refused hasked hfound, htelling.2⟩

/-! ## Steps -/

theorem Ran.judges {fired : Option String} (h : Ran settings id fired before log final after)
    (hopen : final.isDone = false) :
    ∃ item now, after.items.find? id = some item ∧ Judges item.program final now log := by
  cases h with
  | @intro _ item state _ driving settling answer _ _ _ _ hsettles hputs =>
      obtain ⟨now, hjudges⟩ := hsettles.judges hopen
      have hclosing : Closing [⟨.store (.save final), answer⟩] := fun entry hentry =>
        Or.inl ⟨.save final, by rw [List.mem_singleton.1 hentry]⟩
      refine ⟨_, now, hputs.self, ?_⟩
      rw [item.settled_program]
      exact ((hjudges.followed hclosing).preceded [_]).preceded driving

/-- A run that answers with an unfinished program has stored it, and the last time that
was read decides whether it is due. -/
theorem heldRun_judges {fired : Option String} (hfiled : before.Filed)
    (h : Completes (holding settings id (runHeld settings id fired).run) before log (.ok state)
      after) (hopen : state.isDone = false) :
    ∃ item now, after.items.find? state.programId = some item ∧ item.state = state ∧
      Judges item.program state now log := by
  obtain ⟨-, e, heq⟩ | ⟨opening, held, began, ended, rfl, hopening, hheld, hsame⟩ :=
    holding_cases h
  · cases heq
  have hbegan := hfiled.same hopening.same
  obtain ⟨-, hdone⟩ | ⟨quiet, running, final, rfl, -, hran, hanswer⟩ :=
    runHeld_cases hbegan hheld
  · cases (hdone state rfl).symm.trans hopen
  obtain ⟨rfl, item, hstored, hstate⟩ := hanswer state rfl
  obtain ⟨other, now, hother, hjudges⟩ := hran.judges hopen
  obtain rfl := Option.some.inj (hstored.symm.trans hother)
  have hid : state.programId = id := hstate ▸ (hran.filed hbegan id item hstored).state
  have hclosing : Closing [⟨.store (.release id settings.owner), ()⟩, ⟨.unlock id, ()⟩] := by
    simp [Closing]
  refine ⟨item, now, ?_, hstate, ?_⟩
  · rw [hid, hsame.items, hstored]
  · rw [← List.append_assoc, ← List.append_assoc]
    exact (hjudges.preceded (opening ++ quiet)).followed hclosing

section Hosts

variable {σ : Type} {host : Host σ} {session ended : Session σ}

/-- An operation that runs one program and answers with its state. -/
inductive Steps (host : Host σ) (settings : Settings) (session : Session σ) :
    Log Surroundings → State → Session σ → Prop
  | run (id : String) {state : State}
      (h : ((Queue.run settings id).run host.world session).value = .ok state) :
      Steps host settings session ((Queue.run settings id).log host.world session) state
        ((Queue.run settings id).run host.world session).state
  | schedule (program : Program) {state : State}
      (h : ((Queue.schedule settings program).run host.world session).value = .ok state) :
      Steps host settings session ((Queue.schedule settings program).log host.world session)
        state ((Queue.schedule settings program).run host.world session).state
  | fired (event : String) {state : State}
      (h : ((onTriggerFired settings event).run host.world session).value = .ok (some state)) :
      Steps host settings session ((onTriggerFired settings event).log host.world session)
        state ((onTriggerFired settings event).run host.world session).state

theorem schedule_judges (hfiled : before.Filed)
    (h : Completes (Queue.schedule settings program) before log (.ok state) after)
    (hopen : state.isDone = false) :
    ∃ item now, after.items.find? state.programId = some item ∧ item.state = state ∧
      Judges item.program state now log := by
  obtain ⟨_, answer, middle, _, rfl, hinsert, hrun⟩ := completes_bind.1 h
  have hmoves : Moves .free before _ middle := made_insert program _ _ _ _ hfiled hinsert
  cases answer with
  | error e =>
      obtain ⟨-, heq, -⟩ := completes_pure.1 hrun
      cases heq
  | ok item =>
      obtain ⟨item, now, hfound, hstate, hjudges⟩ :=
        heldRun_judges (hmoves.filed hfiled) hrun hopen
      exact ⟨item, now, hfound, hstate, hjudges.preceded _⟩

theorem onTriggerFired_judges {event : String} (hfiled : before.Filed)
    (h : Completes (onTriggerFired settings event) before log (.ok (some state)) after)
    (hopen : state.isDone = false) :
    ∃ item now, after.items.find? state.programId = some item ∧ item.state = state ∧
      Judges item.program state now log := by
  unfold onTriggerFired at h
  cases hprogram : Push.programIdOf? event with
  | none =>
      rw [hprogram] at h
      obtain ⟨-, heq, -⟩ := completes_pure.1 h
      cases heq
  | some id =>
      rw [hprogram] at h
      obtain ⟨_, answer, middle, _, rfl, hget, hrest⟩ := completes_bind.1 h
      obtain ⟨-, hsame⟩ := completes_kept rfl hget
      match answer with
      | .error e =>
          obtain ⟨-, heq, -⟩ := completes_pure.1 hrest
          cases heq
      | .ok none =>
          obtain ⟨-, heq, -⟩ := completes_pure.1 hrest
          cases heq
      | .ok (some item) =>
          dsimp only at hrest
          split at hrest
          · obtain ⟨-, heq, -⟩ := completes_pure.1 hrest
            cases heq
          · obtain ⟨_, result, _, _, rfl, hheld, hlast⟩ := completes_bind.1 hrest
            split at hlast
            · obtain ⟨rfl, heq, rfl⟩ := completes_pure.1 hlast
              cases heq
              obtain ⟨item, now, hfound, hstate, hjudges⟩ :=
                heldRun_judges (hfiled.same hsame) hheld hopen
              refine ⟨item, now, hfound, hstate, ?_⟩
              rw [List.append_nil]
              exact hjudges.preceded _
            all_goals
              obtain ⟨-, heq, -⟩ := completes_pure.1 hlast
              cases heq

theorem Steps.judges (hfiled : session.store.Filed)
    (h : Steps host settings session log state ended) (hopen : state.isDone = false) :
    ∃ item now, ended.store.items.find? state.programId = some item ∧ item.state = state ∧
      Judges item.program state now log := by
  cases h with
  | run id h =>
      have hrun := completes_run host (Queue.run settings id) session
      rw [h] at hrun
      exact heldRun_judges hfiled hrun hopen
  | schedule program h =>
      have hrun := completes_run host (Queue.schedule settings program) session
      rw [h] at hrun
      exact schedule_judges hfiled hrun hopen
  | fired event h =>
      have hrun := completes_run host (onTriggerFired settings event) session
      rw [h] at hrun
      exact onTriggerFired_judges hfiled hrun hopen

/-- One more advance would change the effect of a program, in the world as it was left. -/
def GoesOn (host : Host σ) (settings : Settings) (session : Session σ) (item : Item) : Prop :=
  ((item.program.advance settings.inlineCap item.state.current).run host.outside
    session.outer).value ≠ item.state.current

/-- After a step an unfinished program is due exactly if something was refused, nothing
is waited for, or a deadline has come.  So whether work that is left is noticed depends
on nothing else. -/
theorem work_noticed_iff (hfiled : session.store.Filed)
    (h : Steps host settings session log state ended) (hopen : state.isDone = false) :
    ∃ item now later, ended.store.items.find? state.programId = some item ∧
      item.state = state ∧ ReadLast log now later ∧
      (state.isDue now = true ↔ Noticed item.program state.current now later) ∧
      ((GoesOn host settings ended item → state.isDue now = true) ↔
        (GoesOn host settings ended item → Noticed item.program state.current now later)) := by
  obtain ⟨item, now, hfound, hstate, later, hread, hdue⟩ := h.judges hfiled hopen
  exact ⟨item, now, later, hfound, hstate, hread, hdue, imp_congr_right fun _ => hdue⟩

end Hosts

/-! ## A program that is noticed, and one that is not -/

/-- One advance in each run. -/
def singly : Settings := ⟨"queue", 1, 300, none, 0⟩

/-- What is left of a world in which all goes well when a program has been scheduled. -/
def scheduled (program : Program) : Session Unit :=
  ((schedule singly program).run (Host.granting 1000000).world ⟨.empty, ()⟩).state

def scheduledLog (program : Program) : Log Surroundings :=
  (schedule singly program).log (Host.granting 1000000).world ⟨.empty, ()⟩

/-- The first message was shown. -/
def begun : State := ⟨"messages", some (.seq 1 .init), [], 1000000, 1000000⟩

/-- The second message is left, nothing is waited for, and the program is due. -/
theorem messages_noticed : begun.isDone = false ∧ begun.isDue 1000000 = true ∧
    Steps (Host.granting 1000000) singly ⟨.empty, ()⟩ (scheduledLog messages) begun
      (scheduled messages) ∧
    ∃ item now later, (scheduled messages).store.items.find? begun.programId = some item ∧
      item.state = begun ∧ ReadLast (scheduledLog messages) now later ∧
      (begun.isDue now = true ↔ Noticed item.program begun.current now later) ∧
      ((GoesOn (Host.granting 1000000) singly (scheduled messages) item →
          begun.isDue now = true) ↔
        (GoesOn (Host.granting 1000000) singly (scheduled messages) item →
          Noticed item.program begun.current now later)) := by
  have hsteps : Steps (Host.granting 1000000) singly ⟨.empty, ()⟩ (scheduledLog messages)
      begun (scheduled messages) := .schedule messages rfl
  exact ⟨rfl, rfl, hsteps, work_noticed_iff .empty hsteps rfl⟩

/-- A payment, and two messages beside it. -/
def fork : Program :=
  ⟨"fork", .par [.step (.broadcast ⟨"wallet", "bitcoin", [1]⟩) none,
    .seq [.step (.toast "first") none, .step (.toast "second") none] none] none, none⟩

/-- The payment is waited for, and the first message was shown. -/
def forked : State :=
  ⟨"fork", some (.par [.await (.txConfs "tx" "wallet" 1), .seq 1 .init]), ["fork:par_0"],
    1000000, never⟩

/-- The second message is left and could be shown, but the program is not due, then or
ever: it is looked at only when the payment has gone through. -/
theorem fork_unnoticed : 1 ≤ singly.maxSteps ∧ forked.isDone = false ∧
    Steps (Host.granting 1000000) singly ⟨.empty, ()⟩ (scheduledLog fork) forked
      (scheduled fork) ∧
    (scheduled fork).store.items.find? forked.programId = some ⟨fork, forked⟩ ∧
    GoesOn (Host.granting 1000000) singly (scheduled fork) ⟨fork, forked⟩ ∧
    (∃ later, ReadLast (scheduledLog fork) 1000000 later) ∧
    ∀ now, forked.isDue now = false := by
  have hsteps : Steps (Host.granting 1000000) singly ⟨.empty, ()⟩ (scheduledLog fork) forked
      (scheduled fork) := .schedule fork rfl
  refine ⟨Nat.le_refl 1, rfl, hsteps, rfl, ?_, ?_, fun now => rfl⟩
  · unfold GoesOn
    decide +kernel
  · obtain ⟨item, now, -, -, later, ⟨⟨earlier, hlog⟩, htimeless⟩, -⟩ := hsteps.judges .empty rfl
    have hclock : (⟨.outside .clock, now⟩ : Answered Surroundings) ∈ scheduledLog fork :=
      hlog ▸ List.mem_append_right _ List.mem_cons_self
    obtain ⟨_, hnow⟩ := Task.answer_of_mem_log hclock
    obtain rfl : now = 1000000 := hnow
    exact ⟨later, ⟨earlier, hlog⟩, htimeless⟩

end Queue

end ProgramQueue
