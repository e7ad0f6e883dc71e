import ProgramQueue.Proofs.Bystanders
import ProgramQueue.Proofs.Wakeups

/-!
# A crash between the two writes of a run

A run stores what the program has come to before anything is registered, with the events
and the time that were set before the run.  What is stored then is enough to go on from if
a time was set, or if the program waits for nothing that it did not wait for before.
-/

namespace ProgramQueue

/-- What was stored is enough to go on from: a time is set, or all that the program waits
for is watched by the push server and listed. -/
def Program.Resumable (program : Program) (state : State) : Prop :=
  state.nextRun ≠ never ∨ ∀ result ∈ program.plannedResults state.current,
    result.effect.isTriggerable = true ∧
      Push.eventId program.id result.callStackId ∈ state.pushEventIds

namespace Queue

open Push (eventId)
open ProgramQueue.Task (Within within_lift within_request within_bindExcept)

variable {σ α β : Type} {terms : Terms} {before after : Store} {log : Log Surroundings}
  {settings : Settings} {program : Program} {id : String} {item : Item}

/-! ## The first write -/

/-- The state that a request stores. -/
def Request.saved? : Request → Option State
  | .store (.save state) => some state
  | _ => none

/-- The first state that an operation stores, and the store right after that. -/
def firstSaved (host : Host σ) : Operation α → Session σ → Option (State × Store)
  | .done _, _ => none
  | .ask request next, session =>
      let (answer, session) := host.respond request session
      match request.saved? with
      | some state => some (state, session.store)
      | none => firstSaved host (next answer) session

def Request.SavesNothing (request : Request) : Prop := request.saved? = none

theorem savesNothing_of_remote {request : Request} (h : request.IsRemote) :
    request.SavesNothing := by
  cases h <;> rfl

/-- A part that stores nothing is passed over. -/
theorem firstSaved_bind {operation : Operation α} {next : α → Operation β}
    (h : operation.Within Request.SavesNothing) (host : Host σ) (session : Session σ) :
    firstSaved host (operation >>= next) session =
      firstSaved host (next (operation.run host.world session).value)
        (operation.run host.world session).state := by
  induction operation generalizing session with
  | done value => rfl
  | ask request rest ih =>
      obtain ⟨hnone, hrest⟩ := h
      change firstSaved host (.ask request fun answer => rest answer >>= next) session = _
      rw [firstSaved, show request.saved? = none from hnone]
      exact ih _ (hrest _) _

/-- What asks nothing of the store leaves it as it is. -/
theorem store_of_remote {operation : Operation α} (h : operation.Within Request.IsRemote)
    (host : Host σ) (session : Session σ) :
    (operation.run host.world session).state.store = session.store := by
  have hserves := serves_log host operation session
  refine (serves_others fun entry hentry own heq => ?_).1 hserves
  have hremote := h.follows (Task.follows_run _ _ _) entry hentry
  rw [heq] at hremote
  cases hremote

theorem firstSaved_lift {operation : Operation α} {next : α → Attempt β}
    (h : operation.Within Request.IsRemote) (host : Host σ) (session : Session σ) :
    firstSaved host (ExceptT.lift operation >>= next).run session =
      firstSaved host (next (operation.run host.world session).value).run
        (operation.run host.world session).state := by
  have hnothing : (ExceptT.lift operation : Attempt α).run.Within Request.SavesNothing :=
    within_lift (h.imp fun _ => savesNothing_of_remote)
  have hvalue : ((ExceptT.lift operation : Attempt α).run.run host.world session).value =
      .ok (operation.run host.world session).value := Task.value_bind _ _ _ _
  have hstate : ((ExceptT.lift operation : Attempt α).run.run host.world session).state =
      (operation.run host.world session).state := Task.state_bind _ _ _ _
  change firstSaved host ((ExceptT.lift operation : Attempt α).run >>= ExceptT.bindCont next)
    session = _
  rw [firstSaved_bind hnothing, hvalue, hstate]
  rfl

/-- A program that is stored is found, and that stores nothing. -/
theorem firstSaved_getExisting {next : Item → Attempt α}
    (hfound : before.items.find? id = some item) (hreadable : item.isReadable = true)
    (host : Host σ) (outer : σ) :
    firstSaved host (getExisting id >>= next).run ⟨before, outer⟩ =
      firstSaved host (next item.transcribed).run ⟨before, outer⟩ := by
  have hget : before.get id = .ok (some item.transcribed) := (Store.get_iff hfound).2 hreadable
  have hnothing : (getExisting id).run.Within Request.SavesNothing := by
    refine within_bindExcept (within_request rfl) fun found => ?_
    cases found <;> trivial
  have hvalue : ((getExisting id).run.run host.world ⟨before, outer⟩).value =
      .ok item.transcribed := by
    change (Task.run host.world (ExceptT.bindCont _ (before.get id)) ⟨before, outer⟩).value = _
    rw [hget]
    rfl
  have hstate : ((getExisting id).run.run host.world ⟨before, outer⟩).state = ⟨before, outer⟩ := by
    change (Task.run host.world (ExceptT.bindCont _ (before.get id)) ⟨before, outer⟩).state = _
    rw [hget]
    rfl
  change firstSaved host ((getExisting id).run >>= ExceptT.bindCont next) _ = _
  rw [firstSaved_bind hnothing, hvalue, hstate]
  rfl

/-- A run stores first what the program has come to. -/
theorem firstSaved_runHeld (hfound : before.items.find? id = some item)
    (hreadable : item.isReadable = true) (hopen : item.state.isDone = false)
    (settings : Settings) (fired : Option String) (host : Host σ) (outer : σ) :
    ∃ driving state, Drives settings id fired item.transcribed driving state ∧
      firstSaved host (runHeld settings id fired).run ⟨before, outer⟩ =
        some (state, (before.save state).2) := by
  have hnoted : (note (.step id fired)).Within Request.IsRemote := within_request (.note _)
  have hclock : clock.Within Request.IsRemote := remote_outside _
  have hread : ¬item.transcribed.state.isDone = true := by
    rw [Item.transcribed_state, State.isDone_transcribed, hopen]
    exact Bool.false_ne_true
  unfold runHeld
  rw [firstSaved_getExisting hfound hreadable, if_neg hread,
    firstSaved_lift hnoted, firstSaved_lift (remote_journaled _), firstSaved_lift hclock]
  generalize hsession : (Task.run host.world (note (.step id fired)) ⟨before, outer⟩).state = begun
  have hbegun : begun.store = before := by
    rw [← hsession]
    exact store_of_remote hnoted host _
  have hdriven := completes_run host (journaled (item.transcribed.program.driveJournaled
    settings.inlineCap settings.maxSteps (spendEvent fired item.transcribed.state))) begun
  obtain ⟨hmiddle, inner, hkept, hfollows⟩ := completes_journaled hdriven
  generalize Task.run host.world (journaled _) begun = driving at *
  have hsame := store_of_remote hclock host driving.state
  generalize Task.run host.world clock driving.state = reading at *
  refine ⟨_, { driving.value with lastRun := reading.value }, .intro hkept hfollows, ?_⟩
  change some (_, (reading.state.store.save _).2) = _
  rw [hsame, hmiddle, hbegun]

/-- The first write of a run puts the new effect beside the time and the events of before. -/
theorem firstSaved_puts (hfiled : before.Filed) (hfound : before.items.find? id = some item)
    (hreadable : item.isReadable = true) (hopen : item.state.isDone = false)
    (settings : Settings) (fired : Option String) (host : Host σ) (outer : σ) :
    ∃ driving state crashed, Drives settings id fired item.transcribed driving state ∧
      firstSaved host (runHeld settings id fired).run ⟨before, outer⟩ = some (state, crashed) ∧
      state.nextRun = item.state.nextRun ∧
      state.pushEventIds = (spendEvent fired item.state).pushEventIds ∧
      Store.Puts id { item with state := state } before crashed := by
  obtain ⟨driving, state, hdrives, hsaved⟩ :=
    firstSaved_runHeld hfound hreadable hopen settings fired host outer
  have hid : state.programId = id := hdrives.state.1.trans (hfiled id item hfound).state
  have hnext : state.nextRun = item.state.nextRun := by
    obtain ⟨-, hfollows⟩ := hdrives
    obtain ⟨-, effect, rfl⟩ := (Program.plansOn _ _).holds hfollows
    cases fired <;> rfl
  have hevents := hdrives.state.2
  rw [Item.transcribed_state, spendEvent_transcribed] at hevents
  refine ⟨driving, state, _, hdrives, hsaved, hnext, hevents, ?_⟩
  rcases before.save_cases state with ⟨other, hother, -, -, hputs⟩ | ⟨hnone, -⟩
  · rw [hid] at hother hputs
    obtain rfl := Option.some.inj (hfound.symm.trans hother)
    exact hputs
  · cases hreadable.symm.trans (hnone item (hid ▸ hfound))

/-! ## What the history of a program leaves -/

/-- A program that is not to be looked at again has no events listed but those that it
wants. -/
def Tidy (store : Store) : Prop :=
  ∀ id item, store.items.find? id = some item → item.isReadable = true →
    item.state.isDone = false → item.state.nextRun = never →
      ∀ event ∈ item.state.pushEventIds, event ∈ item.program.wantedIds item.state.current

theorem Tidy.puts (h : Tidy before) (hputs : Store.Puts id item before after)
    (hitem : item.isReadable = true → item.state.isDone = false → item.state.nextRun = never →
      ∀ event ∈ item.state.pushEventIds, event ∈ item.program.wantedIds item.state.current) :
    Tidy after := by
  intro other found hfound
  rw [hputs.items] at hfound
  split at hfound
  · cases hfound
    exact hitem
  · exact h other found hfound

theorem Tidy.same (h : Tidy before) (hsame : Store.Same before after) : Tidy after :=
  fun other found hfound => h other found ((hsame.items other).symm.trans hfound)

theorem Settles.tidy {state final : State} (h : Settles settings program state log final)
    (hopen : final.isDone = false) (hnever : final.nextRun = never) (hclock : AfterEpoch log) :
    final.pushEventIds = program.wantedIds final.current := by
  cases h with
  | finished hdone => cases hdone.symm.trans hopen
  | @missed now =>
      exact absurd hnever (State.ne_never_of_nonneg (hclock now List.mem_cons_self))
  | @refused now =>
      exact absurd hnever (State.ne_never_of_nonneg (hclock now List.mem_cons_self))
  | registered => rfl

theorem Ran.tidy {fired : Option String} {final : State} (htidy : Tidy before)
    (h : Ran settings id fired before log final after) (hclock : AfterEpoch log) : Tidy after := by
  cases h with
  | @intro _ item state _ driving settling answer _ _ _ _ hsettles hputs =>
      refine htidy.puts hputs fun hreadable hopen hnever => ?_
      rw [Item.settled_eq hreadable] at hopen hnever ⊢
      have hsettling : AfterEpoch settling := hclock.sublist fun _ hmem =>
        List.mem_append_right _ (List.mem_cons_of_mem _ (List.mem_append_left _ hmem))
      have hevents := hsettles.tidy hopen hnever hsettling
      intro event hevent
      exact hevents ▸ hevent

theorem Deed.tidy (htidy : Tidy before) (h : Deed terms id before log after)
    (hclock : AfterEpoch log) : Tidy after := by
  cases h with
  | insert _ _ _ hputs => exact htidy.puts hputs fun _ _ _ _ hevent => by cases hevent
  | run _ _ _ hran hsame =>
      exact (hran.tidy htidy (hclock.sublist fun _ => List.mem_append_left _)).same hsame
  | terminate hterminates =>
      obtain ⟨item, hdone, hputs⟩ := hterminates.puts
      exact htidy.puts hputs fun _ hopen => by cases hdone.symm.trans hopen
  | record _ _ _ _ _ hputs =>
      refine htidy.puts hputs fun _ _ _ _ hevent => ?_
      change _ ∈ Program.wantedIds _ (State.transcribed _).current
      rwa [State.current_transcribed, Program.wantedIds_transcribed]
  | remove _ _ _ hdrops =>
      intro other found hfound
      rw [hdrops.items] at hfound
      split at hfound
      · cases hfound
      · exact htidy other found hfound

theorem Moves.tidy (htidy : Tidy before) (h : Moves terms before log after)
    (hclock : AfterEpoch log) : Tidy after := by
  induction h with
  | nil => exact htidy
  | cons move _ ih =>
      have hfirst := hclock.sublist fun _ => List.mem_append_left _
      have hlater := hclock.sublist fun _ => List.mem_append_right _
      cases move with
      | quiet hquiet => exact ih (htidy.same hquiet.same) hlater
      | deed hdeed => exact ih (hdeed.tidy htidy hfirst) hlater

/-! ## Enough to go on from -/

theorem mem_spendEvent_iff {fired : Option String} {state : State} {event : String} :
    event ∈ (spendEvent fired state).pushEventIds ↔
      event ∈ state.pushEventIds ∧ fired ≠ some event := by
  cases fired with
  | none => simp [spendEvent]
  | some other =>
      refine List.mem_filter.trans (and_congr_right fun _ => ?_)
      rw [bne_iff_ne, Ne, Ne, Option.some.injEq, eq_comm]

/-- What is stored first is enough to go on from if a time was set before the run, or if all
that the program waits for was listed and did not fire. -/
theorem resumable_iff {fired : Option String} {state : State}
    (hnext : state.nextRun = item.state.nextRun)
    (hevents : state.pushEventIds = (spendEvent fired item.state).pushEventIds) :
    item.program.Resumable state ↔ item.state.nextRun ≠ never ∨
      ∀ result ∈ item.program.plannedResults state.current, result.effect.isTriggerable = true ∧
        eventId item.program.id result.callStackId ∈ item.state.pushEventIds ∧
        fired ≠ some (eventId item.program.id result.callStackId) := by
  unfold Program.Resumable
  rw [hnext, hevents]
  simp only [mem_spendEvent_iff]

/-- With no time set, what is watched and listed is what the program waited for before. -/
theorem listed_iff_awaited {last : Option Int64} {fired : Option String} {state : State}
    (halert : Alert last item.program item.state)
    (htidy : ∀ event ∈ item.state.pushEventIds,
      event ∈ item.program.wantedIds item.state.current)
    (hnever : item.state.nextRun = never) (hdrives : Drives settings id fired item log state)
    {result : ExecutionResult} (hresult : result ∈ item.program.plannedResults state.current) :
    (result.effect.isTriggerable = true ∧
        eventId item.program.id result.callStackId ∈ item.state.pushEventIds) ↔
      result ∈ item.program.plannedResults item.state.current := by
  obtain ⟨-, hfollows⟩ := hdrives
  have hplans := ((Program.plansOn _ _).holds hfollows).1
  rw [spendEvent_current] at hplans
  constructor
  · rintro ⟨-, hlisted⟩
    obtain ⟨entry, hentry, rfl⟩ := Program.mem_plannedResults.1 hresult
    rcases hplans.2 entry hentry with hbefore | ⟨-, hunstarted⟩
    · exact Program.mem_plannedResults.2 ⟨entry, hbefore, rfl⟩
    · -- an event is wanted only for a place that was started
      obtain ⟨place, heq, hstarted⟩ := mem_wantedIds (htidy _ hlisted)
      exact absurd (Push.eventId_injective heq ▸ hunstarted) hstarted
  · intro hbefore
    rcases halert.wakes with hnone | hwakes
    · rw [State.current, hnone, Option.getD_none, Program.plannedResults_init] at hbefore
      cases hbefore
    · rcases hwakes result hbefore with hwatched | ⟨hset, -⟩
      · exact hwatched
      · exact absurd hnever hset

/-- A program that was run but is not over, with no time set and no event listed, is not found
by anything that looks for work. -/
theorem stranded {store : Store} (hkeyed : store.Keyed)
    (hfound : store.items.find? id = some item) (hreadable : item.isReadable = true)
    (hbegun : item.state.effect ≠ none) (hnever : item.state.nextRun = never)
    (hevents : item.state.pushEventIds = []) {later : List Turn}
    (hsweeps : ∀ turn ∈ later, turn.command.sweeps = true) :
    (storeAfter later store).items.find? id = some item := by
  have hunheeded : item.IsUnheeded := by
    refine ⟨hreadable, fun event => ?_, fun now => ?_⟩
    · rw [hevents]
      exact Bool.or_true _
    · have heffect : item.state.effect.isNone = false := by
        rwa [Option.isNone_eq_false_iff, Option.isSome_iff_ne_none]
      simp [isDueItem, State.isDue, hnever, heffect]
  exact (history_passes (fun turn hturn => passesBy_sweep hunheeded (hsweeps turn hturn)) hkeyed
    hfound).1

/-- What a run stores first is enough to go on from if a time was set before the run, or if
all that the program waits for is watched, was listed before and did not fire: in a history,
if the program waited for it before.  Where nothing was set and nothing listed, as before the
first run, a program that is not over is not found again by anything that looks for work. -/
theorem saved_resumable_iff {store : Store} (hfiled : store.Filed)
    (hfound : store.items.find? id = some item) (hreadable : item.isReadable = true)
    (hopen : item.state.isDone = false) (settings : Settings) (fired : Option String)
    (host : Host σ) (outer : σ) :
    ∃ state crashed,
      firstSaved host (runHeld settings id fired).run ⟨store, outer⟩ = some (state, crashed) ∧
      Store.Puts id { item with state := state } store crashed ∧
      (item.program.Resumable state ↔ item.state.nextRun ≠ never ∨
        ∀ result ∈ item.program.plannedResults state.current,
          result.effect.isTriggerable = true ∧
          eventId item.program.id result.callStackId ∈ item.state.pushEventIds ∧
          fired ≠ some (eventId item.program.id result.callStackId)) ∧
      (∀ turns : List Turn, store = storeAfter turns .empty → AfterEpoch (logOf turns .empty) →
        (item.program.Resumable state ↔ item.state.nextRun ≠ never ∨
          ∀ result ∈ item.program.plannedResults state.current,
            result ∈ item.program.plannedResults item.state.current ∧
            fired ≠ some (eventId item.program.id result.callStackId))) ∧
      (({ item with state := state } : Item).isReadable = true → state.isDone = false →
        state.effect ≠ none → item.state.nextRun = never → item.state.pushEventIds = [] →
        ∀ later : List Turn, (∀ turn ∈ later, turn.command.sweeps = true) →
          (storeAfter later crashed).items.find? id = some { item with state := state }) := by
  obtain ⟨driving, state, crashed, hdrives, hsaved, hnext, hevents, hputs⟩ :=
    firstSaved_puts hfiled hfound hreadable hopen settings fired host outer
  have hiff := resumable_iff hnext hevents
  refine ⟨state, crashed, hsaved, hputs, hiff, ?_, ?_⟩
  · rintro turns rfl hclock
    have hempty : Awake id .empty ⟨false, none⟩ := ⟨rfl, fun item hitem => by cases hitem⟩
    have hawake := (moves_free turns .empty).awake .empty (.empty id) hclock hempty
    have halert := hawake.alert item hfound hreadable hopen
    have htidy : Tidy (storeAfter turns .empty) :=
      (moves_free turns .empty).tidy (fun _ _ hfound => by cases hfound) hclock
    rw [intact_storeAfter turns id item hfound] at hdrives
    rw [hiff]
    by_cases hnever : item.state.nextRun = never
    · have hevents := htidy id item hfound hreadable hopen hnever
      refine or_congr_right (forall₂_congr fun result hresult => ?_)
      rw [← and_assoc, listed_iff_awaited halert hevents hnever hdrives hresult]
    · exact iff_of_true (Or.inl hnever) (Or.inl hnever)
  · intro hreadable' hopen' hbegun hnever hnone later hsweeps
    obtain ⟨hprogram, hid, -⟩ := hfiled id item hfound
    have hkeyed := keyed_puts (keyed_of_filed hfiled) hputs hprogram (hdrives.state.1.trans hid)
    have hunlisted : state.pushEventIds = [] := by
      refine List.eq_nil_iff_forall_not_mem.2 fun event hevent => ?_
      rw [hevents, mem_spendEvent_iff, hnone] at hevent
      cases hevent.1
    exact stranded hkeyed hputs.self hreadable' hbegun (hnext.trans hnever) hunlisted hsweeps

/-- One payment. -/
def transfer : Program :=
  ⟨"transfer", .step (.broadcast ⟨"wallet", "bitcoin", [1]⟩) none, none⟩

def transferTurns : List Turn := [.granted 1000 9 (.schedule transfer)]

/-- The payment is waited for; should the next run crash, that goes on. -/
theorem transfer_resumable : ∃ item state crashed,
    Store.Filed (storeAfter transferTurns .empty) ∧
      (storeAfter transferTurns .empty).items.find? transfer.id = some item ∧
      item.isReadable = true ∧ item.state.isDone = false ∧ item.state.nextRun = never ∧
      AfterEpoch (logOf transferTurns .empty) ∧
      firstSaved (Host.granting 2000) (runHeld ⟨"queue", 9, 300, none, 0⟩ transfer.id none).run
        ⟨storeAfter transferTurns .empty, ()⟩ = some (state, crashed) ∧
      item.program.Resumable state := by
  have hitem : ((storeAfter transferTurns .empty).items.find? transfer.id).map Item.state =
      some ⟨transfer.id, some (.await (.txConfs "tx" "wallet" 1)), ["transfer:root"], 1000,
        never⟩ := by
    decide +kernel
  have hreadable : ((storeAfter transferTurns .empty).items.find? transfer.id).all
      Item.isReadable = true := by
    decide +kernel
  have hstate : (firstSaved (Host.granting 2000)
      (runHeld ⟨"queue", 9, 300, none, 0⟩ transfer.id none).run
      ⟨storeAfter transferTurns .empty, ()⟩).map Prod.fst =
        some ⟨transfer.id, some (.await (.txConfs "tx" "wallet" 1)), ["transfer:root"], 2000,
          never⟩ := by
    decide +kernel
  have hclock : AfterEpoch (logOf transferTurns .empty) := by
    intro now hmem
    obtain ⟨turn, hturn, store, hentry⟩ := mem_logOf hmem
    obtain rfl := List.mem_singleton.1 hturn
    exact granted_afterEpoch (by decide) _ _ store now hentry
  obtain ⟨item, hfound, hitem⟩ := Option.map_eq_some_iff.1 hitem
  rw [hfound] at hreadable
  have hopen : item.state.isDone = false := by
    rw [hitem]
    rfl
  have hfiled := filed_storeAfter transferTurns
  obtain ⟨state, crashed, hsaved, -, -, hiff, -⟩ := saved_resumable_iff hfiled hfound hreadable
    hopen ⟨"queue", 9, 300, none, 0⟩ none (Host.granting 2000) ()
  rw [hsaved] at hstate
  obtain rfl := Option.some.inj hstate
  refine ⟨item, _, crashed, hfiled, hfound, hreadable, hopen, by rw [hitem], hclock, hsaved, ?_⟩
  refine (hiff transferTurns rfl hclock).2 (Or.inr fun result hresult => ⟨?_, nofun⟩)
  rw [hitem]
  exact hresult

/-- The payment is made in the first run, which crashes; then nothing is listed and no time
is set, and whatever looks for work leaves the program as it is. -/
theorem transfer_stranded : ∃ state crashed,
    firstSaved (Host.granting 1000) (runHeld ⟨"queue", 9, 300, none, 0⟩ transfer.id none).run
        ⟨(Store.empty.insert transfer).2, ()⟩ = some (state, crashed) ∧
      state.isDone = false ∧ ¬transfer.Resumable state ∧
      ∀ later : List Turn, (∀ turn ∈ later, turn.command.sweeps = true) →
        (storeAfter later crashed).items.find? transfer.id = some ⟨transfer, state⟩ := by
  have hstate : (firstSaved (Host.granting 1000)
      (runHeld ⟨"queue", 9, 300, none, 0⟩ transfer.id none).run
      ⟨(Store.empty.insert transfer).2, ()⟩).map Prod.fst =
        some ⟨transfer.id, some (.await (.txConfs "tx" "wallet" 1)), [], 1000, never⟩ := by
    decide +kernel
  have hreadable : (Item.fresh transfer).isReadable = true := by decide +kernel
  have hfound : (Store.empty.insert transfer).2.items.find? transfer.id =
      some (Item.fresh transfer) := rfl
  have hfiled : (Store.empty.insert transfer).2.Filed := by
    rcases Store.empty.insert_cases transfer with ⟨-, -, -, hputs⟩ | ⟨-, hrefused⟩
    · exact Store.Filed.empty.puts hputs ⟨rfl, rfl, nofun⟩
    · rw [hrefused]
      exact .empty
  obtain ⟨driving, state, crashed, hdrives, hsaved, -, -, hputs⟩ := firstSaved_puts hfiled hfound
    hreadable rfl ⟨"queue", 9, 300, none, 0⟩ none (Host.granting 1000) ()
  rw [hsaved] at hstate
  obtain rfl := Option.some.inj hstate
  have hkeyed := keyed_puts (keyed_of_filed hfiled) hputs rfl rfl
  refine ⟨_, crashed, hsaved, rfl, ?_, fun later => stranded hkeyed hputs.self ?_ nofun rfl rfl⟩
  · rintro (hset | hlisted)
    · exact hset rfl
    · cases (hlisted _ List.mem_cons_self).2
  · decide +kernel

end Queue

end ProgramQueue
