import ProgramQueue.Proofs.Interests
import ProgramQueue.Proofs.Operations
import ProgramQueue.Proofs.Rates
import ProgramQueue.Proofs.Stores

/-!
# One run of a program

A run that does anything drives the program, stores what came of it, settles it with
the push server and stores that too.  Here is said, once, all that a run and a
termination can do; everything that is kept by them is derived from it.
-/

namespace ProgramQueue

namespace Program

/-- The results that the push server is to watch. -/
def watched (program : Program) (effect : Effect) : List ExecutionResult :=
  (program.plannedResults effect).filter (·.effect.isTriggerable)

/-- The ids of the events that a program wants to be registered. -/
def wantedIds (program : Program) (effect : Effect) : List String :=
  (program.watched effect).map fun result => Push.eventId program.id result.callStackId

/-- The wallets that are looked up for what the push server is to watch. -/
def wallets (program : Program) (effect : Effect) : List String :=
  Push.walletsOf (program.watched effect)

theorem mem_plannedResults {program : Program} {effect : Effect} {result : ExecutionResult} :
    result ∈ program.plannedResults effect ↔
      ∃ entry ∈ program.action.plan effect [] none,
        result = ⟨entry.2.1, entry.2.2, entry.1.text⟩ := by
  simp only [plannedResults, List.mem_map, eq_comm]

/-- A program that was never run waits for nothing. -/
theorem plannedResults_init (program : Program) : program.plannedResults .init = [] := by
  rw [plannedResults, Action.plan_init]
  rfl

/-- What the server can watch is wanted. -/
theorem eventId_mem_wantedIds {program : Program} {effect : Effect} {result : ExecutionResult}
    (hresult : result ∈ program.plannedResults effect)
    (htriggerable : result.effect.isTriggerable = true) :
    Push.eventId program.id result.callStackId ∈ program.wantedIds effect :=
  List.mem_map_of_mem (List.mem_filter.2 ⟨hresult, htriggerable⟩)

theorem watched_transcribed (program : Program) (effect : Effect) :
    program.watched effect.transcribed = (program.watched effect).map fun result =>
      { result with effect := result.effect.transcribed } := by
  rw [watched, plannedResults_transcribed, List.filter_map, watched]
  simp only [Function.comp_def, Effect.isTriggerable_transcribed]

theorem wantedIds_transcribed (program : Program) (effect : Effect) :
    program.wantedIds effect.transcribed = program.wantedIds effect := by
  rw [wantedIds, watched_transcribed, List.map_map, wantedIds]
  rfl

theorem canWatch_of_mem {program : Program} {effect : Effect} {result : ExecutionResult}
    (h : result ∈ program.watched effect) : Push.CanWatch result := by
  obtain ⟨hplanned, htriggerable⟩ := List.mem_filter.1 h
  obtain ⟨entry, hentry, rfl⟩ := mem_plannedResults.1 hplanned
  have hisEntry := Action.isEntry_of_mem _ hentry
  obtain ⟨condition, hcondition⟩ := hisEntry.awaits
  refine ⟨⟨condition, hcondition, ?_⟩, hisEntry.carried⟩
  rw [hcondition] at htriggerable
  exact htriggerable

end Program

/-- What is stored for a program after it was stored twice: a record that cannot be
read after the first time stays as it is. -/
def Item.settled (item : Item) (first later : State) : Item :=
  if ({ item with state := first } : Item).isReadable then { item with state := later }
  else { item with state := first }

@[simp]
theorem Item.settled_program (item : Item) (first later : State) :
    (item.settled first later).program = item.program := by
  unfold Item.settled
  split <;> rfl

/-- Where what is stored can be read, it is what was stored last. -/
theorem Item.settled_eq {item : Item} {first later : State}
    (h : (item.settled first later).isReadable = true) :
    item.settled first later = { item with state := later } := by
  unfold Item.settled at h ⊢
  split at h
  · rename_i hfirst
    rw [if_pos hfirst]
  · rename_i hfirst
    exact absurd h hfirst

theorem Item.FiledUnder.settled {id : String} {item : Item} {first later : State}
    (hfirst : ({ item with state := first } : Item).FiledUnder id)
    (hlater : ({ item with state := later } : Item).FiledUnder id) :
    (item.settled first later).FiledUnder id := by
  unfold Item.settled
  split
  · exact hlater
  · exact hfirst

namespace Queue

variable {settings : Settings} {program : Program} {before after : Store}
  {log : Log Surroundings}

theorem spendEvent_current (fired : Option String) (state : State) :
    (spendEvent fired state).current = state.current := by
  cases fired <;> rfl

/-! ## Events -/

theorem mem_sent {listed : List String} {events : List Push.Event} {event : Push.Event} :
    event ∈ (registrationUpdate listed events).events ↔
      event ∈ events ∧ event.eventId ∉ listed := by
  simp [registrationUpdate, List.mem_filter]

theorem mem_removed {listed : List String} {events : List Push.Event} {event : String} :
    event ∈ (registrationUpdate listed events).removeEvents ↔
      event ∈ listed ∧ event ∉ events.map (·.eventId) := by
  simp [registrationUpdate, List.mem_filter]

/-- Events that were prepared for what a program waits for. -/
structure Prepared (settings : Settings) (program : Program) (effect : Effect)
    (lookups : Log Outside) (events : List Push.Event) : Prop where
  ids : events.map (·.eventId) = program.wantedIds effect
  each : ∀ plugin, Push.Names plugin lookups →
    List.Forall₂ (fun result event =>
      Push.eventFor plugin settings.pushMessage program.id result = some event)
      (program.watched effect) events

/-- The events for results have the ids of the results. -/
theorem ids_eq {programId : String} {lookups : Log Outside} {results : List ExecutionResult}
    {events : List Push.Event}
    (h : List.Forall₂ (Push.Describes programId lookups) results events) :
    events.map (·.eventId) =
      results.map fun result => Push.eventId programId result.callStackId := by
  induction h with
  | nil => rfl
  | cons hhead _ ih => exact congrArg₂ _ hhead.id ih

/-- Events are prepared, or a lookup of a wallet has failed. -/
theorem planEvents_cases {effect : Effect} {result : Except Error (List Push.Event)}
    (h : Completes (planEvents settings program effect) before log result after) :
    after = before ∧ ∃ lookups, Asked lookups log ∧
      ((∃ e, result = .error (.collaborator e) ∧ Push.Missed lookups e) ∨
        ∃ events, result = .ok events ∧ Push.Found lookups ∧
          Prepared settings program effect lookups events) := by
  obtain ⟨first, found, middle, later, rfl, hfirst, hlater⟩ := completes_bind.1 h
  obtain ⟨rfl, rfl, rfl⟩ := completes_pure.1 hlater
  obtain ⟨rfl, lookups, hasked, hprepare⟩ := completes_outside hfirst
  refine ⟨rfl, lookups, by rwa [List.append_nil], ?_⟩
  have hwatched : ∀ result ∈ program.watched effect, Push.CanWatch result :=
    fun _ => Program.canWatch_of_mem
  obtain ⟨e, rfl, hmissed⟩ | ⟨events, rfl, hfound, hevents⟩ :=
    Push.prepares_events program.id _ hwatched _ _ hprepare
  · exact Or.inl ⟨e, rfl, hmissed⟩
  · refine Or.inr ⟨_, rfl, hfound, ?_, fun plugin hnames => ?_⟩
    · rw [List.map_map]
      exact ids_eq hevents
    · rw [List.forall₂_map_right_iff]
      exact hevents.imp fun _ _ hdescribes =>
        Push.eventFor_message (hdescribes.names plugin hnames)

/-- If the events of a program are prepared, all wallets that it names were found. -/
theorem planEvents_found {effect : Effect} {events : List Push.Event}
    (h : Completes (planEvents settings program effect) before log (.ok events) after) :
    ∀ wallet ∈ program.wallets effect,
      ∃ info, ⟨.outside (.walletInfo wallet), .ok info⟩ ∈ log := by
  obtain ⟨first, result, middle, later, rfl, hfirst, hlater⟩ := completes_bind.1 h
  obtain ⟨rfl, hok, rfl⟩ := completes_pure.1 hlater
  obtain ⟨rfl, lookups, hasked, hprepare⟩ := completes_outside hfirst
  obtain ⟨e, rfl, -⟩ | ⟨prepared, rfl, hfound, -⟩ :=
    Push.prepares_events program.id _ (fun _ => Program.canWatch_of_mem) _ _ hprepare
  · cases hok
  obtain ⟨looked, rest, hwallets, hlookups, hnone⟩ := Push.looksUp_events _ _ _ _ hprepare
  obtain rfl := hnone prepared rfl
  intro wallet hwallet
  rw [Program.wallets, Program.watched, hwallets, List.append_nil] at hwallet
  have hmem : Query.walletInfo wallet ∈ lookups.map Answered.request := by
    rw [hlookups]
    exact List.mem_map_of_mem hwallet
  obtain ⟨own, hown, heq⟩ := List.mem_map.1 hmem
  obtain ⟨other, info, rfl⟩ := hfound own hown
  obtain rfl := Query.walletInfo.inj heq
  obtain ⟨given, hgiven, rfl⟩ := hasked.mem hown
  exact ⟨info, List.mem_append_left _ hgiven⟩

/-- What is told to the server when all events of a program are withdrawn. -/
inductive Retires : List String → Log Surroundings → Prop
  | nothing : Retires [] []
  | withdrawn {ids : List String} {answer : Except Push.RequestError Unit} (hids : ids ≠ []) :
      Retires ids [⟨.push (.updateLogin ⟨[], ids⟩), answer⟩]

theorem retireEvents_cases {state final : State}
    (h : Completes (retireEvents state) before log final after) :
    after = before ∧ final = { state with pushEventIds := [] } ∧
      Retires state.pushEventIds log := by
  unfold retireEvents at h
  split at h
  · rename_i hempty
    obtain ⟨rfl, rfl, rfl⟩ := completes_pure.1 h
    rw [List.isEmpty_iff] at hempty
    refine ⟨rfl, ?_, ?_⟩
    · rw [← hempty]
    · rw [hempty]
      exact .nothing
  · rename_i hids
    obtain ⟨first, answer, middle, later, rfl, hfirst, hlater⟩ := completes_bind.1 h
    obtain ⟨rfl, rfl⟩ := completes_push.1 hfirst
    obtain ⟨rfl, rfl, rfl⟩ := completes_pure.1 hlater
    exact ⟨rfl, rfl, .withdrawn fun hempty => hids (List.isEmpty_iff.2 hempty)⟩

/-! ## Settling -/

/-- How a program that was driven is settled with the push server. -/
inductive Settles (settings : Settings) (program : Program) (state : State) :
    Log Surroundings → State → Prop
  /-- It is over: its events are withdrawn, and a message may be shown. -/
  | finished {retired toasted : Log Surroundings} (hdone : state.isDone = true)
      (hretires : Retires state.pushEventIds retired)
      (htoasted : ∀ entry ∈ toasted, ∃ message, entry.request = .outside (.toast message)) :
      Settles settings program state (retired ++ toasted)
        { state with nextRun := never, pushEventIds := [] }
  /-- Its events cannot be prepared. -/
  | missed {now : Int64} {lookups : Log Outside} {asked : Log Surroundings}
      {e : CollaboratorError} (hopen : state.isDone = false) (hasked : Asked lookups asked)
      (hmissed : Push.Missed lookups e) :
      Settles settings program state (⟨.outside .clock, now⟩ :: asked)
        { state with nextRun := now }
  /-- The server could not be told. -/
  | refused {now : Int64} {lookups : Log Outside} {asked : Log Surroundings}
      {events : List Push.Event} {e : Push.RequestError} (hopen : state.isDone = false)
      (hasked : Asked lookups asked) (hfound : Push.Found lookups)
      (hprepared : Prepared settings program state.current lookups events)
      (hupdate : (registrationUpdate state.pushEventIds events).isEmpty = false) :
      Settles settings program state
        (⟨.outside .clock, now⟩ :: (asked ++
          [⟨.push (.updateLogin (registrationUpdate state.pushEventIds events)), .error e⟩]))
        { state with nextRun := now }
  /-- The server watches all that it can, and was told if there was anything to tell. -/
  | registered {now : Int64} {lookups : Log Outside} {asked told : Log Surroundings}
      {events : List Push.Event} (hopen : state.isDone = false)
      (hasked : Asked lookups asked) (hfound : Push.Found lookups)
      (hprepared : Prepared settings program state.current lookups events)
      (htold : told = if (registrationUpdate state.pushEventIds events).isEmpty then []
        else [⟨.push (.updateLogin (registrationUpdate state.pushEventIds events)), .ok ()⟩])
      (hlooked : ∀ wallet ∈ program.wallets state.current,
        ∃ info, ⟨.outside (.walletInfo wallet), .ok info⟩ ∈ asked) :
      Settles settings program state (⟨.outside .clock, now⟩ :: (asked ++ told))
        { state with
          pushEventIds := program.wantedIds state.current
          nextRun := nextRunTime now (program.plannedResults state.current) }

theorem finish_settles {state final : State} (hdone : state.isDone = true)
    (h : Completes (finish program state) before log final after) :
    after = before ∧ Settles settings program state log final := by
  obtain ⟨first, retired, middle, later, rfl, hfirst, hlater⟩ := completes_bind.1 h
  obtain ⟨rfl, rfl, hretires⟩ := retireEvents_cases hfirst
  split at hlater
  · obtain ⟨toasted, _, store, last, rfl, htoasted, hlast⟩ := completes_bind.1 hlater
    obtain ⟨rfl, inner, hasked, hinner⟩ := completes_outside htoasted
    obtain ⟨rfl, rfl, rfl⟩ := completes_pure.1 hlast
    obtain rfl := Task.follows_request.1 hinner
    refine ⟨rfl, ?_⟩
    rw [List.append_nil]
    refine .finished hdone hretires fun entry hentry => ?_
    cases hasked with
    | cons rest =>
        cases rest
        rw [List.mem_singleton.1 hentry]
        exact ⟨_, rfl⟩
  · obtain ⟨rfl, rfl, rfl⟩ := completes_pure.1 hlater
    exact ⟨rfl, .finished hdone hretires (List.forall_mem_nil _)⟩

/-- Registering never fails as a whole: what cannot be registered is looked at again. -/
theorem registerTriggers_settles {state : State} {result : Except Error State}
    (hopen : state.isDone = false)
    (h : Completes (registerTriggers settings program state).run before log result after) :
    after = before ∧ ∃ final, result = .ok final ∧ Settles settings program state log final := by
  obtain ⟨_, now, _, _, rfl, hclock, hrest⟩ := completes_liftBind.1 h
  obtain ⟨rfl, rfl⟩ := completes_clock hclock
  obtain ⟨asked, planned, _, told, rfl, hplanned, htell⟩ := completes_liftBind.1 hrest
  obtain ⟨rfl, lookups, hasked, ⟨e, rfl, hmissed⟩ | ⟨events, rfl, hfound, hprepared⟩⟩ :=
    planEvents_cases hplanned
  · obtain ⟨rfl, rfl, rfl⟩ := completes_pureExcept.1 htell
    refine ⟨rfl, _, rfl, ?_⟩
    rw [List.append_nil]
    exact .missed hopen hasked hmissed
  · have hlooked := planEvents_found hplanned
    simp only at htell
    cases hupdate : (registrationUpdate state.pushEventIds events).isEmpty with
    | true =>
        rw [if_pos hupdate] at htell
        obtain ⟨rfl, rfl, rfl⟩ := completes_pureExcept.1 htell
        refine ⟨rfl, _, rfl, ?_⟩
        rw [hprepared.ids, List.singleton_append]
        exact .registered hopen hasked hfound hprepared (by rw [if_pos hupdate]) hlooked
    | false =>
        rw [if_neg (by rw [hupdate]; exact Bool.false_ne_true)] at htell
        obtain ⟨_, answer, _, _, rfl, hpush, hlast⟩ := completes_liftBind.1 htell
        obtain ⟨rfl, rfl⟩ := completes_push.1 hpush
        cases answer with
        | error e =>
            obtain ⟨rfl, rfl, rfl⟩ := completes_pureExcept.1 hlast
            exact ⟨rfl, _, rfl, .refused hopen hasked hfound hprepared hupdate⟩
        | ok _ =>
            obtain ⟨rfl, rfl, rfl⟩ := completes_pureExcept.1 hlast
            refine ⟨rfl, _, rfl, ?_⟩
            rw [hprepared.ids, List.singleton_append]
            refine .registered hopen hasked hfound hprepared ?_ hlooked
            rw [if_neg (by rw [hupdate]; exact Bool.false_ne_true), List.append_nil]

/-! ## Runs and terminations -/

/-- The first half of a run: the journal is told, and the program is driven. -/
inductive Drives (settings : Settings) (id : String) (fired : Option String) (item : Item) :
    Log Surroundings → State → Prop
  | intro {inner : Log Journaled} {outer : Log Surroundings} {driven : State} {now : Int64}
      (hkept : Kept inner outer)
      (hdrives : (item.program.driveJournaled settings.inlineCap settings.maxSteps
        (spendEvent fired item.state)).Follows inner driven) :
      Drives settings id fired item
        (⟨.note (.step id fired), ()⟩ :: (outer ++ [⟨.outside .clock, now⟩]))
        { driven with lastRun := now }

/-- A run that does something: an unfinished program is driven from what is read of it,
stored, settled with the push server and stored again. -/
inductive Ran (settings : Settings) (id : String) (fired : Option String) :
    Store → Log Surroundings → State → Store → Prop
  | intro {before after : Store} {item : Item} {state final : State}
      {driving settling : Log Surroundings} (answer : Except Error Unit)
      (hfound : before.items.find? id = some item) (hreadable : item.isReadable = true)
      (hopen : item.state.isDone = false)
      (hdrives : Drives settings id fired item.transcribed driving state)
      (hsettles : Settles settings item.program state settling final)
      (hputs : Store.Puts id (item.settled state final) before after) :
      Ran settings id fired before
        (driving ++ ⟨.store (.save state), .ok ()⟩ :: (settling ++
          [⟨.store (.save final), answer⟩])) final after

/-- A termination that does something: an unfinished program is stored as failed, and
its events are withdrawn. -/
inductive Terminates (id : String) (failure : Failure) :
    Store → Log Surroundings → Store → Prop
  | intro {before after : Store} {item : Item} {state : State} {retired : Log Surroundings}
      {answer : Except Error Unit} (hfound : before.items.find? id = some item)
      (hreadable : item.isReadable = true) (hopen : item.state.isDone = false)
      (hstate : state = { item.state with
        effect := some (.failed failure), nextRun := never })
      (hretires : Retires state.pushEventIds retired)
      (hputs : Store.Puts id (item.settled state { state with pushEventIds := [] })
        before after) :
      Terminates id failure before
        (⟨.note (.terminate id failure), ()⟩ :: ⟨.store (.save state), .ok ()⟩ ::
          (retired ++ [⟨.store (.save { state with pushEventIds := [] }), answer⟩])) after

/-- A request that the journal and the push server's account of events do not depend on. -/
def Request.isQuiet : Request → Bool
  | .note _ => false
  | .push (.updateLogin _) => false
  | _ => true

def Silent (log : Log Surroundings) : Prop := ∀ entry ∈ log, entry.request.isQuiet = true

theorem silent_nil : Silent [] := List.forall_mem_nil _

theorem silent_singleton {request : Request} {answer : request.Answer}
    (h : request.isQuiet = true) : Silent [⟨request, answer⟩] := fun _ hentry =>
  List.mem_singleton.1 hentry ▸ h

/-- A part of an operation in which nothing happens to any program. -/
structure Quiet (before : Store) (log : Log Surroundings) (after : Store) : Prop where
  silent : Silent log
  same : Store.Same before after

theorem Silent.append {first later : Log Surroundings} (hfirst : Silent first)
    (hlater : Silent later) : Silent (first ++ later) := fun entry hentry =>
  (List.mem_append.1 hentry).elim (hfirst entry) (hlater entry)

theorem Quiet.append {middle : Store} {first later : Log Surroundings}
    (hfirst : Quiet before first middle) (hlater : Quiet middle later after) :
    Quiet before (first ++ later) after :=
  ⟨hfirst.silent.append hlater.silent, hfirst.same.trans hlater.same⟩

theorem getExisting_cases {id : String} {result : Except Error Item}
    (h : Completes (getExisting id).run before log result after) :
    after = before ∧ Silent log ∧ ∀ item, result = .ok item →
      ∃ stored, before.items.find? id = some stored ∧ stored.isReadable = true ∧
        item = stored.transcribed := by
  have hsilent (answer : Except Error (Option Item)) :
      Silent [⟨.store (.get id), answer⟩] := silent_singleton rfl
  obtain ⟨e, rfl, hget⟩ | ⟨first, found, middle, later, rfl, hget, hlater⟩ :=
    completes_bindExcept.1 h
  · obtain ⟨rfl, heq⟩ := completes_store.1 hget
    obtain ⟨-, rfl⟩ := Prod.mk.inj heq
    exact ⟨rfl, hsilent _, nofun⟩
  · obtain ⟨rfl, heq⟩ := completes_store.1 hget
    obtain ⟨hanswer, rfl⟩ := Prod.mk.inj heq
    cases found with
    | none =>
        obtain ⟨rfl, rfl, rfl⟩ := completes_throw.1 hlater
        exact ⟨rfl, hsilent _, nofun⟩
    | some item =>
        obtain ⟨rfl, rfl, rfl⟩ := completes_pureExcept.1 hlater
        refine ⟨rfl, hsilent _, fun found hfound => ?_⟩
        cases hfound
        exact Store.get_some hanswer

theorem Ran.puts {id : String} {fired : Option String} {final : State}
    (h : Ran settings id fired before log final after) :
    ∃ item, Store.Puts id item before after := by
  cases h with
  | intro _ _ _ _ _ _ hputs => exact ⟨_, hputs⟩

theorem Terminates.puts {id : String} {failure : Failure}
    (h : Terminates id failure before log after) :
    ∃ item, item.state.isDone = true ∧ Store.Puts id item before after := by
  obtain ⟨-, -, -, rfl, -, hputs⟩ := h
  refine ⟨_, ?_, hputs⟩
  unfold Item.settled
  split <;> rfl

theorem save_found {state : State} {item : Item} {result : Except Error Unit}
    (hfound : before.items.find? state.programId = some item)
    (hreadable : item.isReadable = true)
    (h : Completes (save state).run before log result after) :
    result = .ok () ∧ log = [⟨.store (.save state), .ok ()⟩] ∧
      Store.Puts state.programId { item with state := state } before after := by
  obtain ⟨rfl, heq⟩ := completes_store.1 (completes_attempt.1 h)
  obtain ⟨hanswer, rfl⟩ := Prod.mk.inj heq
  obtain ⟨other, hother, -, hresult, hputs⟩ | ⟨hnone, -, -⟩ := before.save_cases state
  · obtain rfl := Option.some.inj (hfound.symm.trans hother)
    obtain rfl := hanswer.symm.trans hresult
    exact ⟨rfl, rfl, hputs⟩
  · rw [hnone item hfound] at hreadable
    cases hreadable

/-- What is done after a state of a program was stored that can be read. -/
theorem save_bind_found {α : Type} {state : State} {item : Item} {next : Unit → Attempt α}
    {result : Except Error α} {id : String} (hid : state.programId = id)
    (hfound : before.items.find? id = some item) (hreadable : item.isReadable = true)
    (h : Completes (save state >>= next).run before log result after) :
    ∃ middle later, log = ⟨.store (.save state), .ok ()⟩ :: later ∧
      Store.Puts id { item with state := state } before middle ∧
      Completes (next ()).run middle later result after := by
  subst hid
  obtain ⟨e, rfl, hsave⟩ | ⟨_, _, middle, later, rfl, hsave, hnext⟩ := completes_bindExcept.1 h
  · obtain ⟨heq, -, -⟩ := save_found hfound hreadable hsave
    cases heq
  · obtain ⟨-, rfl, hputs⟩ := save_found hfound hreadable hsave
    exact ⟨middle, later, rfl, hputs, hnext⟩

/-- Storing a state of a program that was just stored: it takes the place of what was
stored if that can be read. -/
theorem save_settled {middle : Store} {item : Item} {first later : State}
    {result : Except Error State} {id : String} (hid : later.programId = id)
    (hputs : Store.Puts id { item with state := first } before middle)
    (h : Completes (do save later; return later : Attempt State).run middle log result after) :
    (∃ answer, log = [⟨.store (.save later), answer⟩]) ∧
      Store.Puts id (item.settled first later) before after ∧
      ∀ state, result = .ok state → state = later ∧ (item.settled first later).state = later := by
  have hsave {log : Log Surroundings} {answer : Except Error Unit} {last : Store}
      (h : Completes (save later).run middle log answer last) :
      log = [⟨.store (.save later), answer⟩] ∧
        Store.Puts id (item.settled first later) before last ∧
        (answer = .ok () → (item.settled first later).state = later) := by
    obtain ⟨rfl, heq⟩ := completes_store.1 (completes_attempt.1 h)
    obtain ⟨hanswer, rfl⟩ := Prod.mk.inj heq
    refine ⟨rfl, ?_⟩
    have hself := hputs.self
    subst hid
    unfold Item.settled
    obtain ⟨other, hother, hreadable, -, hlater⟩ | ⟨hnone, ⟨e, herror⟩, hsame⟩ :=
      middle.save_cases later
    · obtain rfl := Option.some.inj (hself.symm.trans hother)
      rw [if_pos hreadable]
      exact ⟨hputs.again hlater, fun _ => rfl⟩
    · rw [if_neg (by rw [hnone _ hself]; exact Bool.false_ne_true)]
      refine ⟨?_, fun hok => ?_⟩
      · change Store.Puts _ _ _ (middle.save later).2
        rw [hsame]
        exact hputs
      · cases (hok.symm.trans hanswer.symm).trans herror
  obtain ⟨e, rfl, herror⟩ | ⟨saving, _, _, _, rfl, hok, hlast⟩ := completes_bindExcept.1 h
  · obtain ⟨rfl, hlast, -⟩ := hsave herror
    exact ⟨⟨_, rfl⟩, hlast, nofun⟩
  · obtain ⟨rfl, hlast', hsettled⟩ := hsave hok
    obtain ⟨rfl, rfl, rfl⟩ := completes_pureExcept.1 hlast
    refine ⟨⟨_, rfl⟩, hlast', fun state hstate => ?_⟩
    cases hstate
    exact ⟨rfl, hsettled rfl⟩

theorem Drives.state {id : String} {fired : Option String} {item : Item} {state : State}
    (h : Drives settings id fired item log state) :
    state.programId = item.state.programId ∧
      state.pushEventIds = (spendEvent fired item.state).pushEventIds := by
  obtain ⟨hkept, hdrives⟩ := h
  obtain ⟨-, effect, heq⟩ := (Program.plansOn _ _).holds hdrives
  rw [heq]
  cases fired <;> exact ⟨rfl, rfl⟩

theorem isDueItem_transcribed (now : Int64) (item : Item) :
    isDueItem now item.transcribed = isDueItem now item := by
  rw [isDueItem, isDueItem, Item.transcribed_state, State.isDue_transcribed,
    State.transcribed_effect, Option.isNone_map]

/-- Settling changes the events of a program and when it is looked at, nothing else. -/
theorem Settles.state {state final : State} (h : Settles settings program state log final) :
    final.programId = state.programId ∧ final.effect = state.effect := by
  cases h <;> exact ⟨rfl, rfl⟩

/-- A run from what comes back from its text as it was stores nothing else. -/
theorem Drives.transcribed {id : String} {fired : Option String} {item : Item} {state : State}
    (h : Drives settings id fired item log state) (hitem : item.transcribed = item) :
    state.transcribed = state := by
  obtain ⟨-, hdrives⟩ := h
  refine State.transcribed_eq_self.2 ((Program.rateless _ _).holds hdrives |>.1 ?_)
  rw [Item.transcribed_eq_self] at hitem
  cases fired <;> exact hitem

theorem Settles.transcribed {state final : State} (h : Settles settings program state log final)
    (hstate : state.transcribed = state) : final.transcribed = final := by
  rw [State.transcribed_eq_self] at hstate ⊢
  rwa [State.current, h.state.2]

/-- The second half of a run: a program that was driven is settled and stored. -/
theorem settle_cases {middle : Store} {item : Item} {state : State}
    {result : Except Error State} {id : String} (hid : state.programId = id)
    (hputs : Store.Puts id { item with state := state } before middle)
    (h : Completes (do
      let final ←
        if state.isDone then ExceptT.lift (finish item.program state)
        else registerTriggers settings item.program state
      save final
      return final : Attempt State).run middle log result after) :
    ∃ settling final answer, log = settling ++ [⟨.store (.save final), answer⟩] ∧
      Settles settings item.program state settling final ∧
      Store.Puts id (item.settled state final) before after ∧
      ∀ answered, result = .ok answered →
        answered = final ∧ (item.settled state final).state = final := by
  -- however it was settled, what follows is the same: it is stored once more
  have hsecond {settling saving : Log Surroundings} {final : State}
      (hsettles : Settles settings item.program state settling final)
      (h : Completes (do save final; return final : Attempt State).run middle saving
        result after) :
      ∃ settled final answer, settling ++ saving =
          settled ++ [⟨.store (.save final), answer⟩] ∧
        Settles settings item.program state settled final ∧
        Store.Puts id (item.settled state final) before after ∧
        ∀ answered, result = .ok answered →
          answered = final ∧ (item.settled state final).state = final := by
    obtain ⟨⟨answer, rfl⟩, hlast, hresult⟩ :=
      save_settled (hsettles.state.1.trans hid) hputs h
    exact ⟨settling, final, answer, rfl, hsettles, hlast, hresult⟩
  cases hdone : state.isDone with
  | true =>
      simp only [hdone, if_true] at h
      obtain ⟨settling, final, _, saving, rfl, hfinish, hsave⟩ := completes_liftBind.1 h
      obtain ⟨rfl, hsettles⟩ := finish_settles hdone hfinish
      exact hsecond hsettles hsave
  | false =>
      simp only [hdone, Bool.false_eq_true, if_false] at h
      obtain ⟨e, rfl, herror⟩ | ⟨settling, final, _, saving, rfl, hregister, hsave⟩ :=
        completes_bindExcept.1 h
      · obtain ⟨-, final, heq, -⟩ := registerTriggers_settles hdone herror
        cases heq
      · obtain ⟨rfl, _, heq, hsettles⟩ := registerTriggers_settles hdone hregister
        cases heq
        exact hsecond hsettles hsave

/-- A run does nothing that concerns any program, or it is one of those that do; then the
state that it answers with is the one that was settled, and that is what is stored. -/
theorem runHeld_cases {id : String} {fired : Option String} {result : Except Error State}
    (hfiled : before.Filed)
    (h : Completes (runHeld settings id fired).run before log result after) :
    (Quiet before log after ∧ ∀ state, result = .ok state → state.isDone = true) ∨
      ∃ quiet running final, log = quiet ++ running ∧ Silent quiet ∧
        Ran settings id fired before running final after ∧
        ∀ state, result = .ok state → state = final ∧
          ∃ item, after.items.find? id = some item ∧ item.state = final := by
  obtain ⟨e, rfl, hget⟩ | ⟨quiet, item, middle, rest, rfl, hget, hrest⟩ :=
    completes_bindExcept.1 h
  · obtain ⟨rfl, hsilent, -⟩ := getExisting_cases hget
    exact Or.inl ⟨⟨hsilent, .refl _⟩, nofun⟩
  obtain ⟨rfl, hsilent, hitem⟩ := getExisting_cases hget
  obtain ⟨item, hfound, hreadable, rfl⟩ := hitem item rfl
  cases hopen : item.transcribed.state.isDone with
  | true =>
      rw [if_pos hopen] at hrest
      obtain ⟨rfl, rfl, rfl⟩ := completes_pureExcept.1 hrest
      rw [List.append_nil]
      refine Or.inl ⟨⟨hsilent, .refl _⟩, fun state hstate => ?_⟩
      cases hstate
      exact hopen
  | false =>
      rw [if_neg (by rw [hopen]; exact Bool.false_ne_true)] at hrest
      obtain ⟨_, _, _, _, rfl, hnote, hdrive⟩ := completes_liftBind.1 hrest
      obtain ⟨rfl, rfl⟩ := completes_note.1 hnote
      obtain ⟨outer, driven, _, _, rfl, hdriven, hclock⟩ := completes_liftBind.1 hdrive
      obtain ⟨rfl, inner, hkept, hfollows⟩ := completes_journaled hdriven
      obtain ⟨_, now, _, _, rfl, hnow, hfirst⟩ := completes_liftBind.1 hclock
      obtain ⟨rfl, rfl⟩ := completes_clock hnow
      have hdrives : Drives settings id fired item.transcribed _ { driven with lastRun := now } :=
        .intro hkept hfollows
      generalize ({ driven with lastRun := now } : State) = state at hdrives hfirst
      have hid : state.programId = id := hdrives.state.1.trans (hfiled id item hfound).state
      obtain ⟨stored, _, rfl, hputs, hsettle⟩ := save_bind_found hid hfound hreadable hfirst
      obtain ⟨settling, final, answer, rfl, hsettles, hlast, hresult⟩ :=
        settle_cases hid hputs hsettle
      refine Or.inr ⟨quiet, _, final, ?_, hsilent,
        .intro answer hfound hreadable (item.state.isDone_transcribed ▸ hopen) hdrives hsettles
          hlast, fun answered hok => ?_⟩
      · simp
      · obtain ⟨heq, hsettled⟩ := hresult answered hok
        exact ⟨heq, _, hlast.self, hsettled⟩

theorem terminateHeld_cases {id : String} {failure : Failure} {result : Except Error State}
    (howner : ∀ item, before.items.find? id = some item → item.state.programId = id)
    (h : Completes (terminateHeld id failure).run before log result after) :
    Quiet before log after ∨
      ∃ quiet terminating, log = quiet ++ terminating ∧ Silent quiet ∧
        Terminates id failure before terminating after := by
  obtain ⟨e, rfl, hget⟩ | ⟨quiet, item, middle, rest, rfl, hget, hrest⟩ :=
    completes_bindExcept.1 h
  · obtain ⟨rfl, hsilent, -⟩ := getExisting_cases hget
    exact Or.inl ⟨hsilent, .refl _⟩
  obtain ⟨rfl, hsilent, hitem⟩ := getExisting_cases hget
  obtain ⟨item, hfound, hreadable, rfl⟩ := hitem item rfl
  cases hopen : item.transcribed.state.isDone with
  | true =>
      rw [if_pos hopen] at hrest
      obtain ⟨rfl, rfl, rfl⟩ := completes_pureExcept.1 hrest
      rw [List.append_nil]
      exact Or.inl ⟨hsilent, .refl _⟩
  | false =>
      rw [if_neg (by rw [hopen]; exact Bool.false_ne_true)] at hrest
      obtain ⟨_, _, _, _, rfl, hnote, hfirst⟩ := completes_liftBind.1 hrest
      obtain ⟨rfl, rfl⟩ := completes_note.1 hnote
      generalize hstate : ({ item.transcribed.state with
        effect := some (.failed failure), nextRun := never } : State) = state at hfirst
      have hid : state.programId = id := by
        rw [← hstate]
        exact howner item hfound
      obtain ⟨stored, _, rfl, hputs, hretire⟩ := save_bind_found hid hfound hreadable hfirst
      obtain ⟨retired, final, _, _, rfl, hretired, hsecond⟩ := completes_liftBind.1 hretire
      obtain ⟨rfl, rfl, hretires⟩ := retireEvents_cases hretired
      have hid' : ({ state with pushEventIds := [] } : State).programId = id := hid
      obtain ⟨⟨answer, rfl⟩, hlast, -⟩ := save_settled hid' hputs hsecond
      exact Or.inr ⟨quiet, _, rfl, hsilent,
        .intro hfound hreadable (item.state.isDone_transcribed ▸ hopen) hstate.symm hretires
          hlast⟩

end Queue

end ProgramQueue
