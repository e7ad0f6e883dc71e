import ProgramQueue.Proofs.Deadlines
import ProgramQueue.Proofs.Frames
import ProgramQueue.Proofs.Histories

/-!
# No wake-up is lost

Whatever an unfinished program waits for, it will be run again for it: the event is
listed, or a time is set.  If there is a deadline the time is no later than that, unless
something failed; then the program is looked at as soon as the queue looks again.
-/

namespace ProgramQueue.Queue

open Push (eventId)

/-! ## The times that are read in runs -/

/-- Whether a program is being run, and the last time that was read while it was. -/
structure Timing where
  running : Bool
  last : Option Int64

namespace Timing

/-- A run of a program begins with a step and ends when the claim is dropped. -/
def after (id : String) (timing : Timing) : Answered Surroundings → Timing
  | ⟨.note (.step other _), _⟩ => { timing with running := other = id }
  | ⟨.store (.release other _), _⟩ =>
      if other = id then { timing with running := false } else timing
  | ⟨.outside .clock, now⟩ => if timing.running then { timing with last := some now } else timing
  | _ => timing

/-- The same after all that a log lists. -/
def through (id : String) (log : Log Surroundings) (timing : Timing) : Timing :=
  log.foldl (after id) timing

end Timing

/-- The last time that was read in the last run of a program. -/
def lastReading (id : String) (log : Log Surroundings) : Option Int64 :=
  (Timing.through id log ⟨false, none⟩).last

namespace Timing

variable {id : String} {timing : Timing} {log : Log Surroundings}

@[simp]
theorem through_nil (id : String) (timing : Timing) : through id [] timing = timing := rfl

@[simp]
theorem through_cons (id : String) (entry : Answered Surroundings) (log : Log Surroundings)
    (timing : Timing) : through id (entry :: log) timing = through id log (timing.after id entry) := rfl

@[simp]
theorem through_append (id : String) (first later : Log Surroundings) (timing : Timing) :
    through id (first ++ later) timing = through id later (through id first timing) :=
  List.foldl_append

theorem through_of_still (h : ∀ entry ∈ log, timing.after id entry = timing) :
    through id log timing = timing := by
  induction log with
  | nil => rfl
  | cons entry log ih =>
      rw [through_cons, h entry List.mem_cons_self]
      exact ih fun other hother => h other (List.mem_cons_of_mem _ hother)

/-- While a program is not run, what has nothing to do with it is not timed. -/
theorem through_of_foreign (hresting : timing.running = false)
    (h : ∀ entry ∈ log, entry.request.IsForeign id) : through id log timing = timing := by
  obtain ⟨running, last⟩ := timing
  obtain rfl : running = false := hresting
  refine through_of_still fun entry hentry => ?_
  have hforeign := h entry hentry
  unfold after
  split
  · rename_i other _ _
    have hne : other ≠ id := hforeign.1
    simp [hne]
  · split <;> rfl
  · rfl
  · rfl

/-- A program that is run goes on being run while nothing but its own journal is written
and the collaborators are asked. -/
theorem running_through_kept {inner : Log Journaled} {outer : Log Surroundings}
    (h : Kept inner outer) (hnotes : ∀ note ∈ Journaled.journal inner, note.programId = id)
    (hrunning : timing.running = true) : (through id outer timing).running = true := by
  have hstep : ∀ (timing : Timing), timing.running = true → ∀ entry ∈ outer,
      (timing.after id entry).running = true := by
    rintro timing hrunning ⟨request, answer⟩ hentry
    obtain ⟨note, hnote, heq⟩ | ⟨query, heq⟩ := mem_kept h hentry
    · obtain rfl : request = .note note := heq
      cases note with
      | step other fired => exact decide_eq_true (hnotes _ hnote)
      | _ => exact hrunning
    · obtain rfl : request = .outside query := heq
      cases query <;> first | exact hrunning | simp [after, hrunning]
  unfold through
  exact List.foldlRecOn (motive := fun timing : Timing => timing.running = true) outer _ hrunning
    hstep

theorem running_clock (now : Int64) :
    (timing.after id ⟨.outside .clock, now⟩).running = timing.running := by
  unfold after
  cases hrunning : timing.running <;> simp [hrunning]

theorem through_asked {lookups : Log Outside} {asked : Log Surroundings} (h : Asked lookups asked)
    (hwallets : ∀ entry ∈ lookups, ∃ wallet, entry.request = .walletInfo wallet) :
    through id asked timing = timing := by
  refine through_of_still fun entry hentry => ?_
  obtain ⟨⟨query, answer⟩, hown, rfl⟩ := mem_asked h hentry
  obtain ⟨wallet, rfl⟩ := hwallets _ hown
  rfl

end Timing

/-! ## What wakes a program -/

/-- A program that waits for something will be run again for it. -/
def Wakes (last : Option Int64) (program : Program) (state : State)
    (result : ExecutionResult) : Prop :=
  (result.effect.isTriggerable = true ∧
      eventId program.id result.callStackId ∈ state.pushEventIds) ∨
    state.nextRun ≠ never ∧ ∀ deadline, result.effect = .await (.unixtime deadline) →
      ∀ now, deadline ≤ now → (∀ reading ∈ last, reading ≤ now) → state.isDue now = true

/-- Everything that an unfinished program waits for will wake it, unless it was never
run. -/
structure Alert (last : Option Int64) (program : Program) (state : State) : Prop where
  deadlines : ∀ deadline, program.Awaits state.current deadline → 0 ≤ deadline
  wakes : state.effect = none ∨
    ∀ result ∈ program.plannedResults state.current, Wakes last program state result

/-- No time before the epoch is read. -/
def AfterEpoch (log : Log Surroundings) : Prop :=
  ∀ now, ⟨.outside .clock, now⟩ ∈ log → (0 : Int64) ≤ now

theorem AfterEpoch.sublist {log part : Log Surroundings} (h : AfterEpoch log)
    (hpart : part ⊆ log) : AfterEpoch part := fun now hmem => h now (hpart hmem)

variable {settings : Settings} {program : Program} {state final : State} {id : String}
  {timing : Timing} {log : Log Surroundings}

/-- What could not be registered is looked at as soon as the queue looks again. -/
theorem alert_of_failed {now : Int64} (hopen : state.isDone = false) (hnow : 0 ≤ now)
    (hdeadlines : ∀ deadline, program.Awaits state.current deadline → 0 ≤ deadline) :
    Alert (some now) program { state with nextRun := now } where
  deadlines := hdeadlines
  wakes := Or.inr fun _ _ => Or.inr ⟨State.ne_never_of_nonneg hnow, fun _ _ _ _ hreading =>
    State.isDue_of_le hopen (State.ne_never_of_nonneg hnow) (hreading now rfl)⟩

/-- What was registered has its event listed, and a deadline has a time set. -/
theorem alert_of_registered (last : Option Int64) (now : Int64) (hopen : state.isDone = false)
    (hdeadlines : ∀ deadline, program.Awaits state.current deadline → 0 ≤ deadline) :
    Alert last program { state with
      pushEventIds := program.wantedIds state.current
      nextRun := nextRunTime now (program.plannedResults state.current) } where
  deadlines := hdeadlines
  wakes := by
    refine Or.inr fun result hresult => ?_
    cases htriggerable : result.effect.isTriggerable with
    | true => exact Or.inl ⟨htriggerable, Program.eventId_mem_wantedIds hresult htriggerable⟩
    | false =>
        obtain ⟨condition, hcondition⟩ := Program.awaits_of_mem hresult
        rw [hcondition] at htriggerable
        cases condition with
        | unixtime deadline =>
            have hawaits : program.Awaits state.current deadline := ⟨result, hresult, hcondition⟩
            -- the first deadline is set, and it could only be mistaken for none before the epoch
            obtain ⟨hfirst, hleast⟩ | ⟨hnone, -⟩ := nextRunTime_cases now program state.current
            · have hset := State.ne_never_of_nonneg (hdeadlines _ hfirst)
              refine Or.inr ⟨hset, fun other hother time htime _ => ?_⟩
              have hleast := hleast other ⟨result, hresult, hother⟩
              exact State.isDue_of_le hopen hset (Int64.le_trans hleast htime)
            · exact absurd hawaits (hnone deadline)
        | _ => cases htriggerable

/-- Settling a program that is not over leaves nothing that it waits for unheard. -/
theorem Settles.alert (h : Settles settings program state log final)
    (hopen : final.isDone = false) (hclock : AfterEpoch log)
    (hdeadlines : ∀ deadline, program.Awaits state.current deadline → 0 ≤ deadline)
    (hrunning : timing.running = true) :
    (Timing.through id log timing).running = true ∧
      Alert (Timing.through id log timing).last program final := by
  have hread (now : Int64) : timing.after id ⟨.outside .clock, now⟩ = ⟨true, some now⟩ := by
    simp [Timing.after, hrunning]
  cases h with
  | finished hdone => cases hdone.symm.trans hopen
  | @missed now _ _ _ hopen hasked hmissed =>
      rw [Timing.through_cons, hread, Timing.through_asked hasked fun _ => hmissed.wallet]
      exact ⟨rfl, alert_of_failed hopen (hclock now List.mem_cons_self) hdeadlines⟩
  | @refused now _ _ _ _ hopen hasked hfound =>
      rw [Timing.through_cons, hread, Timing.through_append,
        Timing.through_asked hasked fun _ => hfound.wallet]
      exact ⟨rfl, alert_of_failed hopen (hclock now List.mem_cons_self) hdeadlines⟩
  | @registered now _ _ told _ hopen hasked hfound _ htold =>
      have hasking : Timing.through id _ ⟨true, some now⟩ = ⟨true, some now⟩ :=
        Timing.through_asked hasked fun _ => hfound.wallet
      have htelling : Timing.through id told ⟨true, some now⟩ = ⟨true, some now⟩ := by
        rw [htold]
        split <;> rfl
      rw [Timing.through_cons, hread, Timing.through_append, hasking, htelling]
      exact ⟨rfl, alert_of_registered _ now hopen hdeadlines⟩

/-- A drive begins the run, and the deadlines that it sets lie after the epoch. -/
theorem Drives.alert {fired : Option String} {item : Item}
    (h : Drives settings item.program.id fired item log state) (hclock : AfterEpoch log)
    (hdeadlines : ∀ deadline, item.program.Awaits item.state.current deadline → 0 ≤ deadline) :
    (Timing.through item.program.id log timing).running = true ∧
      ∀ deadline, item.program.Awaits state.current deadline → 0 ≤ deadline := by
  obtain @⟨inner, outer, driven, now, hkept, hdrives⟩ := h
  have hplans := ((Program.plansOn _ _).holds hdrives).1
  have hown := ((Program.notesOwn _ _).holds hdrives).1
  rw [spendEvent_current] at hplans
  constructor
  · have hbegun : (timing.after item.program.id
        ⟨.note (.step item.program.id fired), ()⟩).running = true := decide_eq_true rfl
    have hdriven := Timing.running_through_kept hkept (fun note hnote => (hown note hnote).1) hbegun
    rw [Timing.through_cons, Timing.through_append, Timing.through_cons, Timing.through_nil,
      Timing.running_clock, hdriven]
  · rintro deadline ⟨result, hresult, hdeadline⟩
    obtain ⟨entry, hentry, rfl⟩ := Program.mem_plannedResults.1 hresult
    obtain hbefore | ⟨htimed, -⟩ := hplans.2 entry hentry
    · exact hdeadlines deadline
        ⟨_, Program.mem_plannedResults.2 ⟨entry, hbefore, rfl⟩, hdeadline⟩
    · obtain ⟨time, ms, hmem, rfl⟩ := htimed deadline hdeadline
      obtain ⟨given, hgiven, rfl⟩ := hkept.mem hmem
      refine Step.addMillis_nonneg (hclock _ ?_) ms
      exact List.mem_cons_of_mem _ (List.mem_append_left _ hgiven)

/-! ## What a move keeps -/

/-- The program with an id is not being run, and if it is stored and unfinished all that
it waits for will wake it. -/
structure Awake (id : String) (store : Store) (timing : Timing) : Prop where
  resting : timing.running = false
  alert : ∀ item, store.items.find? id = some item → item.isReadable = true →
    item.state.isDone = false → Alert timing.last item.program item.state

variable {terms : Terms} {before after : Store}

theorem Foreign.awake (h : Foreign id before log after) (hbefore : Awake id before timing) :
    Awake id after (Timing.through id log timing) := by
  rw [Timing.through_of_foreign hbefore.resting h.requests]
  refine ⟨hbefore.resting, fun item hitem => ?_⟩
  rw [h.found] at hitem
  exact hbefore.alert item hitem

theorem awake_of_puts {item : Item} (hresting : timing.running = false)
    (hputs : Store.Puts id item before after)
    (h : item.isReadable = true → item.state.isDone = false →
      Alert timing.last item.program item.state) : Awake id after timing := by
  refine ⟨hresting, fun other hother => ?_⟩
  obtain rfl := Option.some.inj (hputs.self.symm.trans hother)
  exact h

theorem Ran.alert {fired : Option String} (hfiled : before.Filed) (hintact : before.Intact id)
    (h : Ran settings id fired before log final after) (hclock : AfterEpoch log)
    (hbefore : Awake id before timing) :
    ∀ item, after.items.find? id = some item → item.isReadable = true →
      item.state.isDone = false →
      Alert (Timing.through id log timing).last item.program item.state := by
  cases h with
  | @intro _ item state _ driving settling answer hfound hreadable hopen hdrives hsettles hputs =>
      intro stored hstored hreadable' hopen'
      obtain rfl := Option.some.inj (hputs.self.symm.trans hstored)
      have hid := (hfiled id item hfound).program
      rw [hintact item hfound] at hdrives
      subst hid
      have hdriving : AfterEpoch driving := hclock.sublist fun _ => List.mem_append_left _
      have hsettling : AfterEpoch settling := hclock.sublist fun _ hmem =>
        List.mem_append_right _ (List.mem_cons_of_mem _ (List.mem_append_left _ hmem))
      have hdeadlines := (hbefore.alert item hfound hreadable hopen).deadlines
      obtain ⟨hrunning, hdriven⟩ := hdrives.alert hdriving hdeadlines
      rw [Item.settled_eq hreadable'] at hopen' ⊢
      rw [Timing.through_append, Timing.through_cons, Timing.through_append]
      exact (hsettles.alert hopen' hsettling hdriven hrunning).2

theorem Retires.still {ids : List String} (h : Retires ids log) :
    Timing.through id log timing = timing := by
  cases h <;> rfl

theorem Terminates.awake {failure : Failure} (h : Terminates id failure before log after)
    (hresting : timing.running = false) : Awake id after (Timing.through id log timing) := by
  obtain ⟨stored, hdone, hputs'⟩ := h.puts
  cases h with
  | @intro _ item state retired answer _ _ _ hstate hretires hputs =>
      have hlog : Timing.through id (⟨.note (.terminate id failure), ()⟩ ::
          ⟨.store (.save state), .ok ()⟩ :: (retired ++
            [⟨.store (.save { state with pushEventIds := [] }), answer⟩])) timing = timing := by
        change Timing.through id (retired ++ _) timing = timing
        rw [Timing.through_append, hretires.still]
        rfl
      rw [hlog]
      exact awake_of_puts hresting hputs' fun _ hopen => by cases hopen.symm.trans hdone

/-- Recording the events of a program puts all that can be listed on the list. -/
theorem Alert.record {last : Option Int64} (h : Alert last program state) :
    Alert last program (state.listing (program.wantedIds state.current)) where
  deadlines := h.deadlines
  wakes := h.wakes.imp_right fun hwakes result hresult => by
    cases htriggerable : result.effect.isTriggerable with
    | true => exact Or.inl ⟨htriggerable, Program.eventId_mem_wantedIds hresult htriggerable⟩
    | false =>
        obtain ⟨hwatched, -⟩ | hset := hwakes result hresult
        · cases hwatched.symm.trans htriggerable
        · exact Or.inr hset

theorem Deed.awake (hfiled : before.Filed) (hintact : before.Intact id)
    (hclock : AfterEpoch log) (h : Deed terms id before log after)
    (hbefore : Awake id before timing) : Awake id after (Timing.through id log timing) := by
  cases h with
  | insert answer hnone hunused hputs =>
      refine awake_of_puts hbefore.resting hputs fun _ _ => ⟨?_, Or.inl rfl⟩
      rintro deadline ⟨result, hresult, -⟩
      rw [State.current, Item.fresh, State.fresh, Option.getD_none,
        Program.plannedResults_init] at hresult
      cases hresult
  | run owner hsettings hfired hran hsame =>
      -- the claim is dropped at the end, and with it the run is over
      have hreleased (running : Log Surroundings) :
          Timing.through id (running ++ [⟨.store (.release id owner), ()⟩]) timing =
            { Timing.through id running timing with running := false } := by
        rw [Timing.through_append]
        exact if_pos rfl
      have halert := hran.alert hfiled hintact
        (hclock.sublist fun _ => List.mem_append_left _) hbefore
      rw [hreleased]
      refine ⟨rfl, fun item hitem => ?_⟩
      rw [hsame.items] at hitem
      exact halert item hitem
  | terminate hterminates => exact hterminates.awake hbefore.resting
  | record answer hrecording hfound hreadable hopen hputs =>
      rw [hintact.state hfound] at hputs
      exact awake_of_puts hbefore.resting hputs fun _ _ =>
        (hbefore.alert _ hfound hreadable hopen).record
  | remove answer hfound hdone hdrops =>
      refine ⟨hbefore.resting, fun item hitem => ?_⟩
      rw [hdrops.items, if_pos rfl] at hitem
      cases hitem

theorem keptAlong_awake (terms : Terms) (id : String) :
    KeptAlong terms id AfterEpoch (Timing.through id) (Awake id) where
  nil := Timing.through_nil id
  append := Timing.through_append id
  parts hclock := ⟨hclock.sublist fun _ => List.mem_append_left _,
    hclock.sublist fun _ => List.mem_append_right _⟩
  foreign := Foreign.awake
  deed := Deed.awake

theorem Moves.awake (hfiled : before.Filed) (hintact : before.Intact id)
    (h : Moves terms before log after) (hclock : AfterEpoch log) (hbefore : Awake id before timing) :
    Awake id after (Timing.through id log timing) :=
  (keptAlong_awake terms id).moves hfiled hintact h hclock hbefore

/-! ## Histories -/

/-- Whatever was answered, an unfinished program that can be read was never run, and is
run when the queue looks for work; or each condition that it waits for has its event
listed, or a time is set that is due when a deadline has come. -/
theorem no_wakeup_lost {turns : List Turn} (hclock : AfterEpoch (logOf turns .empty))
    {item : Item} (hfound : (storeAfter turns .empty).items.find? id = some item)
    (hreadable : item.isReadable = true) (hopen : item.state.isDone = false) :
    (item.state.effect = none ∧ ∀ now, isDueItem now item = true) ∨
      ∀ result ∈ item.program.plannedResults item.state.current,
        Wakes (lastReading id (logOf turns .empty)) item.program item.state result := by
  have hempty : Awake id .empty ⟨false, none⟩ := ⟨rfl, fun item hitem => by cases hitem⟩
  have hawake := (moves_free turns .empty).awake .empty (.empty id) hclock hempty
  refine (hawake.alert item hfound hreadable hopen).wakes.imp_left fun hnone => ⟨hnone, ?_⟩
  intro now
  rw [isDueItem, hnone]
  exact Bool.or_true _

/-- A payment and a delay, side by side. -/
def errands : Program :=
  ⟨"errands", .par [.step (.broadcast ⟨"wallet", "bitcoin", [1]⟩) none,
    .step (.delay 5000) none] none, none⟩

/-- The errands are begun, and then the identity of the device is sent. -/
def errandTurns : List Turn :=
  [.granted 1000 9 (.schedule errands), .granted 2000 9 (.registerDevice ⟨"token", []⟩)]

/-- Where time stands still it is read as it is. -/
theorem granted_afterEpoch {now : Int64} (h : 0 ≤ now) (maxSteps : Nat) (command : Command)
    (store : Store) : AfterEpoch ((Turn.granted now maxSteps command).log store) := by
  intro time hmem
  obtain ⟨_, heq⟩ := Task.answer_of_mem_log hmem
  cases heq
  exact h

theorem errands_afterEpoch : AfterEpoch (logOf errandTurns .empty) := by
  intro now hmem
  obtain ⟨turn, hturn, store, hentry⟩ := mem_logOf hmem
  simp only [errandTurns, List.mem_cons, List.not_mem_nil, or_false] at hturn
  obtain rfl | rfl := hturn
  · exact granted_afterEpoch (by decide) _ _ store now hentry
  · exact granted_afterEpoch (by decide) _ _ store now hentry

/-- The payment is listed, and the program is looked at when the delay is over. -/
theorem no_errand_lost : ∃ item,
    (storeAfter errandTurns .empty).items.find? errands.id = some item ∧
      item.state = ⟨errands.id, some (.par [.await (.txConfs "tx" "wallet" 1),
        .await (.unixtime 6000)]), ["errands:par_0"], 1000, 6000⟩ ∧
      AfterEpoch (logOf errandTurns .empty) ∧
      ((item.state.effect = none ∧ ∀ now, isDueItem now item = true) ∨
        ∀ result ∈ item.program.plannedResults item.state.current,
          Wakes (lastReading errands.id (logOf errandTurns .empty)) item.program item.state
            result) := by
  have hstate : ((storeAfter errandTurns .empty).items.find? errands.id).map Item.state =
      some ⟨errands.id, some (.par [.await (.txConfs "tx" "wallet" 1),
        .await (.unixtime 6000)]), ["errands:par_0"], 1000, 6000⟩ := by
    decide +kernel
  have hreadable : ((storeAfter errandTurns .empty).items.find? errands.id).all
      Item.isReadable = true := by
    decide +kernel
  obtain ⟨item, hfound, hitem⟩ := Option.map_eq_some_iff.1 hstate
  rw [hfound] at hreadable
  have hopen : item.state.isDone = false := by
    rw [hitem]
    rfl
  refine ⟨item, hfound, hitem, errands_afterEpoch, ?_⟩
  exact no_wakeup_lost errands_afterEpoch hfound hreadable hopen

end ProgramQueue.Queue
