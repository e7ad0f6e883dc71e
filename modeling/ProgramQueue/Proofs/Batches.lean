import ProgramQueue.Proofs.Readability
import ProgramQueue.Queue.Session

/-!
# What stops a batch

A batch goes through programs one after the other: those that are due, or those whose
events are reported as fired.  Whatever the run of one program comes to, the others have
their turn.  What is not held back is the error of a record that cannot be read.  A single
one keeps all due programs from being run, and a report about its program ends a poll.
-/

namespace ProgramQueue

/-- Every record stands under the id of its program. -/
def Store.Named (store : Store) : Prop :=
  ∀ id item, store.items.find? id = some item → item.program.id = id

theorem Store.Filed.named {store : Store} (h : store.Filed) : store.Named :=
  fun id item hitem => (h id item hitem).program

namespace Queue

/-! ## What a batch promises -/

/-- Programs are run in this order, each of them once and whatever the runs before it came
to; the states are those of the runs that succeeded. -/
inductive RunInTurn (settings : Settings) :
    List String → Store → Log Surroundings → List State → Store → Prop
  | nil (store : Store) : RunInTurn settings [] store [] [] store
  | ran {id : String} {ids : List String} {before middle after : Store}
      {first later : Log Surroundings} {state : State} {states : List State}
      (hrun : Completes (run settings id) before first (.ok state) middle)
      (rest : RunInTurn settings ids middle later states after) :
      RunInTurn settings (id :: ids) before (first ++ later) (state :: states) after
  | failed {id : String} {ids : List String} {before middle after : Store}
      {first later : Log Surroundings} {e : Error} {states : List State}
      (hrun : Completes (run settings id) before first (.error e) middle)
      (rest : RunInTurn settings ids middle later states after) :
      RunInTurn settings (id :: ids) before (first ++ later) states after

/-- The due programs are run in turn, or nothing is run since some record cannot be read. -/
inductive Resumes (settings : Settings) (store : Store) :
    Log Surroundings → Except Error (List State) → Store → Prop
  | complete {now : Int64} {ids : List String} {log : Log Surroundings} {states : List State}
      {after : Store} (hreadable : ∀ entry ∈ store.items.entries, entry.2.isReadable = true)
      (hascending : ids.Pairwise (· < ·))
      (hdue : ∀ id, id ∈ ids ↔
        ∃ item, store.items.find? id = some item ∧ isDueItem now item = true)
      (hruns : RunInTurn settings ids store log states after) :
      Resumes settings store (⟨.outside .clock, now⟩ ::
        ⟨.store .list, .ok store.listed⟩ :: log) (.ok states) after
  | unreadable {now : Int64} {entry : String × Item} {e : Error}
      (hentry : entry ∈ store.items.entries) (hunreadable : entry.2.isReadable = false) :
      Resumes settings store [⟨.outside .clock, now⟩, ⟨.store .list, .error e⟩] (.error e) store

/-- The event fired, and the record of its program can be read, is not over and lists it. -/
structure Reaches (store : Store) (status : Push.EventStatus) (id : String) (item : Item) :
    Prop where
  triggered : status.state = .triggered
  program : Push.programIdOf? status.eventId = some id
  found : store.items.find? id = some item
  readable : item.isReadable = true
  unfinished : item.state.isDone = false
  listed : status.eventId ∈ item.state.pushEventIds

/-- The event fired, and the record of its program cannot be read. -/
structure Blocks (store : Store) (status : Push.EventStatus) (id : String) (item : Item) :
    Prop where
  triggered : status.state = .triggered
  program : Push.programIdOf? status.eventId = some id
  found : store.items.find? id = some item
  unreadable : item.isReadable = false

/-- What is done about a reported event: its program is resumed or stopped, if it is to be
woken; else nothing, apart from a look at its record. -/
inductive Handles (settings : Settings) (before : Store) (status : Push.EventStatus) :
    Log Surroundings → Store → Prop
  | resumed {id : String} {item : Item} {log : Log Surroundings} {after : Store}
      {result : Except Error (Option State)}
      (hreaches : Reaches before status id item) (haccepted : status.broadcastErrors = [])
      (hfired : Completes (onTriggerFired settings status.eventId) before log result after) :
      Handles settings before status (⟨.store (.get id), .ok (some item.transcribed)⟩ :: log)
        after
  | stopped {id : String} {item : Item} {log : Log Surroundings} {after : Store}
      {result : Except Error State}
      (hreaches : Reaches before status id item) (hrefused : status.broadcastErrors ≠ [])
      (hstopped : Completes (terminate settings id
        (broadcastFailure status.eventId status.broadcastErrors)) before log result after) :
      Handles settings before status (⟨.store (.get id), .ok (some item.transcribed)⟩ :: log)
        after
  | unlisted {id : String} {found : Option Item}
      (hasleep : ∀ id item, ¬Reaches before status id item)
      (hopen : ∀ id item, ¬Blocks before status id item) :
      Handles settings before status [⟨.store (.get id), .ok found⟩] before
  | ignored (hasleep : ∀ id item, ¬Reaches before status id item)
      (hopen : ∀ id item, ¬Blocks before status id item) :
      Handles settings before status [] before

/-- Reported events are handled in this order, each with the store that the ones before it
have left. -/
inductive HandledInTurn (settings : Settings) :
    List Push.EventStatus → Store → Log Surroundings → Store → Prop
  | nil (store : Store) : HandledInTurn settings [] store [] store
  | cons {status : Push.EventStatus} {statuses : List Push.EventStatus}
      {before middle after : Store} {first later : Log Surroundings}
      (hhandles : Handles settings before status first middle)
      (rest : HandledInTurn settings statuses middle later after) :
      HandledInTurn settings (status :: statuses) before (first ++ later) after

/-- All reported events are handled, or only those before the first one whose program has a
record that cannot be read, or the events cannot be fetched. -/
inductive Polls (settings : Settings) (store : Store) :
    Log Surroundings → Except Error (List State) → Store → Prop
  | complete {login : Push.Login} {log : Log Surroundings} {states : List State} {after : Store}
      (hhandled : HandledInTurn settings login.events store log after) :
      Polls settings store (⟨.push .loginEvents, .ok login⟩ :: log) (.ok states) after
  | unreadable {login : Push.Login} {statuses unhandled : List Push.EventStatus}
      {status : Push.EventStatus} {log : Log Surroundings} {after : Store} {id : String}
      {item : Item} {e : Error}
      (hevents : login.events = statuses ++ status :: unhandled)
      (hhandled : HandledInTurn settings statuses store log after)
      (hblocks : Blocks after status id item) :
      Polls settings store (⟨.push .loginEvents, .ok login⟩ :: log ++
        [⟨.store (.get id), .error e⟩]) (.error e) after
  | unreachable {e : Push.RequestError} :
      Polls settings store [⟨.push .loginEvents, .error e⟩] (.error (.push e)) store

/-- What both batches come to. -/
structure TakesTurns {σ : Type} (settings : Settings) (host : Host σ) (session : Session σ) :
    Prop where
  resumes : Resumes settings session.store ((resumeDue settings).log host.world session)
    ((resumeDue settings).run host.world session).value
    ((resumeDue settings).run host.world session).state.store
  polls : Polls settings session.store ((pollPushEvents settings).log host.world session)
    ((pollPushEvents settings).run host.world session).value
    ((pollPushEvents settings).run host.world session).state.store

/-! ## Due programs -/

variable {settings : Settings} {before middle after store : Store}
  {log first later : Log Surroundings} {id : String} {ids : List String} {now : Int64}
  {status : Push.EventStatus} {statuses : List Push.EventStatus} {states : List State}

theorem runEach_inTurn (h : Completes (runEach settings ids) before log states after) :
    RunInTurn settings ids before log states after := by
  induction ids generalizing before log states with
  | nil =>
      obtain ⟨rfl, rfl, rfl⟩ := completes_pure.1 h
      exact .nil _
  | cons id rest ih =>
      obtain ⟨first, result, middle, _, rfl, hrun, hrest⟩ := completes_bind.1 h
      obtain ⟨later, others, _, _, rfl, hlater, hdone⟩ := completes_bind.1 hrest
      cases result with
      | ok state =>
          obtain ⟨rfl, rfl, rfl⟩ := completes_pure.1 hdone
          rw [List.append_nil]
          exact .ran hrun (ih hlater)
      | error e =>
          obtain ⟨rfl, rfl, rfl⟩ := completes_pure.1 hdone
          rw [List.append_nil]
          exact .failed hrun (ih hlater)

/-- The ids of the due programs, as they are run. -/
def dueIds (now : Int64) (store : Store) : List String :=
  sortedIds ((store.items.entries.filter fun entry => isDueItem now entry.2).map (·.2.program.id))

/-- The same programs are due by what is read of them. -/
theorem dueIds_listed (now : Int64) (store : Store) :
    sortedIds ((store.listed.filter fun entry => isDueItem now entry.2).map (·.2.program.id)) =
      dueIds now store := by
  rw [Store.listed, List.filter_map, List.map_map, dueIds]
  simp only [Function.comp_def, isDueItem_transcribed, Item.transcribed_program]

/-- Records stand in ascending order of their ids, so sorting leaves them as they are. -/
theorem dueIds_eq (hnamed : store.Named) : dueIds now store =
    (store.items.entries.filter fun entry => isDueItem now entry.2).map (·.1) := by
  have hnames : (store.items.entries.filter fun entry => isDueItem now entry.2).map
      (·.2.program.id) =
      (store.items.entries.filter fun entry => isDueItem now entry.2).map (·.1) := by
    apply List.map_congr_left
    intro entry hentry
    exact hnamed _ _ (Table.find?_of_mem (List.mem_filter.1 hentry).1)
  rw [dueIds, hnames, sortedIds]
  apply List.mergeSort_of_pairwise
  apply List.pairwise_map.2
  apply (store.items.sorted.filter _).imp
  intro entry other hlt
  exact decide_eq_true (String.not_lt.1 (String.lt_asymm hlt))

theorem dueIds_ascending (hnamed : store.Named) : (dueIds now store).Pairwise (· < ·) := by
  rw [dueIds_eq hnamed]
  exact List.pairwise_map.2 (store.items.sorted.filter _)

theorem mem_dueIds (hnamed : store.Named) : id ∈ dueIds now store ↔
    ∃ item, store.items.find? id = some item ∧ isDueItem now item = true := by
  rw [dueIds_eq hnamed, List.mem_map]
  constructor
  · rintro ⟨⟨key, item⟩, hentry, rfl⟩
    obtain ⟨hstored, hdue⟩ := List.mem_filter.1 hentry
    exact ⟨item, Table.find?_of_mem hstored, hdue⟩
  · rintro ⟨item, hfound, hdue⟩
    exact ⟨(id, item), List.mem_filter.2 ⟨Table.mem_of_find? hfound, hdue⟩, rfl⟩

theorem resumeDue_resumes {result : Except Error (List State)} (hnamed : store.Named)
    (h : Completes (resumeDue settings) store log result after) :
    Resumes settings store log result after := by
  obtain ⟨_, now, _, _, rfl, hclock, hlisted⟩ := completes_bind.1 h
  obtain ⟨rfl, rfl⟩ := completes_clock hclock
  obtain ⟨_, answer, _, _, rfl, hlist, hrest⟩ := completes_bind.1 hlisted
  obtain ⟨rfl, hstore⟩ := completes_store.1 hlist
  obtain ⟨hanswer, rfl⟩ := Prod.mk.inj hstore
  cases answer with
  | error e =>
      obtain ⟨rfl, rfl, rfl⟩ := completes_pure.1 hrest
      have hunlisted := mt Store.list_iff.2 (by
        rintro ⟨entries, heq⟩
        cases hanswer.symm.trans heq)
      simp only [not_forall, Bool.not_eq_true] at hunlisted
      obtain ⟨entry, hentry, hunreadable⟩ := hunlisted
      exact .unreadable hentry hunreadable
  | ok entries =>
      obtain rfl := Store.list_ok hanswer
      obtain ⟨runs, states, _, _, rfl, hruns, hdone⟩ := completes_bind.1 hrest
      obtain ⟨rfl, rfl, rfl⟩ := completes_pure.1 hdone
      rw [List.append_nil]
      rw [dueIds_listed] at hruns
      exact .complete (Store.list_iff.1 ⟨_, hanswer⟩) (dueIds_ascending hnamed)
        (fun _ => mem_dueIds hnamed) (runEach_inTurn hruns)

/-! ## Reported events -/

/-- Nothing can be wrong with a record that is not looked up. -/
theorem ignored_of_silent (hsilent : status.state ≠ .triggered ∨
      Push.programIdOf? status.eventId = none) : Handles settings before status [] before := by
  obtain hstate | hprogram := hsilent
  · exact .ignored (fun _ _ h => hstate h.triggered) fun _ _ h => hstate h.triggered
  · exact .ignored (fun _ _ h => by cases hprogram.symm.trans h.program)
      fun _ _ h => by cases hprogram.symm.trans h.program

/-- A program that was looked up and need not be woken is left alone. -/
theorem unlisted_of_found {found : Option Item}
    (hprogram : Push.programIdOf? status.eventId = some id) (hget : before.get id = .ok found)
    (hasleep : ∀ item ∈ found,
      item.state.isDone = true ∨ status.eventId ∉ item.state.pushEventIds) :
    Handles settings before status [⟨.store (.get id), .ok found⟩] before := by
  have hread (other : String) (item : Item) (hother : Push.programIdOf? status.eventId = some other)
      (hitem : before.items.find? other = some item) :
      found = some item.transcribed ∧ item.isReadable = true := by
    obtain rfl := Option.some.inj (hprogram.symm.trans hother)
    cases hreadable : item.isReadable with
    | true =>
        have hsome := hget.symm.trans ((Store.get_iff hitem).2 hreadable)
        exact ⟨Except.ok.inj hsome, rfl⟩
    | false => exact absurd hget (Store.get_ne_ok hitem hreadable found)
  refine .unlisted (fun other item h => ?_) fun other item h => ?_
  · obtain ⟨rfl, -⟩ := hread other item h.program h.found
    obtain hdone | hunlisted := hasleep item.transcribed rfl
    · cases (hdone.symm.trans (State.isDone_transcribed _)).trans h.unfinished
    · exact hunlisted h.listed
  · obtain ⟨-, hreadable⟩ := hread other item h.program h.found
    cases hreadable.symm.trans h.unreadable

theorem unreadable_of_get {e : Error} (h : store.get id = .error e) :
    ∃ item, store.items.find? id = some item ∧ item.isReadable = false := by
  cases hfound : store.items.find? id with
  | none => simp [Store.get_eq, hfound] at h
  | some item =>
      refine ⟨item, rfl, Bool.eq_false_iff.2 fun hreadable => ?_⟩
      cases ((Store.get_iff hfound).2 hreadable).symm.trans h

/-- What is done about one reported event, or why nothing can be done. -/
theorem handleStatus_cases {result : Except Error (Option State)}
    (h : Completes (handleStatus settings status).run before log result after) :
    (∃ state, result = .ok state ∧ Handles settings before status log after) ∨
      ∃ id item e, result = .error e ∧ log = [⟨.store (.get id), .error e⟩] ∧ after = before ∧
        Blocks before status id item := by
  rw [handleStatus] at h
  split at h
  · rename_i hstate
    obtain ⟨rfl, rfl, rfl⟩ := completes_pureExcept.1 h
    exact Or.inl ⟨none, rfl, ignored_of_silent (Or.inl (by simpa using hstate))⟩
  rename_i hstate
  have htriggered : status.state = .triggered := by simpa using hstate
  dsimp only at h
  cases hprogram : Push.programIdOf? status.eventId with
  | none =>
      rw [hprogram] at h
      obtain ⟨rfl, rfl, rfl⟩ := completes_pureExcept.1 h
      exact Or.inl ⟨none, rfl, ignored_of_silent (Or.inr hprogram)⟩
  | some id =>
      rw [hprogram] at h
      dsimp only at h
      obtain ⟨e, rfl, hget⟩ | ⟨_, found, _, later, rfl, hget, hrest⟩ := completes_bindExcept.1 h
      · obtain ⟨rfl, hstore⟩ := completes_store.1 (completes_attempt.1 hget)
        obtain ⟨hanswer, rfl⟩ := Prod.mk.inj hstore
        obtain ⟨item, hfound, hunreadable⟩ := unreadable_of_get hanswer
        exact Or.inr ⟨id, item, e, rfl, rfl, rfl, htriggered, hprogram, hfound, hunreadable⟩
      obtain ⟨rfl, hstore⟩ := completes_store.1 (completes_attempt.1 hget)
      obtain ⟨hanswer, rfl⟩ := Prod.mk.inj hstore
      refine Or.inl ?_
      cases found with
      | none =>
          obtain ⟨rfl, rfl, rfl⟩ := completes_pureExcept.1 hrest
          exact ⟨none, rfl, unlisted_of_found hprogram hanswer nofun⟩
      | some item =>
          dsimp only at hrest
          obtain ⟨item, hfound, hreadable, rfl⟩ := Store.get_some hanswer
          rw [Item.transcribed_state, State.isDone_transcribed, State.transcribed_pushEventIds]
            at hrest
          split at hrest
          · rename_i hasleep
            obtain ⟨rfl, rfl, rfl⟩ := completes_pureExcept.1 hrest
            refine ⟨none, rfl, unlisted_of_found hprogram hanswer ?_⟩
            rintro _ ⟨⟩
            simpa using hasleep
          rename_i hawake
          simp only [Bool.or_eq_true, Bool.not_eq_true', List.contains_eq_mem, not_or,
            Bool.not_eq_true, decide_eq_false_iff_not, not_not] at hawake
          have hreaches : Reaches _ status id item :=
            ⟨htriggered, hprogram, hfound, hreadable, hawake.1, hawake.2⟩
          split at hrest
          · rename_i haccepted
            obtain ⟨core, result, _, _, rfl, hfired, hdone⟩ := completes_liftBind.1 hrest
            have hhandles := Handles.resumed hreaches (List.isEmpty_iff.1 haccepted) hfired
            cases result <;>
            · obtain ⟨rfl, rfl, rfl⟩ := completes_pureExcept.1 hdone
              rw [List.append_nil]
              exact ⟨_, rfl, hhandles⟩
          · rename_i hrefused
            obtain ⟨core, result, _, _, rfl, hstopped, hdone⟩ := completes_liftBind.1 hrest
            have hhandles := Handles.stopped hreaches (mt List.isEmpty_iff.2 hrefused) hstopped
            cases result <;>
            · obtain ⟨rfl, rfl, rfl⟩ := completes_pureExcept.1 hdone
              rw [List.append_nil]
              exact ⟨_, rfl, hhandles⟩

/-- Reported events are handled up to the first one whose program cannot be read. -/
theorem handleStatuses_cases {result : Except Error (List State)}
    (h : Completes (handleStatuses settings statuses).run before log result after) :
    (∃ states, result = .ok states ∧ HandledInTurn settings statuses before log after) ∨
      ∃ handled status unhandled first id item e, statuses = handled ++ status :: unhandled ∧
        result = .error e ∧ log = first ++ [⟨.store (.get id), .error e⟩] ∧
        HandledInTurn settings handled before first after ∧ Blocks after status id item := by
  induction statuses generalizing before log result with
  | nil =>
      obtain ⟨rfl, rfl, rfl⟩ := completes_pureExcept.1 h
      exact Or.inl ⟨[], rfl, .nil _⟩
  | cons status rest ih =>
      obtain ⟨e, rfl, hstatus⟩ | ⟨first, state, middle, _, rfl, hstatus, hrest⟩ :=
        completes_bindExcept.1 h
      · obtain ⟨_, heq, -⟩ | ⟨id, item, _, heq, rfl, rfl, hblocks⟩ := handleStatus_cases hstatus
        · cases heq
        · cases heq
          exact Or.inr ⟨[], status, rest, [], id, item, e, rfl, rfl, rfl, .nil _, hblocks⟩
      · obtain ⟨_, -, hhandles⟩ | ⟨_, _, _, heq, -⟩ := handleStatus_cases hstatus
        swap
        · cases heq
        obtain ⟨e, rfl, hlater⟩ | ⟨later, states, _, _, rfl, hlater, hdone⟩ :=
          completes_bindExcept.1 hrest
        · obtain ⟨_, heq, -⟩ | ⟨handled, other, unhandled, later, id, item, _, rfl, heq, rfl,
            hhandled, hblocks⟩ := ih hlater
          · cases heq
          · cases heq
            exact Or.inr ⟨status :: handled, other, unhandled, first ++ later, id, item, e, rfl,
              rfl, (List.append_assoc ..).symm, .cons hhandles hhandled, hblocks⟩
        · obtain ⟨rfl, rfl, rfl⟩ := completes_pureExcept.1 hdone
          obtain ⟨_, -, hhandled⟩ | ⟨_, _, _, _, _, _, _, _, heq, -⟩ := ih hlater
          · rw [List.append_nil]
            exact Or.inl ⟨_, rfl, .cons hhandles hhandled⟩
          · cases heq

theorem pollPushEvents_polls {result : Except Error (List State)}
    (h : Completes (pollPushEvents settings) store log result after) :
    Polls settings store log result after := by
  obtain ⟨_, answer, _, _, rfl, hpush, hrest⟩ := completes_bind.1 h
  obtain ⟨rfl, rfl⟩ := completes_push.1 hpush
  cases answer with
  | error e =>
      obtain ⟨rfl, rfl, rfl⟩ := completes_pure.1 hrest
      exact .unreachable
  | ok login =>
      obtain ⟨states, rfl, hhandled⟩ | ⟨handled, status, unhandled, first, id, item, e, hevents,
        rfl, rfl, hhandled, hblocks⟩ := handleStatuses_cases hrest
      · exact .complete hhandled
      · exact .unreadable hevents hhandled hblocks

/-! ## Both batches -/

/-- Whatever the world outside answers, all due programs are run and all reported events
are handled, each in its turn, unless a record that has to be read cannot be. -/
theorem batches_complete_unless_unreadable {σ : Type} (settings : Settings) (host : Host σ)
    (session : Session σ) (hnamed : session.store.Named) : TakesTurns settings host session where
  resumes := resumeDue_resumes hnamed (completes_run host _ session)
  polls := pollPushEvents_polls (completes_run host _ session)

/-- A payment whose transaction is watched by the server and looked at when it is due. -/
def paymentItem : Item where
  program := ⟨"payment", .step (.broadcast ⟨"w1", "bitcoin", [10]⟩) none, none⟩
  state :=
    { programId := "payment"
      effect := some (.await (.txConfs "tx" "w1" 1))
      pushEventIds := ["payment:root"]
      lastRun := 0
      nextRun := 0 }

/-- The payment next to another program. -/
def besidePayment (other : Program) : Store where
  items := (Table.empty.insert "payment" paymentItem).insert other.id (.fresh other)
  claims := Table.empty
  retired := []

theorem besidePayment_filed (other : Program) : (besidePayment other).Filed := by
  intro id item hfound
  rw [besidePayment, Table.find?_insert, Table.find?_insert] at hfound
  split at hfound
  · rename_i heq
    rw [← Option.some.inj hfound, heq]
    exact ⟨rfl, rfl, List.forall_mem_nil _⟩
  split at hfound
  · rename_i heq
    rw [← Option.some.inj hfound, heq]
    exact ⟨rfl, rfl, List.forall_mem_singleton.2 (by decide +kernel)⟩
  · cases hfound

/-- The server reports that events have fired. -/
def Host.reporting (events : List String) : Host Unit :=
  { Host.granting 0 with
    push := fun
      | .updateDevice _, _ => (.ok ⟨[], [], false, false⟩, ())
      | .updateLogin _, _ => (.ok (), ())
      | .loginEvents, _ => (.ok ⟨events.map fun id => ⟨id, .null, .triggered, none⟩⟩, ()) }

/-- A program that someone else holds keeps no other one from its turn. -/
theorem payment_has_turn :
    let store := ((besidePayment messages).tryClaim "messages" "other" 0 300).2
    store.Named ∧ TakesTurns ⟨"queue", 9, 300, none, 0⟩
      (Host.reporting ["messages:root", "payment:root"]) ⟨store, ()⟩ :=
  have hnamed : ((besidePayment messages).tryClaim "messages" "other" 0 300).2.Named :=
    (besidePayment_filed messages).named
  ⟨hnamed, batches_complete_unless_unreadable _ _ _ hnamed⟩

/-- A payment is due and its event has fired, but nothing is run as long as another record
cannot be read: both batches end with an error before they come to the payment. -/
theorem payment_kept_from_turn :
    let store := besidePayment tooDeep
    let host := Host.reporting ["deep:root", "payment:root"]
    let resumed := (resumeDue ⟨"queue", 9, 300, none, 0⟩).run host.world ⟨store, ()⟩
    let polled := (pollPushEvents ⟨"queue", 9, 300, none, 0⟩).run host.world ⟨store, ()⟩
    isDueItem 0 paymentItem = true ∧
      Reaches store ⟨"payment:root", .null, .triggered, none⟩ "payment" paymentItem ∧
      resumed.value.isOk = false ∧ resumed.requests.any isLock = false ∧
      polled.value.isOk = false ∧ polled.requests.any isLock = false := by
  have hreaches : Reaches (besidePayment tooDeep) ⟨"payment:root", .null, .triggered, none⟩
      "payment" paymentItem :=
    ⟨rfl, by decide +kernel, rfl, by decide +kernel, rfl, List.mem_cons_self⟩
  refine ⟨rfl, hreaches, ?_, ?_, ?_, ?_⟩ <;> decide +kernel

end Queue

end ProgramQueue
