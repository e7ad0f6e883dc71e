import ProgramQueue.Proofs.Batches
import ProgramQueue.Proofs.Fixpoints
import ProgramQueue.Proofs.LastRuns
import ProgramQueue.Proofs.Wakeups

/-!
# Running a program again

A program that would stay as it is, and with which nothing was wrong when it was run last,
can be run again as often as one likes.  As long as the world outside stays as it is, no
step is started, the push server is told nothing, and all records stay as they are.  When
the queue looks for work it does not choose that program.
-/

namespace ProgramQueue

open ProgramQueue.Task (Relayed follows_run value_bind state_bind log_bind within_bind
  within_request)

/-! ## Looks -/

/-- A relayed task comes to the same as the task itself, in a world that answers the same. -/
theorem Task.run_relay {I J : Interface} {α σ τ : Type} (inner : World I σ) (outer : World J τ)
    (embed : I.Request → J.Request) (back : (r : I.Request) → J.Answer (embed r) → I.Answer r)
    (view : τ → σ)
    (hfits : ∀ request state,
      back request (outer.respond (embed request) state).1 =
          (inner.respond request (view state)).1 ∧
        view (outer.respond (embed request) state).2 = (inner.respond request (view state)).2)
    (task : Task I α) (state : τ) :
    ((task.relay embed back).run outer state).value = (task.run inner (view state)).value ∧
      view ((task.relay embed back).run outer state).state =
        (task.run inner (view state)).state ∧
      Relayed embed back (task.log inner (view state))
        ((task.relay embed back).log outer state) := by
  induction task generalizing state with
  | done value => exact ⟨rfl, rfl, .nil⟩
  | ask request next ih =>
      obtain ⟨hanswer, hview⟩ := hfits request state
      obtain ⟨hvalue, hstate, hrelayed⟩ :=
        ih (back request (outer.respond (embed request) state).1)
          (outer.respond (embed request) state).2
      rw [hview] at hvalue hstate hrelayed
      simp only [Task.relay, Task.run, Task.log]
      rw [← hanswer]
      exact ⟨hvalue, hstate, .cons hrelayed⟩

/-- The request looks up a wallet or only reads something. -/
def Query.isLook : Query → Bool
  | walletInfo _ => true
  | query => query.isRead

theorem Query.isLook_of_isRead {query : Query} (h : query.isRead = true) :
    query.isLook = true := by
  cases query with
  | walletInfo => rfl
  | _ => exact h

/-- No look makes a difference to what is answered later. -/
def World.Still {σ : Type} (world : World Outside σ) : Prop :=
  ∀ query state, query.isLook = true → world.Agree (world.respond query state).2 state

def Looking (log : Log Outside) : Prop := ∀ entry ∈ log, entry.request.isLook = true

section Looks

variable {α σ : Type} {world : World Outside σ} {start : σ}

theorem World.Still.steady (h : world.Still) : world.Steady :=
  fun query state hread => h query state (Query.isLook_of_isRead hread)

/-- A task that only looks leaves everything as it is, so each answer is the one that is
given at the start. -/
theorem World.Still.looks (hstill : world.Still) {task : Task Outside α}
    (h : Looking (task.log world start)) :
    world.Agree (task.run world start).state start ∧
      ∀ entry ∈ task.log world start, entry.answer = (world.respond entry.request start).1 := by
  induction task generalizing start with
  | done value => exact ⟨.refl world start, List.forall_mem_nil _⟩
  | ask request next ih =>
      obtain ⟨hfirst, hrest⟩ := List.forall_mem_cons.1 h
      have hsame := hstill request start hfirst
      obtain ⟨hagree, hanswers⟩ := ih _ hrest
      refine ⟨hagree.trans hsame, List.forall_mem_cons.2 ⟨rfl, fun entry hentry => ?_⟩⟩
      exact (hanswers entry hentry).trans (hsame.respond entry.request).1

theorem Journaled.mem_asked {log : Log Journaled} {query : Query} {answer : query.Answer}
    (h : ⟨.ask query, answer⟩ ∈ log) : ⟨query, answer⟩ ∈ asked log := by
  obtain ⟨first, later, rfl⟩ := List.append_of_mem h
  rw [asked_append]
  exact List.mem_append_right _ List.mem_cons_self

/-- What only reads is answered as at the start. -/
theorem Journaled.Reading.answer (hstill : world.Still) {task : Task Journaled α}
    (h : Reading (task.log world.noting start)) {query : Query} {answer : query.Answer}
    (hmem : ⟨.ask query, answer⟩ ∈ task.log world.noting start) :
    answer = (world.respond query start).1 := by
  have hlooking : Looking ((silent task).log world start) := by
    rw [log_silent]
    exact fun entry hentry => Query.isLook_of_isRead (asked_reading h entry hentry)
  have hasked : ⟨query, answer⟩ ∈ (silent task).log world start := by
    rw [log_silent]
    exact mem_asked hmem
  exact (hstill.looks hlooking).2 _ hasked

end Looks

/-- A drive stops at once where an advance leaves the effect as it is. -/
theorem Program.driven_rests {σ : Type} {program : Program} {inlineCap : Nat}
    {world : World Outside σ} {state : State} {start : σ} (hopen : state.isDone = false)
    (hbegun : state.effect = some state.current)
    (hrests : ((program.advanceJournaled inlineCap state.current).run world.noting start).value =
      state.current) (budget : Nat) :
    (program.driven inlineCap world budget state start).final = state ∧
      Journaled.Reading (program.driven inlineCap world budget state start).log := by
  cases budget with
  | zero => exact ⟨rfl, List.forall_mem_nil _⟩
  | succ budget =>
      have hsame : (program.advanced inlineCap world state start).final = state := by
        rw [advanced, hrests, ← hbegun]
      rw [driven_unchanged (by rw [hopen]; exact Bool.false_ne_true) (congrArg _ hsame)]
      have hfollows := follows_run world.noting
        (program.advanceJournaled inlineCap state.current) start
      rw [hrests] at hfollows
      obtain ⟨_, -, hreading⟩ := advance_reading hfollows
      exact ⟨hsame, hreading⟩

namespace Queue

/-- The next run of a program that waits for something does not depend on the time. -/
theorem nextRunTime_const {program : Program} {effect : Effect}
    (hwaits : program.plannedResults effect ≠ []) (now later : Int64) :
    nextRunTime now (program.plannedResults effect) =
      nextRunTime later (program.plannedResults effect) := by
  obtain ⟨hfirst, hleast⟩ | ⟨hnone, hfirst⟩ := nextRunTime_cases now program effect <;>
    obtain ⟨hsecond, hleast'⟩ | ⟨hnone', hsecond⟩ := nextRunTime_cases later program effect
  · exact Int64.le_antisymm (hleast _ hsecond) (hleast' _ hfirst)
  · exact absurd hfirst (hnone' _)
  · exact absurd hsecond (hnone _)
  · rw [hfirst, hsecond, if_neg hwaits, if_neg hwaits]

/-! ## Operations that change nothing -/

variable {σ : Type} {host : Host σ} {base : Session σ} {settings : Settings} {id : String}
  {item : Item}

/-- No look, and no reading of the clock that claims are dated with, makes a difference to
what the collaborators answer later. -/
structure Host.Still (host : Host σ) : Prop where
  outside : host.outside.Still
  wallClock : ∀ state, host.outside.Agree (host.wallClock state).2 state

/-- The request starts no step, tells the push server nothing, and asks of a collaborator
nothing but a look. -/
def Request.isIdle : Request → Bool
  | outside query => query.isLook
  | push _ => false
  | note (.execute _) => false
  | _ => true

/-- The same programs are stored, and the collaborators answer the same. -/
structure Unchanged (host : Host σ) (before after : Session σ) : Prop where
  records : Store.Same before.store after.store
  outer : host.outside.Agree after.outer before.outer

/-- From wherever nothing has changed, an operation starts nothing, changes nothing, and
comes to a value that is wanted. -/
def Idles {α : Type} (host : Host σ) (base : Session σ) (wanted : α → Prop)
    (operation : Operation α) : Prop :=
  ∀ session, Unchanged host base session →
    wanted (operation.run host.world session).value ∧
      Unchanged host base (operation.run host.world session).state ∧
      ∀ entry ∈ operation.log host.world session, entry.request.isIdle = true

theorem Unchanged.refl (session : Session σ) : Unchanged host session session :=
  ⟨.refl _, .refl _ _⟩

section Rules

variable {α β : Type} {wanted : α → Prop} {final : β → Prop}

theorem idles_pure {value : α} (h : wanted value) : Idles host base wanted (pure value) :=
  fun _ hsame => ⟨h, hsame, List.forall_mem_nil _⟩

theorem idles_bind {operation : Operation α} {next : α → Operation β}
    (hfirst : Idles host base wanted operation)
    (hnext : ∀ value, wanted value → Idles host base final (next value)) :
    Idles host base final (operation >>= next) := by
  intro session hsame
  obtain ⟨hvalue, hmiddle, hidle⟩ := hfirst session hsame
  obtain ⟨hresult, hlast, hrest⟩ := hnext _ hvalue _ hmiddle
  rw [value_bind, state_bind, log_bind]
  exact ⟨hresult, hlast, List.forall_mem_append.2 ⟨hidle, hrest⟩⟩

theorem Idles.imp {operation : Operation α} (h : Idles host base wanted operation)
    {weaker : α → Prop} (himp : ∀ value, wanted value → weaker value) :
    Idles host base weaker operation :=
  fun session hsame => (h session hsame).imp_left (himp _)

theorem idles_lift {operation : Operation α} (h : Idles host base wanted operation) :
    Idles host base (fun result => ∃ value, result = .ok value ∧ wanted value)
      (ExceptT.lift operation : Attempt α).run :=
  idles_bind h fun value hvalue => idles_pure ⟨value, rfl, hvalue⟩

theorem idles_request (request : Request) {wanted : request.Answer → Prop}
    (hidle : request.isIdle = true)
    (h : ∀ session, Unchanged host base session → wanted (host.respond request session).1 ∧
      Unchanged host base (host.respond request session).2) :
    Idles host base wanted (Task.request (I := Surroundings) request) :=
  fun session hsame => ⟨(h session hsame).1, (h session hsame).2, List.forall_mem_singleton.2 hidle⟩

/-- It does not matter what is answered. -/
theorem idles_quiet (request : Request) (hidle : request.isIdle = true)
    (h : ∀ session, Unchanged host base session →
      Unchanged host base (host.respond request session).2) :
    Idles host base (fun _ => True) (Task.request (I := Surroundings) request) :=
  idles_request request hidle fun session hsame => ⟨trivial, h session hsame⟩

theorem idles_kept (request : Store.Request) (hkeeps : request.keepsItems = true) :
    Idles host base (fun _ => True) (store request) :=
  idles_quiet (.store request) rfl fun session hsame =>
    ⟨hsame.records.trans (Store.respond_same hkeeps session.store), hsame.outer⟩

theorem idles_get : Idles host base (fun found => found = base.store.get id)
    (store (.get id)) := by
  refine idles_request (.store (.get id)) rfl fun session hsame => ⟨?_, hsame⟩
  change session.store.get id = _
  rw [Store.get_eq, hsame.records.items, Store.get_eq]

/-- Storing a program as it is changes nothing. -/
theorem idles_save (hfound : base.store.items.find? id = some item)
    (hkeyed : item.state.programId = id) (hreadable : item.isReadable = true) :
    Idles host base (fun saved => saved = .ok ()) (save item.state).run := by
  refine idles_request (.store (.save item.state)) rfl fun session hsame => ?_
  have hstored : session.store.items.find? item.state.programId = some item := by
    rw [hkeyed, hsame.records.items, hfound]
  obtain ⟨found, hother, -, hsaved, hputs⟩ | ⟨hunreadable, -⟩ :=
    Store.save_cases item.state session.store
  · -- what is put is what stood there
    obtain rfl := Option.some.inj (hstored.symm.trans hother)
    refine ⟨hsaved, ⟨fun key => ?_, hputs.retired.trans hsame.records.retired⟩, hsame.outer⟩
    change (session.store.save item.state).2.items.find? key = _
    rw [hputs.items]
    split
    · rename_i heq
      rw [heq, hkeyed, hfound]
    · exact hsame.records.items key
  · cases (hunreadable item hstored).symm.trans hreadable

/-- Collaborators that are only looked at are left as they are. -/
theorem idles_outside (hstill : host.Still) {task : Task Outside α}
    (h : Looking (task.log host.outside base.outer)) :
    Idles host base (fun value => value = (task.run host.outside base.outer).value)
      (outside task) := by
  intro session hsame
  obtain ⟨hvalue, -, hlog⟩ := hsame.outer.run task
  rw [← hlog] at h
  obtain ⟨hrelayed, houter, hentries⟩ := Task.run_relay host.outside host.world
    Request.outside (fun _ answer => answer) Session.outer (fun _ _ => ⟨rfl, rfl⟩) task session
  refine ⟨hrelayed.trans hvalue, ⟨?_, ?_⟩, fun entry hentry => ?_⟩
  · rw [(completes_outside (completes_run host (outside task) session)).1]
    exact hsame.records
  · change host.outside.Agree ((task.relay _ _).run host.world session).state.outer _
    rw [houter]
    exact (hstill.outside.looks h).1.trans hsame.outer
  · obtain ⟨own, hown, rfl⟩ := mem_asked hentries hentry
    exact h own hown

/-- The same with a journal in which no step is started. -/
theorem idles_journaled (hstill : host.Still) {task : Task Journaled α}
    (h : Journaled.Reading (task.log host.outside.noting base.outer)) :
    Idles host base (fun value => value = (task.run host.outside.noting base.outer).value)
      (journaled task) := by
  intro session hsame
  obtain ⟨hvalue, -, hlog⟩ := hsame.outer.noting.run task
  rw [← hlog] at h
  obtain ⟨hrelayed, houter, hentries⟩ := Task.run_relay host.outside.noting host.world
    Request.ofJournaled Request.answerJournaled Session.outer
    (fun request _ => by cases request <;> exact ⟨rfl, rfl⟩) task session
  refine ⟨hrelayed.trans hvalue, ⟨?_, ?_⟩, fun entry hentry => ?_⟩
  · rw [(completes_journaled (completes_run host (journaled task) session)).1]
    exact hsame.records
  · change host.outside.Agree ((task.relay _ _).run host.world session).state.outer _
    rw [houter]
    exact (h.agree hstill.outside.steady).trans hsame.outer
  · obtain ⟨own, hown, given, rfl, -⟩ := hentries.source hentry
    have hreading := h own hown
    obtain ⟨request, answer⟩ := own
    cases request with
    | note note =>
        cases note with
        | execute site => cases hreading
        | _ => rfl
    | ask query => exact Query.isLook_of_isRead hreading

/-- Holding a program changes nothing if what is done meanwhile does not. -/
theorem idles_holding (hstill : host.Still) {task : Operation (Except Error α)}
    {wanted : Except Error α → Prop} (h : Idles host base wanted task)
    (hfailed : ∀ e, wanted (.error e)) : Idles host base wanted (holding settings id task) := by
  have hunlocked (result : Except Error α) (hresult : wanted result) : Idles host base wanted
      (do unlock id; return result) :=
    idles_bind (idles_quiet (.unlock id) rfl fun _ hsame => hsame) fun _ _ => idles_pure hresult
  refine idles_bind (idles_quiet (.lock id) rfl fun _ hsame => hsame) fun _ _ => ?_
  refine idles_bind (idles_quiet .wallClock rfl fun session hsame =>
    ⟨hsame.records, (hstill.wallClock session.outer).trans hsame.outer⟩) fun now _ => ?_
  refine idles_bind (idles_kept (.tryClaim id _ now _) rfl) fun claimed _ => ?_
  match claimed with
  | .ok true =>
      refine idles_bind h fun result hresult => ?_
      exact idles_bind (idles_kept (.release id _) rfl) fun _ _ => hunlocked result hresult
  | .ok false => exact hunlocked _ (hfailed _)
  | .error e => exact hunlocked _ (hfailed _)

end Rules

/-! ## A program that is at rest -/

/-- A program that would stay as it is and is registered, where its wallets can be found
and the clock reads the time of its last run. -/
structure Rests (host : Host σ) (settings : Settings) (base : Session σ) (id : String)
    (item : Item) : Prop where
  found : base.store.items.find? id = some item
  keyed : item.state.programId = id
  readable : item.isReadable = true
  /-- It is read as it was written. -/
  lasting : item.transcribed = item
  unfinished : item.state.isDone = false
  stays : ¬GoesOn host settings base item
  listed : item.state.pushEventIds = item.program.wantedIds item.state.current
  timed : ∃ now, item.state.nextRun =
    nextRunTime now (item.program.plannedResults item.state.current)
  looked : ∀ wallet ∈ item.program.wallets item.state.current,
    ∃ info, (host.outside.respond (.walletInfo wallet) base.outer).1 = .ok info
  reading : (host.outside.respond .clock base.outer).1 = item.state.lastRun

namespace Rests

theorem advanced (h : Rests host settings base id item) :
    ((item.program.advanceJournaled settings.inlineCap item.state.current).run
      host.outside.noting base.outer).value = item.state.current := by
  rw [← Journaled.run_silent]
  exact not_not.1 h.stays

/-- It has begun and waits for something, and its deadlines lie ahead. -/
theorem waits (hstill : host.Still) (h : Rests host settings base id item) :
    item.state.effect = some item.state.current ∧
      item.program.plannedResults item.state.current ≠ [] ∧
      ∀ deadline, item.program.Awaits item.state.current deadline →
        item.state.lastRun < deadline := by
  have hfollows := follows_run host.outside.noting
    (item.program.advanceJournaled settings.inlineCap item.state.current) base.outer
  rw [h.advanced] at hfollows
  obtain ⟨hbegun, hwaits, hahead⟩ := Program.waits_of_unchanged hfollows h.unfinished
  obtain ⟨-, -, hreading⟩ := Program.advance_reading hfollows
  refine ⟨?_, hwaits, fun deadline hdeadline => ?_⟩
  · cases heffect : item.state.effect with
    | none => exact absurd (by rw [State.current, heffect]; rfl) hbegun
    | some effect => rw [State.current, heffect, Option.getD_some]
  · obtain ⟨now, hclock, hlt⟩ := hahead deadline hdeadline
    rw [← h.reading, ← hreading.answer hstill.outside hclock]
    exact hlt

/-- The time of its next run is the one that is found whenever it is settled. -/
theorem nextRun (hstill : host.Still) (h : Rests host settings base id item) (now : Int64) :
    nextRunTime now (item.program.plannedResults item.state.current) = item.state.nextRun := by
  obtain ⟨time, htime⟩ := h.timed
  rw [htime]
  exact nextRunTime_const (h.waits hstill).2.1 now time

/-- It is not looked at when the queue looks for work. -/
theorem not_due (hstill : host.Still) (h : Rests host settings base id item) :
    isDueItem item.state.lastRun item = false := by
  obtain ⟨hbegun, hwaits, hahead⟩ := h.waits hstill
  have hdue : item.state.isDue item.state.lastRun = false := by
    rw [Bool.eq_false_iff, Ne, State.isDue_iff h.unfinished, ← h.nextRun hstill 0]
    rintro ⟨hset, hcome⟩
    obtain ⟨hawaits, -⟩ | ⟨-, hnever⟩ := nextRunTime_cases 0 item.program item.state.current
    · exact Int64.not_le.2 (hahead _ hawaits) hcome
    · rw [if_neg hwaits] at hnever
      exact hset hnever
  rw [isDueItem, hdue, hbegun]
  rfl

/-! ## Running it -/

theorem idles_clock (hstill : host.Still) (h : Rests host settings base id item) :
    Idles host base (fun now => now = item.state.lastRun) clock := by
  have hlooking : Looking (Outside.clock.log host.outside base.outer) :=
    List.forall_mem_singleton.2 rfl
  refine (idles_outside hstill hlooking).imp ?_
  rintro _ rfl
  exact h.reading

/-- It is driven no further. -/
theorem idles_drive (hstill : host.Still) (h : Rests host settings base id item) :
    Idles host base (fun driven => driven = item.state)
      (journaled (item.program.driveJournaled settings.inlineCap settings.maxSteps
        item.state)) := by
  obtain ⟨hsame, hreading⟩ := Program.driven_rests h.unfinished (h.waits hstill).1 h.advanced
    settings.maxSteps
  refine (idles_journaled hstill hreading).imp ?_
  rintro _ rfl
  exact hsame

/-- Its wallets are found, so its events can be prepared. -/
theorem prepares (hstill : host.Still) (h : Rests host settings base id item) :
    let task := (Push.prepareEvents item.program.id
      (item.program.watched item.state.current)).run
    Looking (task.log host.outside base.outer) ∧
      ∃ events, (task.run host.outside base.outer).value = .ok events ∧
        events.map (·.eventId) = item.program.wantedIds item.state.current := by
  intro task
  have hfollows := follows_run host.outside task base.outer
  obtain ⟨asked, rest, hwallets, hlog, -⟩ := Push.looksUp_events _ _ _ _ hfollows
  have hlookup : ∀ entry ∈ task.log host.outside base.outer,
      ∃ wallet ∈ asked, entry.request = .walletInfo wallet := by
    intro entry hentry
    obtain ⟨wallet, hwallet, heq⟩ := List.mem_map.1 (hlog ▸ List.mem_map_of_mem hentry)
    exact ⟨wallet, hwallet, heq.symm⟩
  have hlooking : Looking (task.log host.outside base.outer) := by
    intro entry hentry
    obtain ⟨wallet, -, heq⟩ := hlookup entry hentry
    rw [heq]
    rfl
  refine ⟨hlooking, ?_⟩
  obtain ⟨e, -, found, missing, -, hmissed⟩ | ⟨events, hevents, -, hdescribes⟩ :=
    Push.prepares_events _ _ (fun _ => Program.canWatch_of_mem) _ _ hfollows
  · -- the wallet that was not found is one of those that can be found
    have hmem : ⟨.walletInfo missing, .error e⟩ ∈ task.log host.outside base.outer := by
      rw [hmissed]
      exact List.mem_append_right _ List.mem_cons_self
    obtain ⟨wallet, hwallet, heq⟩ := hlookup _ hmem
    obtain rfl := Query.walletInfo.inj heq
    obtain ⟨info, hinfo⟩ := h.looked missing (by
      rw [Program.wallets, hwallets]
      exact List.mem_append_left _ hwallet)
    cases ((hstill.outside.looks hlooking).2 _ hmem).trans hinfo
  · exact ⟨events, hevents, ids_eq hdescribes⟩

theorem idles_plan (hstill : host.Still) (h : Rests host settings base id item) :
    Idles host base (fun planned => ∃ events, planned = .ok events ∧
        events.map (·.eventId) = item.program.wantedIds item.state.current)
      (planEvents settings item.program item.state.current) := by
  obtain ⟨hlooking, events, hevents, hids⟩ := h.prepares hstill
  refine idles_bind (idles_outside hstill hlooking) ?_
  rintro _ rfl
  refine idles_pure ⟨_, congrArg _ hevents, ?_⟩
  rw [List.map_map]
  exact hids

/-- There is nothing to tell the push server, and it is settled as it was. -/
theorem idles_register (hstill : host.Still) (h : Rests host settings base id item) :
    Idles host base (fun settled => settled = .ok item.state)
      (registerTriggers settings item.program item.state).run := by
  refine idles_bind (idles_lift (h.idles_clock hstill)) ?_
  rintro _ ⟨_, rfl, rfl⟩
  refine idles_bind (idles_lift (h.idles_plan hstill)) ?_
  rintro _ ⟨_, rfl, events, rfl, hids⟩
  have hnothing : (registrationUpdate item.state.pushEventIds events).isEmpty = true := by
    rw [Push.LoginUpdate.isEmpty, Bool.and_eq_true, List.isEmpty_iff, List.isEmpty_iff,
      List.eq_nil_iff_forall_not_mem, List.eq_nil_iff_forall_not_mem]
    constructor
    · intro event hevent
      obtain ⟨hmem, hunlisted⟩ := mem_sent.1 hevent
      rw [h.listed, ← hids] at hunlisted
      exact hunlisted (List.mem_map_of_mem hmem)
    · intro event hevent
      obtain ⟨hlisted, hunwanted⟩ := mem_removed.1 hevent
      rw [hids, ← h.listed] at hunwanted
      exact hunwanted hlisted
  have hsettled : { item.state with
      pushEventIds := events.map (·.eventId)
      nextRun := nextRunTime item.state.lastRun
        (item.program.plannedResults item.state.current) } = item.state := by
    rw [hids, ← h.listed, h.nextRun hstill]
  change Idles host base _ (if (registrationUpdate item.state.pushEventIds events).isEmpty then _
    else _)
  rw [if_pos hnothing]
  exact idles_pure (congrArg _ hsettled)

theorem idles_runHeld (hstill : host.Still) (h : Rests host settings base id item) :
    Idles host base (fun result => result = .ok item.state)
      (runHeld settings id none).run := by
  have hget : Idles host base (fun result => result = .ok item) (getExisting id).run := by
    refine idles_bind idles_get ?_
    rintro _ rfl
    have hgot := (Store.get_iff h.found).2 h.readable
    rw [h.lasting] at hgot
    rw [hgot]
    exact idles_pure rfl
  have hsave : Idles host base (fun saved => saved = .ok ()) (save item.state).run :=
    idles_save h.found h.keyed h.readable
  refine idles_bind hget ?_
  rintro _ rfl
  change Idles host base _ (if item.state.isDone then _ else _ : Attempt State).run
  rw [h.unfinished]
  refine idles_bind (idles_lift (idles_quiet (.note (.step id none)) rfl fun _ hsame => hsame)) ?_
  rintro _ ⟨_, rfl, -⟩
  refine idles_bind (idles_lift (h.idles_drive hstill)) ?_
  rintro _ ⟨_, rfl, rfl⟩
  refine idles_bind (idles_lift (h.idles_clock hstill)) ?_
  rintro _ ⟨_, rfl, rfl⟩
  refine idles_bind hsave ?_
  rintro _ rfl
  -- the state that was stored is the old one, so it is settled with the server again
  change Idles host base _ (if item.state.isDone then _ else _ : Attempt State).run
  rw [h.unfinished]
  refine idles_bind (h.idles_register hstill) ?_
  rintro _ rfl
  refine idles_bind hsave ?_
  rintro _ rfl
  exact idles_pure rfl

end Rests

/-- A program that cannot be read is not run. -/
theorem idles_unreadable (hfound : base.store.items.find? id = some item)
    (hunreadable : item.isReadable = false) (fired : Option String) :
    Idles host base (fun result => ∃ e, result = .error e) (runHeld settings id fired).run := by
  have hget : Idles host base (fun result => ∃ e, result = .error e) (getExisting id).run := by
    refine idles_bind idles_get ?_
    rintro _ rfl
    cases hgot : base.store.get id with
    | ok found => exact absurd hgot (Store.get_ne_ok hfound hunreadable found)
    | error e => exact idles_pure ⟨e, rfl⟩
  refine idles_bind hget ?_
  rintro _ ⟨e, rfl⟩
  exact idles_pure ⟨e, rfl⟩

/-- If one run changes nothing, no number of runs does. -/
theorem idles_runEach {wanted : State → Prop}
    (h : Idles host base (fun result => ∀ state, result = .ok state → wanted state)
      (run settings id)) (count : Nat) :
    Idles host base (fun states => ∀ state ∈ states, wanted state)
      (runEach settings (List.replicate count id)) := by
  induction count with
  | zero => exact idles_pure (List.forall_mem_nil _)
  | succ count ih =>
      refine idles_bind h fun result hresult => idles_bind ih fun states hstates => ?_
      cases result with
      | ok state => exact idles_pure (List.forall_mem_cons.2 ⟨hresult state rfl, hstates⟩)
      | error e => exact idles_pure hstates

/-! ## Looking for work -/

/-- A run of a program waits for no other program. -/
theorem locks_run (settings : Settings) (id : String) :
    (run settings id).Within fun request : Request => ∀ key, request = .lock key → key = id := by
  refine within_held ?_ nofun (fun _ => nofun) nofun nofun
    ((within_runHeld settings id none).imp ?_)
  · rintro _ ⟨⟩
    rfl
  · rintro _ (⟨_ | _ | _⟩ | _ | _) _ ⟨⟩

theorem RunInTurn.locks {ids : List String} {before after : Store} {log : Log Surroundings}
    {states : List State} (h : RunInTurn settings ids before log states after) :
    ∀ entry ∈ log, ∀ key, entry.request = .lock key → key ∈ ids := by
  induction h with
  | nil => exact List.forall_mem_nil _
  | ran hrun _ ih | failed hrun _ ih =>
      refine List.forall_mem_append.2
        ⟨fun entry hentry key heq => ?_, fun entry hentry key heq => ?_⟩
      · rw [(locks_run settings _).follows hrun.follows entry hentry key heq]
        exact List.mem_cons_self
      · exact List.mem_cons_of_mem _ (ih entry hentry key heq)

/-- A program that is not due, or that cannot be read, is not run by a queue that looks for
work. -/
theorem unselected_of_not_due {session : Session σ} (hnamed : session.store.Named)
    (hfound : session.store.items.find? id = some item)
    (hasleep : item.isReadable = true →
      isDueItem (host.outside.respond .clock session.outer).1 item = false) :
    ∀ entry ∈ (resumeDue settings).log host.world session, entry.request ≠ .lock id := by
  have hresumes := resumeDue_resumes hnamed (completes_run host (resumeDue settings) session)
  obtain ⟨rest, hlog⟩ : ∃ rest, (resumeDue settings).log host.world session =
    ⟨.outside .clock, (host.outside.respond .clock session.outer).1⟩ :: rest := ⟨_, rfl⟩
  rw [hlog] at hresumes ⊢
  generalize ((resumeDue settings).run host.world session).value = value at hresumes
  generalize ((resumeDue settings).run host.world session).state.store = after at hresumes
  generalize (host.outside.respond .clock session.outer).1 = now at hresumes hasleep ⊢
  refine List.forall_mem_cons.2 ⟨nofun, fun entry hentry heq => ?_⟩
  cases hresumes with
  | complete hreadable _ hdue hruns =>
      obtain rfl | hrun := List.mem_cons.1 hentry
      · cases heq
      · obtain ⟨found, hother, hselected⟩ := (hdue id).1 (hruns.locks entry hrun id heq)
        obtain rfl := Option.some.inj (hfound.symm.trans hother)
        have hread := hreadable _ (Table.mem_of_find? hfound)
        cases (hasleep hread).symm.trans hselected
  | unreadable =>
      rw [List.mem_singleton.1 hentry] at heq
      cases heq

/-! ## Running it any number of times -/

/-- What is promised where a program is run so many times, one after the other. -/
structure ChangesNothing (settings : Settings) (host : Host σ) (session : Session σ)
    (id : String) (item : Item) (count : Nat) : Prop where
  /-- No step is started, and the push server is told nothing. -/
  idle : ∀ entry ∈ (runEach settings (List.replicate count id)).log host.world session,
    entry.request.isIdle = true
  /-- What a run answers is the state as it was. -/
  states : ∀ state ∈ ((runEach settings (List.replicate count id)).run host.world session).value,
    state = item.state
  /-- All records stay as they are. -/
  records : Store.Same session.store
    ((runEach settings (List.replicate count id)).run host.world session).state.store
  /-- After that the queue does not choose the program when it looks for work. -/
  unselected : ∀ entry ∈ (resumeDue settings).log host.world
    ((runEach settings (List.replicate count id)).run host.world session).state,
    entry.request ≠ .lock id

theorem changesNothing_of_idles (hnamed : base.store.Named)
    (hfound : base.store.items.find? id = some item)
    (h : Idles host base (fun result => ∀ state, result = .ok state → state = item.state)
      (run settings id))
    (hasleep : item.isReadable = true →
      isDueItem (host.outside.respond .clock base.outer).1 item = false) (count : Nat) :
    ChangesNothing settings host base id item count := by
  obtain ⟨hstates, hsame, hidle⟩ := idles_runEach h count base (.refl base)
  have hnamed : Store.Named _ := fun key other hother =>
    hnamed key other ((hsame.records.items key).symm.trans hother)
  refine ⟨hidle, hstates, hsame.records,
    unselected_of_not_due hnamed ((hsame.records.items id).trans hfound) ?_⟩
  rwa [(hsame.outer.respond .clock).1]

/-- After any operations, of which some ran an unfinished program, let nothing have been
refused in its last run, let its wallets still be found, let the clock read the time of that
run, and let one more advance leave the effect as it is.  Then running the program again,
however often, starts no step, tells the push server nothing and changes no record, and the
queue does not choose it when it looks for work.  How the records came to be what they were
before these operations does not matter, as long as that of the program, if there was one, was
read as it was written. -/
theorem rerun_changes_nothing {begun : Store} {turns : List Turn} {outer : σ}
    (hbegun : begun.Filed) (hintact : begun.Intact id) (hstill : host.Still)
    (hfound : (storeAfter turns begun).items.find? id = some item)
    (hopen : item.state.isDone = false) (hrun : lastRun id (logOf turns begun) ≠ [])
    (haccepted : ¬Refused (lastRun id (logOf turns begun)))
    (hwallets : ∀ wallet info,
      ⟨.outside (.walletInfo wallet), .ok info⟩ ∈ lastRun id (logOf turns begun) →
        ∃ found, (host.outside.respond (.walletInfo wallet) outer).1 = .ok found)
    (hclock : (host.outside.respond .clock outer).1 = item.state.lastRun)
    (hstays : ¬GoesOn host settings ⟨storeAfter turns begun, outer⟩ item) (count : Nat) :
    ChangesNothing settings host ⟨storeAfter turns begun, outer⟩ id item count := by
  have hfiled := (moves_free turns hbegun).filed hbegun
  cases hreadable : item.isReadable with
  | false =>
      refine changesNothing_of_idles hfiled.named hfound ?_ (fun h => ?_) count
      · refine idles_holding hstill ((idles_unreadable hfound hreadable none).imp ?_) fun _ => nofun
        rintro _ ⟨e, rfl⟩ state ⟨⟩
      · cases hreadable.symm.trans h
  | true =>
      have hsettled := settledWell_lastRun hbegun hintact hfound hreadable hopen hrun haccepted
      have hrests : Rests host settings ⟨storeAfter turns begun, outer⟩ id item :=
        { found := hfound
          keyed := (hfiled id item hfound).state
          readable := hreadable
          lasting := (moves_free turns hbegun).intact hbegun hintact item hfound
          unfinished := hopen
          stays := hstays
          listed := hsettled.listed
          timed := hsettled.timed
          looked := fun wallet hwallet =>
            (hsettled.found wallet hwallet).elim (hwallets wallet)
          reading := hclock }
      refine changesNothing_of_idles hfiled.named hfound ?_ (fun _ => ?_) count
      · refine idles_holding hstill ((hrests.idles_runHeld hstill).imp ?_) fun _ => nofun
        rintro _ rfl state ⟨⟩
        rfl
      · rw [hrests.reading]
        exact hrests.not_due hstill

/-- In a world in which all goes well, nothing is refused. -/
theorem granted_accepted (now : Int64) (maxSteps : Nat) (command : Command) (store : Store) :
    ¬Refused ((Turn.granted now maxSteps command).log store) := by
  rintro (⟨wallet, e, hmem⟩ | ⟨update, e, hmem⟩) <;>
  · obtain ⟨_, heq⟩ := Task.answer_of_mem_log hmem
    cases heq

/-- The errands once they have been begun: a payment, and a delay beside it. -/
def errandsWaiting : State :=
  ⟨errands.id, some (.par [.await (.txConfs "tx" "wallet" 1), .await (.unixtime 6000)]),
    ["errands:par_0"], 1000, 6000⟩

/-- The errands are begun and run three times more, while the payment is not seen and the
delay is not over. -/
theorem errands_change_nothing :
    let turns : List Turn := [.granted 1000 9 (.schedule errands)]
    let settings : Settings := ⟨"queue", 9, 300, none, 0⟩
    let item : Item := ⟨errands, errandsWaiting⟩
    let session : Session Unit := ⟨storeAfter turns .empty, ()⟩
    (Host.granting 1000).Still ∧ session.store.items.find? errands.id = some item ∧
      item.state.isDone = false ∧ lastRun errands.id (logOf turns .empty) ≠ [] ∧
      ¬Refused (lastRun errands.id (logOf turns .empty)) ∧
      ¬GoesOn (Host.granting 1000) settings session item ∧
      ChangesNothing settings (Host.granting 1000) session errands.id item 3 := by
  intro turns settings item session
  have hstill : (Host.granting 1000).Still :=
    ⟨fun _ _ _ => .refl _ (), fun _ => .refl _ ()⟩
  have hfound : session.store.items.find? errands.id = some item := rfl
  have haccepted : ¬Refused (lastRun errands.id (logOf turns .empty)) := by
    intro hrefused
    refine granted_accepted 1000 9 (.schedule errands) .empty ?_
    have hall := hrefused.weaken (lastRun_subset _ _)
    rwa [logOf, logOf, List.append_nil] at hall
  have hstays : ¬GoesOn (Host.granting 1000) settings session item := by
    unfold GoesOn
    decide +kernel
  have hrun : lastRun errands.id (logOf turns .empty) ≠ [] := by
    intro hnone
    cases hnone
  refine ⟨hstill, hfound, rfl, hrun, haccepted, hstays, ?_⟩
  exact rerun_changes_nothing .empty (.empty _) hstill hfound rfl hrun haccepted
    (fun wallet _ _ => ⟨⟨wallet, "bitcoin"⟩, rfl⟩) rfl hstays 3

end Queue

end ProgramQueue
