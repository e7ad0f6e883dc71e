import ProgramQueue.Proofs.Enrolments
import ProgramQueue.Proofs.Overlaps
import ProgramQueue.Proofs.Workspaces

/-!
# Maintaining a queue without running it

The tool stops programs, has the server told of their events, and deletes those that are
over, each with the command that is there for it.  Apart from that it changes nothing about
any program, whatever is stored and whatever the server answers, and it starts no step and
checks no condition.  But a record whose events are told is read from its text and written
again, and a rate in it that does not come back from a text is another afterwards.
-/

namespace ProgramQueue

/-- The record of a program that was stopped with a failure. -/
def Item.stopped (item : Item) (failure : Failure) : Item :=
  { item with state := { item.state with
      effect := some (.failed failure), nextRun := never, pushEventIds := [] } }

/-- What is told to the server in a log. -/
def Queue.Told (log : Log Queue.Surroundings) (update : Push.DeviceUpdate) : Prop :=
  ∃ answered ∈ log, answered.request = .push (.updateDevice update)

namespace Operator

open ProgramQueue.Task (Within Runs runs_run runs_pure runs_bind runs_bindExcept within_request
  within_bind within_bindExcept)
open ProgramQueue.Queue (Completes Told completes_bind completes_bindExcept completes_pure
  completes_store completes_attempt completes_throw completes_lock completes_unlock)

/-! ## What may become of a record -/

/-- The command looks programs up, or has nothing to do with them. -/
def Command.reads : Command → Bool
  | .cancel _ | .remove _ | .prune | .sync => false
  | _ => true

/-- What becomes of the record under an id.  It is kept; or it is that of a program that was
not over and was cancelled, or whose events were told to the server and recorded in what was
read of it; or it is dropped because its program was over. -/
inductive Treated (command : Option Command) (told : Push.DeviceUpdate → Prop) (id : String) :
    Option Item → Option Item → Prop
  | kept (record : Option Item) : Treated command told id record record
  | cancelled {item : Item} (hcommand : command = some (.cancel id))
      (hopen : item.state.isDone = false) :
      Treated command told id (some item) (some (item.stopped Queue.cancellation))
  | synced {item : Item} {update : Push.DeviceUpdate} (hcommand : command = some .sync)
      (hopen : item.state.isDone = false) (htold : told update)
      (htext : item.state.IsRegular →
        Kind.item.decode? (Kind.item.encode item) = some item.transcribed) :
      Treated command told id (some item)
        (some { item with state := item.state.transcribed.listing (update.idsOf id) })
  | dropped {item : Item} (hcommand : command = some (.remove id) ∨ command = some .prune)
      (hdone : item.state.isDone = true) : Treated command told id (some item) none

/-- The journal says only that the program that is named to be cancelled is stopped. -/
def Noted (command : Option Command) (entry : Note) : Prop :=
  ∃ id, command = some (.cancel id) ∧ entry = .terminate id Queue.cancellation

/-- What the server is told of in the messages that are attempted. -/
def Sent (requests : List WorkspaceRequest) (update : Push.DeviceUpdate) : Prop :=
  ∃ client : Push.Client,
    .network (.attempt (client.message Push.Client.devicePath update.toJson)) ∈ requests

/-- A command starts no step and checks no condition, for either would show in the journal.
Every record is treated as the command may treat it, and none is changed by a command that
reads, or that makes no transaction with a store. -/
structure Spares (command : Option Command) (before : Files) (requests : List WorkspaceRequest)
    (after : Files) : Prop where
  notes : ∀ entry, .note entry ∈ requests → Noted command entry
  records : ∀ place id, Treated command (Sent requests) id (before.record? place id)
    (after.record? place id)
  unreached : command.all Command.reads = true ∨
      (∀ location request, .store location request ∉ requests) →
    after.record? = before.record?

variable {σ α : Type} {host : Host σ} {site later : Site σ} {command : Option Command}
  {before middle after : Files} {requests : List WorkspaceRequest} {id : String}

theorem Treated.imp {told more : Push.DeviceUpdate → Prop} {record treated : Option Item}
    (h : Treated command told id record treated) (hmore : ∀ update, told update → more update) :
    Treated command more id record treated := by
  cases h with
  | kept => exact .kept _
  | cancelled hcommand hopen => exact .cancelled hcommand hopen
  | synced hcommand hopen htold htext => exact .synced hcommand hopen (hmore _ htold) htext
  | dropped hcommand hdone => exact .dropped hcommand hdone

/-- Where the journal is not kept and every record is where it was, nothing has happened. -/
theorem spares_of_same (hnotes : ∀ entry, .note entry ∉ requests)
    (hsame : after.record? = before.record?) : Spares command before requests after where
  notes entry hentry := absurd hentry (hnotes entry)
  records place id := by
    rw [hsame]
    exact .kept _
  unreached _ := hsame

theorem not_note_of_lookups (hlookups : ∀ request ∈ requests, request.IsLookup) (entry : Note) :
    .note entry ∉ requests := fun hentry => nomatch hlookups _ hentry

/-- A task that only looks things up spares everything. -/
theorem spares_looked {task : Task Workspace α} {value : α}
    (h : task.Within WorkspaceRequest.IsLookup)
    (hruns : task.Runs host.world site requests value later) :
    Spares command site.files requests later.files :=
  spares_of_same (not_note_of_lookups (h.runs hruns)) (record?_looked h hruns)

/-- Lookups may come before. -/
theorem Spares.after_lookups {first : List WorkspaceRequest}
    (h : Spares command middle requests after) (hlookups : ∀ request ∈ first, request.IsLookup)
    (hsame : middle.record? = before.record?) :
    Spares command before (first ++ requests) after where
  notes entry hentry := by
    obtain hfirst | hlater := List.mem_append.1 hentry
    · cases hlookups _ hfirst
    · exact h.notes entry hlater
  records place id := by
    rw [← hsame]
    exact (h.records place id).imp fun _ ⟨client, hsent⟩ =>
      ⟨client, List.mem_append_right first hsent⟩
  unreached hunreached := by
    refine (h.unreached (hunreached.imp_right ?_)).trans hsame
    exact fun hnone location request hmem => hnone location request (List.mem_append_right _ hmem)

/-! ## Operations that maintain a store -/

section Operations

variable {settings : Settings} {store stored : Store} {log : Log Queue.Surroundings}

/-- What a command of the tool does to a store by way of an operation of the queue. -/
structure Maintains (command : Command) (store : Store) (log : Log Queue.Surroundings)
    (stored : Store) : Prop where
  notes : ∀ entry ∈ Queue.journal log, Noted (some command) entry
  records : ∀ id, Treated (some command) (Told log) id (store.items.find? id)
    (stored.items.find? id)

/-- A log without entries of the journal, after which every record is where it was. -/
theorem maintains_same {command : Command} (hnotes : Queue.journal log = [])
    (hsame : Store.Same store stored) : Maintains command store log stored where
  notes := by
    rw [hnotes]
    exact List.forall_mem_nil _
  records id := by
    rw [hsame.items]
    exact .kept _

theorem journal_silent (h : Queue.Silent log) : Queue.journal log = [] :=
  Queue.journal_settling (h.settling : ∀ entry ∈ log, Queue.Request.Settling [] [] _)

/-- What is stored of a program that is terminated can be read, and it is stored in full. -/
theorem Terminates.stopped {failure : Failure} (h : Queue.Terminates id failure store log stored) :
    ∃ item, store.items.find? id = some item ∧ item.state.isDone = false ∧
      Store.Puts id (item.stopped failure) store stored := by
  obtain ⟨hfound, hreadable, hopen, rfl, -, hputs⟩ := h
  refine ⟨_, hfound, hopen, ?_⟩
  rw [Item.settled, if_pos] at hputs
  · exact hputs
  · refine (Item.isReadable_iff _).2 ⟨((Item.isReadable_iff _).1 hreadable).1, ?_⟩
    exact Nat.le_trans (Nat.le_of_eq (Effect.depth_failed failure)) (by decide)

theorem cancel_maintains {result : Except Error State} (hkeyed : store.Keyed)
    (h : Completes (Queue.cancel settings id) store log result stored) :
    Maintains (.cancel id) store log stored := by
  obtain ⟨hquiet, -⟩ | ⟨opening, held, began, ended, rfl, hopening, hheld, hsame⟩ :=
    Queue.holding_cases h
  · exact maintains_same (journal_silent hquiet.silent) hquiet.same
  have hclosed : Queue.Silent [⟨.store (.release id settings.owner), ()⟩, ⟨.unlock id, ()⟩] :=
    (Queue.silent_singleton rfl).append (Queue.silent_singleton rfl)
  have howner (item : Item) (hfound : began.items.find? id = some item) :
      item.state.programId = id := (hkeyed id item (hopening.same.items id ▸ hfound)).2
  obtain hquiet | ⟨quiet, terminating, rfl, hsilent, hterminates⟩ :=
    Queue.terminateHeld_cases howner hheld
  · exact maintains_same
      (journal_silent (hopening.silent.append (hquiet.silent.append hclosed)))
      ((hopening.same.trans hquiet.same).trans hsame)
  obtain ⟨-, -, -, hjournal, -⟩ := hterminates.journal
  obtain ⟨item, hfound, hopen, hputs⟩ := Terminates.stopped hterminates
  constructor
  · intro entry hentry
    simp only [Queue.journal_append, journal_silent hopening.silent, journal_silent hsilent,
      journal_silent hclosed, hjournal, List.nil_append, List.append_nil,
      List.mem_singleton] at hentry
    exact ⟨id, rfl, hentry⟩
  · intro other
    have hputs := (hopening.same.puts hputs).same hsame
    by_cases hother : other = id
    · rw [hother, hputs.self, ← hopening.same.items, hfound]
      exact .cancelled rfl hopen
    · rw [hputs.other hother]
      exact .kept _

/-- Programs that are over and were chosen were dropped, and no other record has changed. -/
def Sheds (chosen : String → Prop) (store stored : Store) : Prop :=
  ∀ id, stored.items.find? id = store.items.find? id ∨ chosen id ∧
    (∃ item, store.items.find? id = some item ∧ item.state.isDone = true) ∧
    stored.items.find? id = none

theorem Sheds.refl (chosen : String → Prop) (store : Store) : Sheds chosen store store :=
  fun _ => Or.inl rfl

theorem Sheds.trans {chosen : String → Prop} {between : Store}
    (hfirst : Sheds chosen store between) (hlater : Sheds chosen between stored) :
    Sheds chosen store stored := by
  intro id
  obtain hsame | ⟨hchosen, hdone, hgone⟩ := hfirst id
  · have hagain := hlater id
    rwa [hsame] at hagain
  · obtain hstill | ⟨-, ⟨item, hfound, -⟩, -⟩ := hlater id
    · exact Or.inr ⟨hchosen, hdone, hstill.trans hgone⟩
    · cases hgone.symm.trans hfound

theorem removeLocked_sheds {result : Except Error Item}
    (h : Completes (Queue.removeLocked id).run store log result stored) :
    Sheds (· = id) store stored := by
  obtain ⟨e, -, hget⟩ | ⟨quiet, item, between, rest, rfl, hget, hrest⟩ :=
    completes_bindExcept.1 h
  · obtain ⟨rfl, -, -⟩ := Queue.getExisting_cases hget
    exact .refl _ _
  obtain ⟨rfl, -, hitem⟩ := Queue.getExisting_cases hget
  obtain ⟨stored, hfound, -, rfl⟩ := hitem item rfl
  split at hrest
  · rename_i hdone
    rw [Item.transcribed_state, State.isDone_transcribed] at hdone
    obtain ⟨-, heq⟩ := completes_store.1 (completes_attempt.1 hrest)
    obtain ⟨-, rfl⟩ := Prod.mk.inj heq
    obtain ⟨_, -, -, hdrops⟩ | ⟨-, hsame⟩ := Store.remove_cases id between
    · intro other
      by_cases hother : other = id
      · rw [hother]
        refine Or.inr ⟨rfl, ⟨stored, hfound, hdone⟩, ?_⟩
        exact (hdrops.items id).trans (if_pos rfl)
      · exact Or.inl (hdrops.other hother)
    · intro other
      exact Or.inl (congrArg (·.items.find? other) hsame)
  · obtain ⟨-, -, rfl⟩ := completes_throw.1 hrest
    exact .refl _ _

theorem remove_sheds {result : Except Error Item}
    (h : Completes (Queue.remove id) store log result stored) : Sheds (· = id) store stored := by
  obtain ⟨_, _, _, _, rfl, hlock, hrest⟩ := completes_bind.1 h
  obtain ⟨-, rfl⟩ := completes_lock.1 hlock
  obtain ⟨_, _, _, _, rfl, hremove, hrest⟩ := completes_bind.1 hrest
  obtain ⟨_, _, _, _, rfl, hunlock, hdone⟩ := completes_bind.1 hrest
  obtain ⟨-, rfl⟩ := completes_unlock.1 hunlock
  obtain ⟨-, -, rfl⟩ := completes_pure.1 hdone
  exact removeLocked_sheds hremove

theorem removeEach_sheds {ids : List String} {result : Except Error Unit}
    (h : Completes (Queue.removeEach ids) store log result stored) :
    Sheds (fun _ => True) store stored := by
  induction ids generalizing store log with
  | nil =>
      obtain ⟨-, -, rfl⟩ := completes_pure.1 h
      exact .refl _ _
  | cons id rest ih =>
      obtain ⟨_, answer, between, _, rfl, hremove, hrest⟩ := completes_bind.1 h
      have hfirst : Sheds (fun _ => True) store between := fun other =>
        (remove_sheds hremove other).imp_right fun ⟨_, hgone⟩ => ⟨trivial, hgone⟩
      cases answer with
      | error e =>
          obtain ⟨-, -, rfl⟩ := completes_pure.1 hrest
          exact hfirst
      | ok item => exact hfirst.trans (ih hrest)

theorem prune_sheds {result : Except Error (List String)}
    (h : Completes Queue.prune store log result stored) : Sheds (fun _ => True) store stored := by
  obtain ⟨_, answer, between, _, rfl, hlist, hrest⟩ := completes_bind.1 h
  obtain ⟨-, heq⟩ := completes_store.1 hlist
  obtain ⟨-, rfl⟩ := Prod.mk.inj heq
  cases answer with
  | error e =>
      obtain ⟨-, -, rfl⟩ := completes_pure.1 hrest
      exact .refl _ _
  | ok entries =>
      obtain ⟨_, _, _, _, rfl, hremoved, hdone⟩ := completes_bind.1 hrest
      obtain ⟨-, -, rfl⟩ := completes_pure.1 hdone
      exact removeEach_sheds hremoved

/-- Deleting writes nothing into the journal. -/
theorem maintains_sheds {command : Command} {chosen : String → Prop} {operation : Queue.Operation α}
    {value : α} (hdeletes : operation.Within Queue.Request.IsDeleting)
    (hchosen : ∀ id, chosen id → some command = some (.remove id) ∨ some command = some .prune)
    (h : Completes operation store log value stored) (hsheds : Sheds chosen store stored) :
    Maintains command store log stored where
  notes entry hentry := by
    obtain ⟨answered, hanswered, heq⟩ := List.mem_filterMap.1 hentry
    have hdeleting := hdeletes.follows h.follows answered hanswered
    obtain ⟨request, answer⟩ := answered
    cases hdeleting <;> cases heq
  records id := by
    obtain hsame | ⟨hid, ⟨item, hfound, hdone⟩, hgone⟩ := hsheds id
    · rw [hsame]
      exact .kept _
    · rw [hfound, hgone]
      exact .dropped (hchosen id hid) hdone

theorem registerDevice_maintains {identity : DeviceIdentity} {result : Except Error Push.Device}
    (hkeyed : store.Keyed)
    (h : Completes (Queue.registerDevice settings identity) store log result stored) :
    Maintains .sync store log stored where
  notes entry hentry := by
    obtain ⟨answered, hanswered, heq⟩ := List.mem_filterMap.1 hentry
    have hregistering := (Queue.within_registerDevice settings identity).follows h.follows
      answered hanswered
    obtain ⟨request, answer⟩ := answered
    cases hregistering with
    | inquiry h => cases h <;> cases heq
    | list => cases heq
    | record => cases heq
  records id := by
    have hnamed : store.Named := fun id item hfound => (hkeyed id item hfound).1
    cases Queue.enrols_of_named hnamed h with
    | failed => exact .kept _
    | @sent asked recording _ _ update device _ _ _ _ _ _ hrecords =>
        have hrecord := hrecords id
        have htold : Told (⟨.store .list, .ok store.listed⟩ ::
            (asked ++ ⟨.push (.updateDevice update), .ok device⟩ :: recording)) update :=
          ⟨_, List.mem_cons_of_mem _ (List.mem_append_right _ List.mem_cons_self), rfl⟩
        generalize store.items.find? id = record, stored.items.find? id = treated at hrecord
        cases hrecord with
        | absent => exact .kept _
        | finished => exact .kept _
        | missed => exact .kept _
        | told hopen _ htext => exact .synced rfl hopen htold htext

end Operations

/-! ## Commands -/

/-- Every record stands under the id of its program and of its state, as all do that a queue
has stored. -/
def Files.Keyed (files : Files) : Prop :=
  ∀ place id item, files.record? place id = some item →
    item.program.id = id ∧ item.state.programId = id

variable {opened : OpenQueue} {place : Place} {store stored : Store} {name : Command}
  {log : Log Queue.Surroundings}

theorem Holds.keyed {location : String} (h : Holds site location place store)
    (hkeyed : site.files.Keyed) : store.Keyed := fun id item hfound =>
  hkeyed place id item ((h.record? id).trans hfound)

/-- What an operation does to the open store is done to the files. -/
theorem Passes.spares (hpasses : Passes opened place site store log requests later stored)
    (h : Holds site opened.location place store) (hmaintains : Maintains name store log stored)
    (hreads : name.reads = false) : Spares (some name) site.files requests later.files where
  notes entry hentry := by
    obtain ⟨answered, hanswered, heq⟩ := hpasses.shows.notes entry hentry
    refine hmaintains.notes entry (List.mem_filterMap.2 ⟨answered, hanswered, ?_⟩)
    rw [heq]
    rfl
  records other id := by
    by_cases hother : other = place
    · rw [hother, h.record? id, hpasses.holds.record? id]
      refine (hmaintains.records id).imp ?_
      rintro update ⟨answered, hanswered, heq⟩
      exact ⟨opened.client, hpasses.shows.updates answered hanswered update heq⟩
    · rw [Files.record?, Files.record?, Files.store?, Files.store?, hpasses.others other hother]
      exact .kept _
  unreached hunreached := by
    obtain hall | hnone := hunreached
    · cases hreads.symm.trans hall
    have hothers : ∀ answered ∈ log, ∀ own, answered.request ≠ .store own :=
      fun answered hanswered own heq =>
        hnone _ _ (hpasses.shows.stores answered hanswered own heq)
    obtain rfl := (Queue.serves_others hothers).1 hpasses.serves
    funext other id
    by_cases hother : other = place
    · rw [hother, h.record? id, hpasses.holds.record? id]
    · rw [Files.record?, Files.record?, Files.store?, Files.store?, hpasses.others other hother]

/-- A command that carries out an operation and reports on it. -/
theorem carryOut_spares {operation : Queue.Operation (Except Error α)} {say : α → String}
    {result : Except Problem String} (h : Holds site opened.location place store)
    (hreads : name.reads = false)
    (hmaintains : ∀ log value stored, Completes operation store log value stored →
      Maintains name store log stored)
    (hruns : (opened.carryOut operation >>= fun value => pure (say value)).run.Runs host.world
      site requests result later) : Spares (some name) site.files requests later.files := by
  have hcarried {requests : List WorkspaceRequest} {result : Except Problem α} {later : Site σ}
      (hruns : (opened.carryOut operation).run.Runs host.world site requests result later) :
      Spares (some name) site.files requests later.files := by
    obtain ⟨value, -, hthrough⟩ := runs_orProblem.1 hruns
    obtain ⟨log, stored, hfollows, hpasses⟩ := through_passes h hthrough
    exact hpasses.spares h (hmaintains log value stored ⟨hfollows, hpasses.serves⟩) hreads
  obtain ⟨_, -, herror⟩ | ⟨_, _, _, _, rfl, hfirst, hlast⟩ := runs_bindExcept.1 hruns
  · exact hcarried herror
  · obtain ⟨rfl, -, rfl⟩ := runs_pure.1 hlast
    rw [List.append_nil]
    exact hcarried hfirst

theorem runs_ofAttempt {attempt : Attempt String} {report : Report}
    (hruns : (Report.ofAttempt attempt).Runs host.world site requests report later) :
    ∃ result, attempt.run.Runs host.world site requests result later := by
  obtain ⟨_, result, _, _, rfl, hattempt, hreport⟩ := runs_bind.1 hruns
  cases result <;>
  · obtain ⟨rfl, -, rfl⟩ := runs_pure.1 hreport
    rw [List.append_nil]
    exact ⟨_, hattempt⟩

/-- A command on the open queue spares what it does not treat, if it does once the queue is
open. -/
theorem onQueue_spares {caller : Caller} {root : String} {act : OpenQueue → Attempt String}
    {report : Report} (hkeyed : site.files.Keyed)
    (hact : ∀ opened site place store requests result later,
      Holds (σ := σ) site opened.location place store → store.Keyed →
      (act opened).run.Runs host.world site requests result later →
      Spares (some name) site.files requests later.files)
    (hruns : (onQueue caller root act).Runs host.world site requests report later) :
    Spares (some name) site.files requests later.files := by
  obtain ⟨result, hattempt⟩ := runs_ofAttempt hruns
  have hbelow := looks_below root caller.owner
  obtain ⟨_, -, herror⟩ | ⟨first, opened, begun, _, rfl, hopen, hlater⟩ :=
    runs_bindExcept.1 hattempt
  · exact spares_looked hbelow herror
  · obtain ⟨place, store, hholds⟩ := below_holds hopen
    have hsame := record?_looked hbelow hopen
    have hkeyed' : store.Keyed := hholds.keyed fun place id item hfound =>
      hkeyed place id item (hsame ▸ hfound)
    exact (hact _ _ _ _ _ _ _ hholds hkeyed' hlater).after_lookups (hbelow.runs hopen) hsame

theorem spares_setUp {root : String} {report : Report}
    (hruns : (setUp root).Runs host.world site requests report later) :
    Spares command site.files requests later.files := by
  obtain ⟨_, result, _, _, rfl, hmade, hreport⟩ := runs_bind.1 hruns
  have hquiet : (makeConfig root).run.Within fun request : WorkspaceRequest =>
      ∀ entry, request ≠ .note entry := by
    refine within_bindExcept (within_orProblem (within_request nofun)) fun _ => ?_
    refine within_bindExcept (within_ask nofun) fun isThere => ?_
    cases isThere with
    | true => trivial
    | false => exact within_bindExcept (within_orProblem (within_request nofun)) fun _ => trivial
  have hspares : Spares command site.files _ _ := spares_of_same
    (fun entry hentry => hquiet.runs hmade _ hentry entry rfl) (record?_makeConfig hmade)
  split at hreport <;>
  · obtain ⟨rfl, -, rfl⟩ := runs_pure.1 hreport
    rwa [List.append_nil]

/-- Whatever is asked of the tool, it spares the programs that are stored. -/
theorem performAt_spares {caller : Caller} {root : String} {json : Bool} {report : Report}
    (hkeyed : site.files.Keyed)
    (hruns : (performAt caller root json name).Runs host.world site requests report later) :
    Spares (some name) site.files requests later.files := by
  have hlooks {act : OpenQueue → Attempt String}
      (hact : ∀ opened, (act opened).run.Within WorkspaceRequest.IsLookup)
      (hruns : (onQueue caller root act).Runs host.world site requests report later) :
      Spares (some name) site.files requests later.files :=
    spares_looked (looks_ofAttempt (within_bindExcept (looks_below _ _) hact)) hruns
  cases name with
  | init => exact spares_setUp hruns
  | list => exact hlooks (fun opened => looks_listPrograms opened json) hruns
  | showProgram id => exact hlooks (fun opened => looks_showProgram opened id json) hruns
  | recover => exact hlooks (fun opened => looks_recoverClaims opened json) hruns
  | showConfig => exact spares_looked (looks_ofAttempt (looks_showConfig root json)) hruns
  | validateConfig => exact spares_looked (looks_validateConfig root json) hruns
  | cancel id =>
      refine onQueue_spares hkeyed ?_ hruns
      intro opened site place store requests result later hholds hkeyed hruns
      exact carryOut_spares hholds rfl (fun _ _ _ h => cancel_maintains hkeyed h) hruns
  | remove id =>
      refine onQueue_spares hkeyed ?_ hruns
      intro opened site place store requests result later hholds hkeyed hruns
      refine carryOut_spares hholds rfl (fun _ _ _ h => ?_) hruns
      exact maintains_sheds (Queue.deletes_remove id) (fun _ heq => Or.inl (by rw [heq])) h
        (remove_sheds h)
  | prune =>
      refine onQueue_spares hkeyed ?_ hruns
      intro opened site place store requests result later hholds hkeyed hruns
      refine carryOut_spares hholds rfl (fun _ _ _ h => ?_) hruns
      exact maintains_sheds Queue.deletes_prune (fun _ _ => Or.inr rfl) h (prune_sheds h)
  | sync =>
      refine onQueue_spares hkeyed ?_ hruns
      intro opened site place store requests result later hholds hkeyed hruns
      rw [syncDevice] at hruns
      split at hruns
      · obtain ⟨rfl, -, rfl⟩ := runs_pure.1 hruns
        exact spares_of_same (fun _ => List.not_mem_nil) rfl
      · obtain ⟨rfl, -, rfl⟩ := runs_pure.1 hruns
        exact spares_of_same (fun _ => List.not_mem_nil) rfl
      · exact carryOut_spares hholds rfl (fun _ _ _ h => registerDevice_maintains hkeyed h) hruns

theorem perform_spares {caller : Caller} {invocation : Invocation} {report : Report}
    (hkeyed : site.files.Keyed)
    (hruns : (perform caller invocation).Runs host.world site requests report later) :
    Spares (some invocation.command) site.files requests later.files := by
  obtain ⟨_, root, _, _, rfl, hroot, hperform⟩ := runs_bind.1 hruns
  have hlooks := looks_rootOf caller invocation
  have hsame := record?_looked hlooks hroot
  refine (performAt_spares ?_ hperform).after_lookups (hlooks.runs hroot) hsame
  exact fun place id item hfound => hkeyed place id item (hsame ▸ hfound)

/-- Records stay under the ids of their programs. -/
theorem Spares.keyed (h : Spares command before requests after) (hkeyed : before.Keyed) :
    after.Keyed := by
  intro place id item hfound
  have hrecord := h.records place id
  rw [hfound] at hrecord
  generalize hrecorded : before.record? place id = record at hrecord
  have howned (other : Item) (hother : record = some other) :
      other.program.id = id ∧ other.state.programId = id :=
    hkeyed place id other (hrecorded.trans hother)
  cases hrecord with
  | kept => exact howned item rfl
  | @cancelled stored => exact howned stored rfl
  | @synced stored => exact howned stored rfl

/-! ## Calls of the tool -/

/-- One call of the tool. -/
structure Call where
  caller : Caller
  arguments : List String

namespace Call

/-- The command that the arguments name, if they name one. -/
def command? (call : Call) : Option Command :=
  match Invocation.parse? call.caller.usualRoot call.arguments with
  | some (.perform invocation) => some invocation.command
  | _ => none

def run (call : Call) (host : Host σ) (site : Site σ) : Run Workspace (Site σ) Outcome :=
  (Operator.run call.caller call.arguments).run host.world site

theorem spares (call : Call) (host : Host σ) (hkeyed : site.files.Keyed) :
    Spares call.command? site.files (call.run host site).requests
      (call.run host site).state.files := by
  have hruns := runs_run host.world (Operator.run call.caller call.arguments) site
  change (Operator.run call.caller call.arguments).Runs host.world site
    (call.run host site).requests (call.run host site).value (call.run host site).state at hruns
  generalize call.run host site = ran at hruns
  have hquiet {outcome : Outcome}
      (h : (pure outcome : Task Workspace Outcome).Runs host.world site ran.requests ran.value
        ran.state) : Spares call.command? site.files ran.requests ran.state.files := by
    obtain ⟨hnone, -, hstate⟩ := runs_pure.1 h
    rw [hnone, hstate]
    exact spares_of_same (fun _ => List.not_mem_nil) rfl
  rw [Operator.run] at hruns
  cases hparse : Invocation.parse? call.caller.usualRoot call.arguments with
  | none =>
      rw [hparse] at hruns
      exact hquiet hruns
  | some request =>
      rw [hparse] at hruns
      cases request with
      | usage => exact hquiet hruns
      | version name => exact hquiet hruns
      | perform invocation =>
          obtain ⟨first, report, _, _, hrequests, hperform, hlast⟩ := runs_bind.1 hruns
          obtain ⟨rfl, -, hstate⟩ := runs_pure.1 hlast
          rw [command?, hparse, hrequests, List.append_nil, hstate]
          exact perform_spares hkeyed hperform

end Call

/-- The site after some calls. -/
def siteAfter (host : Host σ) : List Call → Site σ → Site σ
  | [], site => site
  | call :: rest, site => siteAfter host rest (call.run host site).state

/-- Every call spares what is stored when it is made. -/
def SparesEach (host : Host σ) : List Call → Site σ → Prop
  | [], _ => True
  | call :: rest, site =>
      Spares call.command? site.files (call.run host site).requests
          (call.run host site).state.files ∧
        SparesEach host rest (call.run host site).state

/-- One of the calls names the command. -/
def Called (calls : List Call) (command : Command) : Prop :=
  ∃ call ∈ calls, call.command? = some command

/-- How many of the calls have the server told. -/
def syncs (calls : List Call) : Nat := calls.countP fun call => call.command? = some .sync

/-- What has become of the record under an id after some calls.  Programs stay what they
are; whatever else has changed was asked for, but for the rates of a program that was not
over, which were read from their texts some times. -/
inductive Fate (calls : List Call) (id : String) : Option Item → Option Item → Prop
  | absent : Fate calls id none none
  | gone {item : Item} (hcalled : Called calls (.remove id) ∨ Called calls .prune)
      (hover : item.state.isDone = true ∨ Called calls (.cancel id)) :
      Fate calls id (some item) none
  | stands {item last : Item} (times : Nat) (hprogram : last.program = item.program)
      (heffect : last.state.effect = item.state.effect.map Effect.transcribed^[times] ∨
        item.state.isDone = false ∧ Called calls (.cancel id) ∧
          last.state.effect = some (.failed Queue.cancellation))
      (htimes : times ≤ syncs calls) (hover : item.state.isDone = true → times = 0)
      (hevents : last.state.pushEventIds = item.state.pushEventIds ∨
        Called calls (.cancel id) ∨ Called calls .sync) :
      Fate calls id (some item) (some last)

variable {calls : List Call} {call : Call} {record treated last : Option Item}

theorem Called.cons (h : Called calls name) : Called (call :: calls) name := by
  obtain ⟨other, hother, hnamed⟩ := h
  exact ⟨other, List.mem_cons_of_mem _ hother, hnamed⟩

theorem syncs_cons : syncs calls ≤ syncs (call :: calls) :=
  (List.sublist_cons_self call calls).countP_le

theorem Fate.cons (h : Fate calls id record last) : Fate (call :: calls) id record last := by
  cases h with
  | absent => exact .absent
  | gone hcalled hover =>
      exact .gone (hcalled.imp Called.cons Called.cons) (hover.imp_right Called.cons)
  | stands times hprogram heffect htimes hover hevents =>
      refine .stands times hprogram (heffect.imp_right ?_) (htimes.trans syncs_cons) hover
        (hevents.imp_right (Or.imp Called.cons Called.cons))
      exact fun ⟨hopen, hcalled, hfailed⟩ => ⟨hopen, hcalled.cons, hfailed⟩

/-- The fate of a record is settled call by call. -/
theorem Treated.fate {told : Push.DeviceUpdate → Prop}
    (h : Treated call.command? told id record treated) (hfate : Fate calls id treated last) :
    Fate (call :: calls) id record last := by
  have hnow {name : Command} (hcommand : call.command? = some name) :
      Called (call :: calls) name := ⟨call, List.mem_cons_self, hcommand⟩
  cases h with
  | kept => exact hfate.cons
  | cancelled hcommand hopen =>
      cases hfate with
      | gone hcalled hover =>
          exact .gone (hcalled.imp Called.cons Called.cons) (Or.inr (hnow hcommand))
      | stands times hprogram heffect _ hover hevents =>
          obtain rfl := hover rfl
          refine .stands 0 hprogram (Or.inr ⟨hopen, hnow hcommand, ?_⟩) (Nat.zero_le _)
            (fun _ => rfl) (Or.inr (Or.inl (hnow hcommand)))
          exact heffect.elim (fun hsame => hsame) fun ⟨_, _, hfailed⟩ => hfailed
  | @synced item _ hcommand hopen htold htext =>
      have hagain : syncs (call :: calls) = syncs calls + 1 := by
        rw [syncs, List.countP_cons, if_pos (decide_eq_true hcommand), syncs]
      cases hfate with
      | gone hcalled hover =>
          refine .gone (hcalled.imp Called.cons Called.cons) (hover.imp ?_ Called.cons)
          exact fun hdone => (State.isDone_transcribed _).symm.trans hdone
      | stands times hprogram heffect htimes hover hevents =>
          refine .stands (times + 1) hprogram (heffect.imp ?_ ?_)
            (hagain.symm ▸ Nat.succ_le_succ htimes) (fun hdone => ?_)
            (Or.inr (Or.inr (hnow hcommand)))
          · intro heffect
            rw [Function.iterate_succ, ← Option.map_map]
            exact heffect
          · exact fun ⟨_, hcalled, hfailed⟩ => ⟨hopen, hcalled.cons, hfailed⟩
          · cases hopen.symm.trans hdone
  | dropped hcommand hdone =>
      cases hfate
      exact .gone (hcommand.imp hnow hnow) (Or.inl hdone)

/-- An effect whose rates all come back from their texts changes only if its program is
cancelled. -/
theorem Fate.effect_kept {item last : Item} (h : Fate calls id (some item) (some last))
    (hkept : item.state.current.transcribed = item.state.current) :
    last.state.effect = item.state.effect ∨ item.state.isDone = false ∧
      Called calls (.cancel id) ∧ last.state.effect = some (.failed Queue.cancellation) := by
  cases h with
  | stands times _ heffect =>
      refine heffect.imp_left fun heq => heq.trans ?_
      cases hgiven : item.state.effect with
      | none => rfl
      | some effect =>
          rw [State.current, hgiven, Option.getD_some] at hkept
          rw [Option.map_some, Function.iterate_fixed hkept]

/-- However often the tool is called, with whatever arguments and whatever the network
answers, no call starts a step or checks a condition, and programs change only as they were
asked to, apart from rates that do not come back from their texts. -/
theorem calls_spare_programs (host : Host σ) (calls : List Call) (site : Site σ)
    (hkeyed : site.files.Keyed) :
    SparesEach host calls site ∧ ∀ place id, Fate calls id (site.files.record? place id)
      ((siteAfter host calls site).files.record? place id) := by
  induction calls generalizing site with
  | nil =>
      refine ⟨trivial, fun place id => ?_⟩
      change Fate [] id _ (site.files.record? place id)
      cases site.files.record? place id with
      | none => exact .absent
      | some item =>
          exact .stands 0 rfl (Or.inl Option.map_id'.symm) (Nat.le_refl _) (fun _ => rfl)
            (Or.inl rfl)
  | cons call rest ih =>
      have hspares := call.spares host hkeyed
      obtain ⟨hrest, hfates⟩ := ih (call.run host site).state (hspares.keyed hkeyed)
      exact ⟨⟨hspares, hrest⟩, fun place id => (hspares.records place id).fate (hfates place id)⟩

/-- Nobody listens on the network. -/
def Host.unheard : Host Unit where
  network := ⟨fun
    | .attempt _, _ => (.error .refused, ())
    | .pause _, _ => ((), ())⟩
  clock _ := (0, ())

/-- A configuration with a store below it. -/
def housing (config : String) (store : Store) : Site Unit where
  folder := []
  files :=
    { folders := [[".aq"]]
      files := [(["config.yaml", ".aq"], .text config), (["queue.db", ".aq"], .store store)] }
  outer := ()

theorem housing_keyed {config : String} (hkeyed : store.Keyed) :
    (housing config store).files.Keyed := by
  have hstore (place : Place) : (housing config store).files.store? place = none ∨
      (housing config store).files.store? place = some store := by
    simp only [housing, Files.store?, Files.content?, List.find?_cons, List.find?_nil]
    by_cases hconfig : ["config.yaml", ".aq"] = place
    · simp [hconfig]
    · by_cases hqueue : ["queue.db", ".aq"] = place
      · simp [hconfig, hqueue]
      · simp [hconfig, hqueue]
  intro place id item hfound
  obtain hnone | hsome := hstore place
  · rw [Files.record?, hnone] at hfound
    cases hfound
  · rw [Files.record?, hsome] at hfound
    exact hkeyed id item hfound

/-- A payment that is watched by the server, next to messages that were never run. -/
def tended : Site Unit := housing Config.usual.print (Queue.besidePayment Queue.messages)

/-- The payment is cancelled, and what is over is deleted. -/
def tending : List Call :=
  [⟨⟨"aq-1", "/", none⟩, ["cancel", "payment"]⟩, ⟨⟨"aq-2", "/", none⟩, ["prune", "--json"]⟩]

theorem tended_keyed : tended.files.Keyed := by
  refine housing_keyed fun id item hfound => ?_
  have hitem := Queue.besidePayment_filed Queue.messages id item hfound
  exact ⟨hitem.program, hitem.state⟩

/-- Neither call runs anything, and the payment has gone only as it was asked to. -/
theorem tended_spared : tended.files.Keyed ∧ SparesEach Host.unheard tending tended ∧
    ∀ place id, Fate tending id (tended.files.record? place id)
      ((siteAfter Host.unheard tending tended).files.record? place id) :=
  ⟨tended_keyed, calls_spare_programs Host.unheard tending tended tended_keyed⟩

/-- What is sent over the network arrives. -/
def Host.attentive : Host Unit where
  network := ⟨fun
    | .attempt _, _ => (.ok ⟨200, ""⟩, ())
    | .pause _, _ => ((), ())⟩
  clock _ := (0, ())

/-- A message that waits for a rate, and the name of a device. -/
def awaiting : Site Unit :=
  housing "device:\n  device_token: token\n"
    ⟨Table.empty.insert "p1" Item.priced, Table.empty, []⟩

/-- Once the server was told of its events, the program waits for another rate. -/
theorem awaiting_slips :
    let call : Call := ⟨⟨"aq-1", "/", none⟩, ["sync"]⟩
    let stored (site : Site Unit) := (site.files.record? ["queue.db", ".aq"] "p1").map (·.state)
    call.command? = some .sync ∧ stored awaiting = some Item.priced.state ∧
      stored (call.run Host.attentive awaiting).state =
        some (Item.priced.state.transcribed.listing ["p1:root"]) ∧
      Item.priced.state.transcribed.effect ≠ Item.priced.state.effect := by
  decide +kernel

end Operator

end ProgramQueue
