import ProgramQueue.Proofs.Bystanders
import ProgramQueue.Proofs.Messages

/-!
# Programs that are over

A program that succeeded, failed or was cancelled stays as it was stored, and nothing is
done on its behalf any more, until it is deleted.  Its id is then refused for ever, and
events of it that still fire are ignored.
-/

namespace ProgramQueue

/-- If the record can be read and its program is over, no event of it is listed and it is
not to be run again. -/
def Item.IsClosed (item : Item) : Prop :=
  item.isReadable = true → item.state.isDone = true →
    item.state.pushEventIds = [] ∧ item.state.nextRun = never

theorem Item.closed_of_open {item : Item} (hopen : item.state.isDone = false) :
    item.IsClosed :=
  fun _ hdone => by cases hopen.symm.trans hdone

namespace Queue

variable {terms : Terms} {before after : Store} {log : Log Surroundings}
  {settings : Settings} {id : String} {item : Item}

/-! ## What is stored of a program that is over -/

def Closed (store : Store) : Prop :=
  ∀ id item, store.items.find? id = some item → item.IsClosed

theorem Closed.puts (h : Closed before) (hputs : Store.Puts id item before after)
    (hitem : item.IsClosed) : Closed after := by
  intro other found hfound
  rw [hputs.items] at hfound
  split at hfound
  · cases hfound
    exact hitem
  · exact h other found hfound

theorem Closed.same (h : Closed before) (hsame : Store.Same before after) : Closed after :=
  fun other found hfound => h other found ((hsame.items other).symm.trans hfound)

theorem Ran.closed {fired : Option String} {final : State} (hclosed : Closed before)
    (h : Ran settings id fired before log final after) : Closed after := by
  cases h with
  | @intro _ item state _ _ _ _ hfound hreadable hopen hdrives hsettles hputs =>
      refine hclosed.puts hputs fun hreadable hdone => ?_
      rw [Item.settled_eq hreadable] at hdone ⊢
      have hstate : state.isDone = true := by
        rwa [State.isDone, State.current, ← hsettles.state.2]
      cases hsettles with
      | finished => exact ⟨rfl, rfl⟩
      | missed hopen | refused hopen | registered hopen => cases hopen.symm.trans hstate

theorem Terminates.closed {failure : Failure} (hclosed : Closed before)
    (h : Terminates id failure before log after) : Closed after := by
  obtain ⟨hfound, -, -, rfl, -, hputs⟩ := h
  refine hclosed.puts hputs fun hreadable _ => ?_
  rw [Item.settled_eq hreadable]
  exact ⟨rfl, rfl⟩

theorem Deed.closed (hclosed : Closed before) (h : Deed terms id before log after) :
    Closed after := by
  cases h with
  | insert _ _ _ hputs => exact hclosed.puts hputs (Item.closed_of_open rfl)
  | run _ _ _ hran hsame => exact (hran.closed hclosed).same hsame
  | terminate hterminates => exact hterminates.closed hclosed
  | record _ _ _ _ hopen hputs =>
      exact hclosed.puts hputs (Item.closed_of_open ((State.isDone_transcribed _).trans hopen))
  | remove _ _ _ hdrops =>
      intro other found hfound
      rw [hdrops.items] at hfound
      split at hfound
      · cases hfound
      · exact hclosed other found hfound

theorem Moves.closed (hclosed : Closed before) (h : Moves terms before log after) :
    Closed after := by
  induction h with
  | nil => exact hclosed
  | cons move _ ih =>
      cases move with
      | quiet hquiet => exact ih (hclosed.same hquiet.same)
      | deed hdeed => exact ih (hdeed.closed hclosed)

theorem closed_storeAfter (turns : List Turn) : Closed (storeAfter turns .empty) :=
  (moves_free turns .empty).closed fun _ _ hfound => by cases hfound

/-! ## Commands that address a program -/

/-- The program that a command is about. -/
def Command.target? : Command → Option String
  | schedule program => some program.id
  | run id => some id
  | cancel id => some id
  | triggerFired event => Push.programIdOf? event
  | _ => none

/-- With the program stored as it is, an operation asks none of the others for anything,
leaves the program, and comes to a value that is wanted. -/
def Privately {α : Type} (id : String) (item : Item) (wanted : α → Prop)
    (operation : Operation α) : Prop :=
  ∀ before log value after, before.items.find? id = some item →
    Completes operation before log value after →
      wanted value ∧ after.items.find? id = some item ∧ ∀ entry ∈ log, ¬entry.request.IsRemote

section Rules

variable {α β : Type} {wanted : α → Prop}

theorem privately_pure {value : α} (h : wanted value) :
    Privately id item wanted (pure value) := by
  intro before log result after hfound hpure
  obtain ⟨rfl, rfl, rfl⟩ := completes_pure.1 hpure
  exact ⟨h, hfound, List.forall_mem_nil _⟩

theorem privately_bind {final : β → Prop} {operation : Operation α} {next : α → Operation β}
    (hfirst : Privately id item wanted operation)
    (hnext : ∀ value, wanted value → Privately id item final (next value)) :
    Privately id item final (operation >>= next) := by
  intro before log result after hfound h
  obtain ⟨first, value, middle, later, rfl, hbegin, hend⟩ := completes_bind.1 h
  obtain ⟨hvalue, hmiddle, hasked⟩ := hfirst _ _ _ _ hfound hbegin
  obtain ⟨hresult, hlast, hmore⟩ := hnext value hvalue _ _ _ _ hmiddle hend
  exact ⟨hresult, hlast, List.forall_mem_append.2 ⟨hasked, hmore⟩⟩

theorem privately_request (request : Request) (hprivate : ¬request.IsRemote)
    (hother : ∀ own, request ≠ .store own) :
    Privately id item (fun _ => True) (Task.request (I := Surroundings) request) := by
  intro before log answer after hfound h
  obtain ⟨rfl, rfl⟩ := (completes_request hother).1 h
  exact ⟨trivial, hfound, List.forall_mem_singleton.2 hprivate⟩

theorem privately_kept (request : Store.Request) (hkeeps : request.keepsItems = true) :
    Privately id item (fun _ => True) (store request) := by
  intro before log answer after hfound h
  obtain ⟨rfl, hsame⟩ := completes_kept hkeeps h
  exact ⟨trivial, (hsame.items id).trans hfound, List.forall_mem_singleton.2 nofun⟩

theorem privately_get (hreadable : item.isReadable = true) :
    Privately id item (fun value => value = .ok (some item.transcribed)) (store (.get id)) := by
  intro before log answer after hfound h
  obtain ⟨rfl, heq⟩ := completes_store.1 h
  obtain ⟨rfl, rfl⟩ := Prod.mk.inj heq
  refine ⟨?_, hfound, List.forall_mem_singleton.2 nofun⟩
  simp [Store.get_eq, hfound, Item.reread, hreadable, Except.map]

end Rules

/-- The id of a program that is stored is refused. -/
theorem privately_insert {program : Program} :
    Privately program.id item (fun value => ∃ e, value = .error e) (store (.insert program)) := by
  intro before log answer after hfound h
  obtain ⟨rfl, heq⟩ := completes_store.1 h
  have heq : before.insert program = (answer, after) := heq
  obtain ⟨hnone, -⟩ | ⟨-, hrefused⟩ := before.insert_cases program
  · cases hfound.symm.trans hnone
  · obtain ⟨rfl, rfl⟩ := Prod.mk.inj (heq.symm.trans hrefused)
    exact ⟨⟨_, rfl⟩, hfound, List.forall_mem_singleton.2 nofun⟩

/-- A program that is over is held for a moment and let go. -/
theorem privately_holding (hreadable : item.isReadable = true) {next : Item → Attempt State}
    (hnext : next item.transcribed = pure item.transcribed.state) :
    Privately id item (fun _ => True)
      (holding settings id (getExisting id >>= next).run) := by
  have hget : Privately id item (fun value => value = .ok item.transcribed)
      (getExisting id).run := by
    refine privately_bind (privately_get hreadable) ?_
    rintro _ rfl
    exact privately_pure rfl
  have hheld : Privately id item (fun _ => True) (getExisting id >>= next).run := by
    refine privately_bind hget ?_
    rintro _ rfl
    change Privately id item _ (next item.transcribed).run
    rw [hnext]
    exact privately_pure trivial
  have hunlocked (result : Except Error State) : Privately id item (fun _ => True)
      (do unlock id; return result) :=
    privately_bind (privately_request (.unlock id) nofun nofun) fun _ _ => privately_pure trivial
  refine privately_bind (privately_request (.lock id) nofun nofun) fun _ _ => ?_
  refine privately_bind (privately_request .wallClock nofun nofun) fun now _ => ?_
  refine privately_bind (privately_kept (.tryClaim id _ now _) rfl) fun claimed _ => ?_
  match claimed with
  | .ok true =>
      refine privately_bind hheld fun result _ => ?_
      exact privately_bind (privately_kept (.release id _) rfl) fun _ _ => hunlocked result
  | .ok false => exact hunlocked _
  | .error e => exact hunlocked _

/-- Commands that address a program which is over ask none of the others for anything. -/
theorem privately_addressed (hreadable : item.isReadable = true)
    (hdone : item.state.isDone = true) {command : Command} (htarget : command.target? = some id) :
    Privately id item (fun _ => True) (command.operation settings) := by
  have hread : item.transcribed.state.isDone = true := item.state.isDone_transcribed.trans hdone
  have hover {operation : Operation (Except Error State)}
      (h : Privately id item (fun _ => True) operation) :
      Privately id item (fun _ => True) (do let _ ← operation : Operation Unit) :=
    privately_bind h fun _ _ => privately_pure trivial
  cases command with
  | schedule program =>
      obtain rfl := Option.some.inj htarget
      refine hover (privately_bind privately_insert ?_)
      rintro _ ⟨e, rfl⟩
      exact privately_pure trivial
  | run key =>
      obtain rfl := Option.some.inj htarget
      exact hover (privately_holding hreadable (if_pos hread))
  | cancel key =>
      obtain rfl := Option.some.inj htarget
      exact hover (privately_holding hreadable (if_pos hread))
  | triggerFired event =>
      refine privately_bind ?_ fun (_ : Except Error (Option State)) (_ : True) =>
        privately_pure trivial
      unfold onTriggerFired
      rw [show Push.programIdOf? event = some id from htarget]
      refine privately_bind (privately_get hreadable) ?_
      rintro _ rfl
      change Privately id item _ (if item.transcribed.state.isDone then _ else _)
      rw [if_pos hread]
      exact privately_pure trivial
  | poll | resumeDue | registerDevice | remove | prune | recover => cases htarget

/-! ## Programs that are over, and programs that were deleted -/

/-- What there is to say of a program that is over, as long as nothing is deleted. -/
structure Final (id : String) (item : Item) (store : Store) : Prop where
  events : item.state.pushEventIds = []
  nextRun : item.state.nextRun = never
  /-- A command that addresses it asks neither the collaborators nor the push server. -/
  unasked : ∀ turn : Turn, turn.command.target? = some id →
    ∀ entry ∈ turn.log store, ¬entry.request.IsRemote
  unchanged : ∀ later : List Turn, (∀ turn ∈ later, turn.command.removes = false) →
    (storeAfter later store).items.find? id = some item
  /-- The journal says nothing of it, and the push server is told nothing of its events. -/
  foreign : ∀ later : List Turn, (∀ turn ∈ later, turn.command.removes = false) →
    ∀ entry ∈ logOf later store, entry.request.IsForeign id
  /-- The world outside is asked for the same as without it. -/
  uncalled : ∀ later : List Turn, (∀ turn ∈ later, turn.command.removes = false) →
    calls (logOf later (store.without id)) = calls (logOf later store)

theorem keeps_history {later : List Turn} (h : ∀ turn ∈ later, turn.command.removes = false)
    (store : Store) : ∀ entry ∈ logOf later store, entry.request.Keeps := by
  intro entry hentry
  obtain ⟨turn, hturn, begun, hmem⟩ := mem_logOf hentry
  exact turn.keeps_programs (h turn hturn) begun entry hmem

theorem final_of_done {store : Store} (hfiled : store.Filed) (hclosed : Closed store)
    (hfound : store.items.find? id = some item) (hreadable : item.isReadable = true)
    (hdone : item.state.isDone = true) : Final id item store := by
  obtain ⟨hevents, hnext⟩ := hclosed id item hfound hreadable hdone
  have hpasses (later : List Turn) (hkeeps : ∀ turn ∈ later, turn.command.removes = false) :=
    history_passes (fun turn hturn => passesBy_done hreadable hdone (hkeeps turn hturn))
      (keyed_of_filed hfiled) hfound
  refine ⟨hevents, hnext, fun turn htarget => ?_, fun later hkeeps => (hpasses later hkeeps).1,
    fun later hkeeps => ?_, fun later hkeeps => (hpasses later hkeeps).2.2⟩
  · exact (privately_addressed hreadable hdone htarget _ _ _ _ hfound (turn.completes store)).2.2
  · exact ((moves_free later hfiled).foreign_done hfiled (keeps_history hkeeps store) hfound
      hdone).requests

/-- What there is to say of a program that was deleted. -/
structure Gone (id : String) (store : Store) : Prop where
  absent : ∀ later : List Turn, (storeAfter later store).items.find? id = none
  foreign : ∀ later : List Turn, ∀ entry ∈ logOf later store, entry.request.IsForeign id
  /-- Its id is refused. -/
  refused : ∀ (later : List Turn) (turn : Turn) (program : Program), program.id = id →
    turn.command = .schedule program →
      turn.log (storeAfter later store) =
          [⟨.store (.insert program), .error (.programExists id)⟩] ∧
        turn.after (storeAfter later store) = storeAfter later store
  /-- An event that was built for it is looked up, and nothing else happens. -/
  ignored : ∀ (later : List Turn) (turn : Turn) (place : Path),
    turn.command = .triggerFired (Push.eventId id place.text) →
      turn.log (storeAfter later store) = [⟨.store (.get id), .ok none⟩] ∧
        turn.after (storeAfter later store) = storeAfter later store

theorem gone_of_retired {store : Store} (hfiled : store.Filed) (hnone : store.items.find? id = none)
    (hretired : id ∈ store.retired) : Gone id store := by
  have hforeign (later : List Turn) := (moves_free later hfiled).foreign_deleted hfiled hnone hretired
  refine ⟨fun later => (hforeign later).found.trans hnone, fun later => (hforeign later).requests,
    fun later turn program hid hcommand => ?_, fun later turn place hcommand => ?_⟩
  · have hrefused : (storeAfter later store).insert program =
        (.error (.programExists id), storeAfter later store) := by
      subst hid
      rw [Store.insert_eq, if_pos (Or.inl ((hforeign later).retired.2 hretired))]
    have hturn := turn.completes (storeAfter later store)
    rw [hcommand] at hturn
    obtain ⟨_, _, _, _, hlog, hschedule, hover⟩ := completes_bind.1 hturn
    obtain ⟨rfl, -, hlast⟩ := completes_pure.1 hover
    obtain ⟨_, answer, inserted, _, rfl, hinsert, hrest⟩ := completes_bind.1 hschedule
    obtain ⟨rfl, heq⟩ := completes_store.1 hinsert
    obtain ⟨rfl, rfl⟩ := Prod.mk.inj (hrefused.symm.trans heq)
    obtain ⟨rfl, -, rfl⟩ := completes_pure.1 hrest
    exact ⟨hlog, hlast⟩
  · have hget : (storeAfter later store).get id = .ok none := by
      rw [Store.get_eq, (hforeign later).found, hnone]
    have hturn := turn.completes (storeAfter later store)
    rw [hcommand] at hturn
    obtain ⟨_, _, _, _, hlog, htrigger, hover⟩ := completes_bind.1 hturn
    obtain ⟨rfl, -, hlast⟩ := completes_pure.1 hover
    unfold onTriggerFired at htrigger
    rw [Push.programIdOf?_eventId] at htrigger
    obtain ⟨_, answer, found, _, rfl, hfound, hrest⟩ := completes_bind.1 htrigger
    obtain ⟨rfl, heq⟩ := completes_store.1 hfound
    obtain ⟨hanswer, rfl⟩ := Prod.mk.inj heq
    obtain rfl : .ok none = answer := hget.symm.trans hanswer
    obtain ⟨rfl, -, rfl⟩ := completes_pure.1 hrest
    exact ⟨hlog, hlast⟩

/-- Once a program is over, whether it succeeded, failed or was cancelled, nothing of it is
registered and nothing more is done on its behalf; only a command that deletes can delete it,
and it has to be over; after that its id is refused and its events are ignored.  The message
of a program that has completed is shown once at most, and only if the program succeeded. -/
theorem done_is_final (turns : List Turn) :
    (∀ id item, (storeAfter turns .empty).items.find? id = some item →
      item.isReadable = true → item.state.isDone = true →
        Final id item (storeAfter turns .empty)) ∧
      (∀ id item (turn : Turn), (storeAfter turns .empty).items.find? id = some item →
        (turn.after (storeAfter turns .empty)).items.find? id = none →
          turn.command.removes = true ∧ item.state.isDone = true ∧
            Gone id (turn.after (storeAfter turns .empty))) ∧
      ∃ states : List State, shown (logOf turns .empty) .resting = states.map some ∧
        (∀ state ∈ states, state.isDone = true ∧ state.current.failure? = none) ∧
        (states.map (·.programId)).Nodup := by
  have hfiled := filed_storeAfter turns
  refine ⟨fun id item hfound hreadable hdone => ?_, fun id item turn hfound hnone => ?_, ?_⟩
  · exact final_of_done hfiled (closed_storeAfter turns) hfound hreadable hdone
  · obtain ⟨hremoves, hdone, hretired⟩ := turn.deletes_done hfiled hfound hnone
    have hfiled' := (turn.moves_free hfiled).filed hfiled
    exact ⟨hremoves, hdone, gone_of_retired hfiled' hnone hretired⟩
  · obtain ⟨states, hshown, hsucceeded, honce⟩ := history_shows turns
    refine ⟨states, hshown, fun state hstate => ?_, honce⟩
    obtain ⟨hdone, hnone⟩ := Bool.and_eq_true_iff.1 (hsucceeded state hstate)
    exact ⟨hdone, Option.isNone_iff_eq_none.1 hnone⟩

/-- Says hello, and then that it has. -/
def greeting : Program :=
  ⟨"greeting", .step (.toast "hello") none, some ⟨"greeting", "said hello"⟩⟩

def greetingTurns : List Turn := [.granted 1000 9 (.schedule greeting)]

/-- The greeting is over at once, and its message is shown; then it is deleted. -/
theorem greeting_is_final : ∃ item,
    (storeAfter greetingTurns .empty).items.find? greeting.id = some item ∧
      item.state = ⟨greeting.id, some .completed, [], 1000, never⟩ ∧
      Final greeting.id item (storeAfter greetingTurns .empty) ∧
      shown (logOf greetingTurns .empty) .resting =
        [some ⟨greeting.id, some .completed, [], 1000, never⟩] ∧
      Gone greeting.id ((Turn.granted 2000 9 .prune).after (storeAfter greetingTurns .empty)) := by
  have hstate : ((storeAfter greetingTurns .empty).items.find? greeting.id).map Item.state =
      some ⟨greeting.id, some .completed, [], 1000, never⟩ := by
    decide +kernel
  have hreadable : ((storeAfter greetingTurns .empty).items.find? greeting.id).all
      Item.isReadable = true := by
    decide +kernel
  have hdeleted : (((Turn.granted 2000 9 .prune).after
      (storeAfter greetingTurns .empty)).items.find? greeting.id).isNone = true := by
    decide +kernel
  obtain ⟨item, hfound, hitem⟩ := Option.map_eq_some_iff.1 hstate
  rw [hfound] at hreadable
  have hdone : item.state.isDone = true := by
    rw [hitem]
    rfl
  obtain ⟨hfinal, hgone, -⟩ := done_is_final greetingTurns
  refine ⟨item, hfound, hitem, hfinal _ item hfound hreadable hdone, by decide +kernel, ?_⟩
  exact (hgone _ item _ hfound (Option.isNone_iff_eq_none.1 hdeleted)).2.2

end Queue

end ProgramQueue
