import ProgramQueue.Proofs.Runs

/-!
# Moves

An operation of the queue, however long, is a chain of moves, each of which concerns one
program at most: a program is inserted, run, terminated or removed, or its events are
recorded.  What every move keeps is kept by every operation.
-/

namespace ProgramQueue

/-- The record of a program with other events listed. -/
def State.listing (state : State) (ids : List String) : State := { state with pushEventIds := ids }

@[simp]
theorem State.transcribed_listing (state : State) (ids : List String) :
    (state.listing ids).transcribed = state.transcribed.listing ids := rfl

/-- Which events are listed makes no difference to what a text keeps. -/
theorem State.transcribed_congr {state other : State} (h : state.listing [] = other.listing []) :
    state.transcribed = state ↔ other.transcribed = other := by
  have hcurrent : (state.listing []).current = (other.listing []).current :=
    congrArg State.current h
  have hcurrent : state.current = other.current := hcurrent
  rw [transcribed_eq_self, transcribed_eq_self, hcurrent]

namespace Queue

/-- What may happen in a history. -/
structure Terms where
  /-- Programs may be run with these settings. -/
  settings : Settings → Prop
  /-- Events may be recorded that were sent with the identity of the device. -/
  recording : Prop

def Terms.free : Terms := ⟨fun _ => True, True⟩

/-- What can happen to one program. -/
inductive Deed (terms : Terms) : String → Store → Log Surroundings → Store → Prop
  | insert {before after : Store} {program : Program} (answer : Except Error Item)
      (hnone : before.items.find? program.id = none) (hunused : program.id ∉ before.retired)
      (hputs : Store.Puts program.id (Item.fresh program) before after) :
      Deed terms program.id before [⟨.store (.insert program), answer⟩] after
  /-- A run, after which the claim is dropped. -/
  | run {before middle after : Store} {settings : Settings} {id : String}
      {fired : Option String} {log : Log Surroundings} {final : State} (owner : String)
      (hsettings : terms.settings settings)
      (hfired : ∀ event ∈ fired, Push.programIdOf? event = some id)
      (hran : Ran settings id fired before log final middle)
      (hsame : Store.Same middle after) :
      Deed terms id before (log ++ [⟨.store (.release id owner), ()⟩]) after
  | terminate {before after : Store} {id : String} {failure : Failure}
      {log : Log Surroundings} (h : Terminates id failure before log after) :
      Deed terms id before log after
  | record {before after : Store} {id : String} {item : Item} {change : State → State}
      (answer : Except Error State) (hrecording : terms.recording)
      (hfound : before.items.find? id = some item) (hreadable : item.isReadable = true)
      (hopen : item.state.isDone = false)
      (hputs : Store.Puts id { item with
        state := item.state.transcribed.listing (item.program.wantedIds item.state.current) }
          before after) :
      Deed terms id before [⟨.store (.update id change), answer⟩] after
  | remove {before after : Store} {id : String} {item : Item} (answer : Except Error Item)
      (hfound : before.items.find? id = some item) (hdone : item.state.isDone = true)
      (hdrops : Store.Drops id before after) :
      Deed terms id before [⟨.store (.remove id), answer⟩] after

/-- One move: nothing happens to any program, or something to one. -/
inductive Move (terms : Terms) : Store → Log Surroundings → Store → Prop
  | quiet {before after : Store} {log : Log Surroundings} (h : Quiet before log after) :
      Move terms before log after
  | deed {before after : Store} {log : Log Surroundings} {id : String}
      (h : Deed terms id before log after) : Move terms before log after

inductive Moves (terms : Terms) : Store → Log Surroundings → Store → Prop
  | nil (store : Store) : Moves terms store [] store
  | cons {before middle after : Store} {first later : Log Surroundings}
      (move : Move terms before first middle) (rest : Moves terms middle later after) :
      Moves terms before (first ++ later) after

variable {terms : Terms} {before middle after : Store} {log : Log Surroundings}
  {settings : Settings} {program : Program} {id : String}

theorem Moves.single (h : Move terms before log after) : Moves terms before log after := by
  have := Moves.cons h (.nil after)
  rwa [List.append_nil] at this

/-- Where all that is asked is quiet, nothing has happened to any program. -/
theorem Moves.silent (h : Silent log) : Moves terms before log before :=
  .single (.quiet ⟨h, .refl _⟩)

theorem Moves.append {first later : Log Surroundings} (hfirst : Moves terms before first middle)
    (hlater : Moves terms middle later after) :
    Moves terms before (first ++ later) after := by
  induction hfirst with
  | nil => exact hlater
  | cons move _ ih =>
      rw [List.append_assoc]
      exact .cons move (ih hlater)

/-! ## Records stay under their ids -/

/-- A wanted event is the event of a place where the program waits. -/
theorem mem_wantedIds {effect : Effect} {event : String}
    (h : event ∈ program.wantedIds effect) :
    ∃ place, event = Push.eventId program.id place.text ∧
      place ∉ program.action.unstarted effect := by
  obtain ⟨result, hresult, rfl⟩ := List.mem_map.1 h
  obtain ⟨entry, hentry, rfl⟩ :=
    Program.mem_plannedResults.1 (List.mem_of_mem_filter hresult)
  obtain ⟨below, hplace, hbelow⟩ := (Action.isEntry_of_mem _ hentry).started
  rw [List.nil_append] at hplace
  exact ⟨below, by rw [hplace], hbelow⟩

theorem programIdOf?_wantedIds {effect : Effect} {event : String}
    (h : event ∈ program.wantedIds effect) :
    Push.programIdOf? event = some program.id := by
  obtain ⟨place, rfl, -⟩ := mem_wantedIds h
  exact Push.programIdOf?_eventId program.id place

theorem mem_spendEvent {fired : Option String} {state : State} {event : String}
    (h : event ∈ (spendEvent fired state).pushEventIds) : event ∈ state.pushEventIds := by
  cases fired with
  | none => exact h
  | some id => exact List.mem_of_mem_filter h

theorem spendEvent_transcribed (fired : Option String) (state : State) :
    spendEvent fired state.transcribed = (spendEvent fired state).transcribed := by
  cases fired <;> rfl

/-- Settling leaves the events that a program had, or those that it wants, or none. -/
theorem Settles.events {state final : State} (h : Settles settings program state log final) :
    final.pushEventIds = state.pushEventIds ∨
      final.pushEventIds = program.wantedIds state.current ∨ final.pushEventIds = [] := by
  cases h with
  | finished => exact Or.inr (Or.inr rfl)
  | missed => exact Or.inl rfl
  | refused => exact Or.inl rfl
  | registered => exact Or.inr (Or.inl rfl)

theorem Ran.filed {fired : Option String} {final : State} (hfiled : before.Filed)
    (h : Ran settings id fired before log final after) : after.Filed := by
  obtain ⟨-, hfound, -, -, hdrives, hsettles, hputs⟩ := h
  have hitem := hfiled _ _ hfound
  obtain ⟨hid, hids⟩ := hdrives.state
  rw [Item.transcribed_state, spendEvent_transcribed] at hids
  have hevents : ∀ event ∈ (spendEvent fired _).pushEventIds,
      Push.programIdOf? event = some id := fun event hevent =>
    hitem.events event (mem_spendEvent hevent)
  refine hfiled.puts hputs (.settled ⟨hitem.program, hid.trans hitem.state, ?_⟩
    ⟨hitem.program, (hsettles.state.1.trans hid).trans hitem.state, ?_⟩)
  · simpa only [hids, State.transcribed_pushEventIds] using hevents
  · obtain heq | heq | heq := hsettles.events
    · simpa only [heq, hids, State.transcribed_pushEventIds] using hevents
    · simp only [heq]
      intro event hevent
      rw [programIdOf?_wantedIds hevent, hitem.program]
    · simp [heq]

theorem Terminates.filed {failure : Failure} (hfiled : before.Filed)
    (h : Terminates id failure before log after) : after.Filed := by
  obtain ⟨hfound, -, -, rfl, -, hputs⟩ := h
  have hitem := hfiled _ _ hfound
  exact hfiled.puts hputs (.settled ⟨hitem.program, hitem.state, hitem.events⟩
    ⟨hitem.program, hitem.state, nofun⟩)

theorem Deed.filed (hfiled : before.Filed) (h : Deed terms id before log after) :
    after.Filed := by
  cases h with
  | insert _ _ _ hputs => exact hfiled.puts hputs ⟨rfl, rfl, nofun⟩
  | run _ _ _ hran hsame => exact (hran.filed hfiled).same hsame
  | terminate h => exact h.filed hfiled
  | record _ _ hfound _ _ hputs =>
      have hitem := hfiled _ _ hfound
      refine hfiled.puts hputs ⟨hitem.program, hitem.state, fun event hevent => ?_⟩
      rw [programIdOf?_wantedIds hevent, hitem.program]
  | remove _ _ _ hdrops => exact hfiled.drops hdrops

/-! ## Records that their texts keep -/

theorem Ran.intact {fired : Option String} {final : State} (hintact : before.Intact id)
    (h : Ran settings id fired before log final after) : after.Intact id := by
  obtain ⟨-, hfound, -, -, hdrives, hsettles, hputs⟩ := h
  rw [hintact _ hfound] at hdrives
  have hstate := hdrives.transcribed (hintact _ hfound)
  refine hputs.intact ?_
  unfold Item.settled
  split
  · exact congrArg (Item.mk _) (hsettles.transcribed hstate)
  · exact congrArg (Item.mk _) hstate

/-- What happens to a program brings no rate into its record. -/
theorem Deed.intact (hintact : before.Intact id) (h : Deed terms id before log after) :
    after.Intact id := by
  cases h with
  | insert _ _ _ hputs => exact hputs.intact rfl
  | run _ _ _ hran hsame => exact (hran.intact hintact).same hsame
  | terminate h =>
      obtain ⟨-, -, -, rfl, -, hputs⟩ := h
      refine hputs.intact ?_
      unfold Item.settled
      split <;> rfl
  | record _ _ hfound _ _ hputs =>
      have hstate := hintact.state hfound
      rw [hstate] at hputs
      refine hputs.intact ?_
      rw [Item.transcribed, State.transcribed_listing, hstate]
  | remove _ _ _ hdrops =>
      intro item hitem
      rw [hdrops.items, if_pos rfl] at hitem
      cases hitem

/-! ## Chains of moves -/

theorem Move.filed (hfiled : before.Filed) (h : Move terms before log after) :
    after.Filed := by
  cases h with
  | quiet h => exact hfiled.same h.same
  | deed h => exact h.filed hfiled

theorem Moves.filed (hfiled : before.Filed) (h : Moves terms before log after) :
    after.Filed := by
  induction h with
  | nil => exact hfiled
  | cons move _ ih => exact ih (move.filed hfiled)

/-! ## Operations are chains of moves -/

/-- However an operation completes, it is a chain of moves. -/
def MadeOfMoves {α : Type} (terms : Terms) (operation : Operation α) : Prop :=
  ∀ before log value after, before.Filed → Completes operation before log value after →
    Moves terms before log after

section Rules

variable {α β : Type}

theorem made_pure (value : α) : MadeOfMoves terms (pure value) := by
  intro before log result after _ h
  obtain ⟨rfl, rfl, rfl⟩ := completes_pure.1 h
  exact .nil _

theorem made_bind {operation : Operation α} {next : α → Operation β}
    (hfirst : MadeOfMoves terms operation)
    (hnext : ∀ value, MadeOfMoves terms (next value)) :
    MadeOfMoves terms (operation >>= next) := by
  intro before log result after hfiled h
  obtain ⟨first, value, middle, later, rfl, hbegin, hend⟩ := completes_bind.1 h
  have hmoves := hfirst _ _ _ _ hfiled hbegin
  exact hmoves.append (hnext value _ _ _ _ (hmoves.filed hfiled) hend)

theorem made_bindExcept {attempt : Attempt α} {next : α → Attempt β}
    (hfirst : MadeOfMoves terms attempt.run)
    (hnext : ∀ value, MadeOfMoves terms (next value).run) :
    MadeOfMoves terms (attempt >>= next).run := by
  intro before log result after hfiled h
  obtain ⟨e, -, herror⟩ | ⟨first, value, middle, later, rfl, hbegin, hend⟩ :=
    completes_bindExcept.1 h
  · exact hfirst _ _ _ _ hfiled herror
  · have hmoves := hfirst _ _ _ _ hfiled hbegin
    exact hmoves.append (hnext value _ _ _ _ (hmoves.filed hfiled) hend)

theorem made_lift {operation : Operation α} (h : MadeOfMoves terms operation) :
    MadeOfMoves terms (ExceptT.lift operation : Attempt α).run := by
  intro before log result after hfiled hlift
  obtain ⟨value, -, hvalue⟩ := completes_lift.1 hlift
  exact h _ _ _ _ hfiled hvalue

theorem made_request {request : Request} (hquiet : request.isQuiet = true)
    (hother : ∀ own, request ≠ .store own) :
    MadeOfMoves terms (Task.request (I := Surroundings) request) := by
  intro before log answer after _ h
  obtain ⟨rfl, rfl⟩ := (completes_request hother).1 h
  exact .silent (silent_singleton hquiet)

theorem completes_kept {request : Store.Request} {answer : request.Answer}
    (hkeeps : request.keepsItems = true)
    (h : Completes (store request) before log answer after) :
    log = [⟨.store request, answer⟩] ∧ Store.Same before after := by
  obtain ⟨rfl, heq⟩ := completes_store.1 h
  obtain ⟨-, rfl⟩ := Prod.mk.inj heq
  exact ⟨rfl, Store.respond_same hkeeps before⟩

theorem made_store {request : Store.Request} (hkeeps : request.keepsItems = true) :
    MadeOfMoves terms (store request) := by
  intro before log answer after _ h
  obtain ⟨rfl, hsame⟩ := completes_kept hkeeps h
  exact .single (.quiet ⟨silent_singleton rfl, hsame⟩)

/-- What stands for requests to the collaborators is quiet. -/
theorem silent_asked {inner : Log Outside} (h : Asked inner log) : Silent log := by
  intro entry hentry
  obtain ⟨_, -, rfl⟩ := mem_asked h hentry
  rfl

theorem made_outside (task : Task Outside α) : MadeOfMoves terms (outside task) := by
  intro before log value after _ h
  obtain ⟨rfl, inner, hasked, -⟩ := completes_outside h
  exact .silent (silent_asked hasked)

end Rules

theorem made_insert (program : Program) :
    MadeOfMoves terms (store (.insert program)) := by
  intro before log answer after _ h
  obtain ⟨rfl, heq⟩ := completes_store.1 h
  obtain ⟨-, rfl⟩ := Prod.mk.inj heq
  obtain ⟨hnone, hunused, -, hputs⟩ | ⟨-, hrefused⟩ := before.insert_cases program
  · exact .single (.deed (.insert answer hnone hunused hputs))
  · change Moves terms before _ (before.insert program).2
    rw [hrefused]
    exact .silent (silent_singleton rfl)

/-- A task is carried out between the claim of a program and its release; or the claim is
not granted, and nothing is done at all. -/
theorem completes_holding {α : Type} {task : Operation (Except Error α)}
    {result : Except Error α}
    (h : Completes (holding settings id task) before log result after) :
    (∃ now answer e, log = [⟨.lock id, ()⟩, ⟨.wallClock, now⟩,
        ⟨.store (.tryClaim id settings.owner now settings.lockTtl), answer⟩, ⟨.unlock id, ()⟩] ∧
        result = .error e ∧ after = before) ∨
      ∃ now held began ended, log = ⟨.lock id, ()⟩ :: ⟨.wallClock, now⟩ ::
          ⟨.store (.tryClaim id settings.owner now settings.lockTtl), .ok true⟩ :: (held ++
            [⟨.store (.release id settings.owner), ()⟩, ⟨.unlock id, ()⟩]) ∧
        before.tryClaim id settings.owner now settings.lockTtl = (.ok true, began) ∧
        Completes task began held result ended ∧
        after = ended.release id settings.owner := by
  obtain ⟨_, _, _, _, rfl, hlock, hdated⟩ := completes_bind.1 h
  obtain ⟨rfl, hlocked⟩ := completes_lock.1 hlock
  obtain ⟨_, now, _, _, rfl, hnow, hclaimed⟩ := completes_bind.1 hdated
  obtain ⟨rfl, hread⟩ := completes_wallClock.1 hnow
  obtain ⟨_, claimed, began, _, rfl, hclaim, hrest⟩ := completes_bind.1 hclaimed
  rw [hread, hlocked] at hclaim
  obtain ⟨rfl, hanswer⟩ := completes_store.1 hclaim
  have hunlocked {result' : Except Error α} {log : Log Surroundings}
      (h : Completes (do unlock id; return result') began log result after) :
      log = [⟨.unlock id, ()⟩] ∧ result = result' ∧ after = began := by
    obtain ⟨_, _, _, _, rfl, hunlock, hdone⟩ := completes_bind.1 h
    obtain ⟨rfl, rfl⟩ := completes_unlock.1 hunlock
    obtain ⟨rfl, rfl, rfl⟩ := completes_pure.1 hdone
    exact ⟨rfl, rfl, rfl⟩
  have hanswer : before.tryClaim id settings.owner now settings.lockTtl = (claimed, began) :=
    hanswer
  have hrefused (hnot : claimed ≠ .ok true) : began = before := by
    have hsame := Store.tryClaim_denied fun heq => hnot ((congrArg Prod.fst hanswer).symm.trans heq)
    rwa [hanswer] at hsame
  match claimed with
  | .ok true =>
      obtain ⟨held, value, ended, _, rfl, htask, hclose⟩ := completes_bind.1 hrest
      obtain ⟨_, _, released, _, rfl, hrelease, hlast⟩ := completes_bind.1 hclose
      obtain ⟨rfl, hreleased⟩ := completes_store.1 hrelease
      obtain ⟨_, _, _, _, rfl, hunlock, hdone⟩ := completes_bind.1 hlast
      obtain ⟨rfl, rfl⟩ := completes_unlock.1 hunlock
      obtain ⟨rfl, rfl, rfl⟩ := completes_pure.1 hdone
      exact Or.inr ⟨now, held, began, ended, by simp, hanswer, htask,
        (Prod.mk.inj hreleased).2.symm⟩
  | .ok false =>
      obtain ⟨rfl, rfl, rfl⟩ := hunlocked hrest
      exact Or.inl ⟨now, _, _, rfl, rfl, hrefused nofun⟩
  | .error e =>
      obtain ⟨rfl, rfl, rfl⟩ := hunlocked hrest
      exact Or.inl ⟨now, _, _, rfl, rfl, hrefused nofun⟩

/-- A program is held while a task runs, or the task is not run at all. -/
theorem holding_cases {α : Type} {task : Operation (Except Error α)}
    {result : Except Error α}
    (h : Completes (holding settings id task) before log result after) :
    (Quiet before log after ∧ ∃ e, result = .error e) ∨
      ∃ opening held began ended, log = opening ++ (held ++
          [⟨.store (.release id settings.owner), ()⟩, ⟨.unlock id, ()⟩]) ∧
        Quiet before opening began ∧ Completes task began held result ended ∧
        Store.Same ended after := by
  obtain ⟨now, answer, e, rfl, rfl, rfl⟩ | ⟨now, held, began, ended, rfl, hclaim, htask, rfl⟩ :=
    completes_holding h
  · exact Or.inl ⟨⟨by simp [Silent, Request.isQuiet], .refl _⟩, e, rfl⟩
  · have hbegan : Store.Same before (Store.respond
        (.tryClaim id settings.owner now settings.lockTtl) before).2 :=
      Store.respond_same rfl before
    have hended : Store.Same ended (Store.respond (.release id settings.owner) ended).2 :=
      Store.respond_same rfl ended
    rw [Store.respond, hclaim] at hbegan
    exact Or.inr ⟨[_, _, _], held, began, ended, rfl,
      ⟨by simp [Silent, Request.isQuiet], hbegan⟩, htask, hended⟩

/-- Holding a program while a task runs is a chain of moves if the task is one together
with the release of the claim.  The claim is dropped whatever the task comes to. -/
theorem made_holding {α : Type} {task : Operation (Except Error α)}
    (h : ∀ before log result middle after, before.Filed →
      Completes task before log result middle → Store.Same middle after →
      Moves terms before (log ++ [⟨.store (.release id settings.owner), ()⟩]) after) :
    MadeOfMoves terms (holding settings id task) := by
  intro before log result after hfiled hholding
  obtain ⟨hquiet, -⟩ | ⟨opening, held, began, ended, rfl, hopening, hheld, hsame⟩ :=
    holding_cases hholding
  · exact .single (.quiet hquiet)
  have hopened : Moves terms before opening began := .single (.quiet hopening)
  have htask := h _ _ _ _ _ (hopened.filed hfiled) hheld hsame
  have hunlocked : Moves terms after [⟨.unlock id, ()⟩] after := .silent (silent_singleton rfl)
  have hall := hopened.append (htask.append hunlocked)
  rwa [List.append_assoc] at hall

theorem made_heldRun (hsettings : terms.settings settings) {fired : Option String}
    (hfired : ∀ event ∈ fired, Push.programIdOf? event = some id) :
    MadeOfMoves terms (holding settings id (runHeld settings id fired).run) := by
  refine made_holding fun before log result middle after hfiled h hsame => ?_
  obtain ⟨hquiet, -⟩ | ⟨quiet, running, final, rfl, hsilent, hran, -⟩ :=
    runHeld_cases hfiled h
  · exact .single (.quiet (hquiet.append ⟨silent_singleton rfl, hsame⟩))
  · have hrun : Moves terms before (running ++ [_]) after :=
      .single (.deed (.run settings.owner hsettings hfired hran hsame))
    have hall := (Moves.silent hsilent).append hrun
    rwa [← List.append_assoc] at hall

theorem made_run (hsettings : terms.settings settings) (id : String) :
    MadeOfMoves terms (run settings id) :=
  made_heldRun hsettings nofun

theorem made_terminate (settings : Settings) (id : String) (failure : Failure) :
    MadeOfMoves terms (terminate settings id failure) := by
  refine made_holding fun before log result middle after hfiled h hsame => ?_
  have hreleased : Moves terms middle [⟨.store (.release id settings.owner), ()⟩] after :=
    .single (.quiet ⟨silent_singleton rfl, hsame⟩)
  obtain hquiet | ⟨quiet, terminating, rfl, hsilent, hterminates⟩ :=
    terminateHeld_cases (fun item hfound => (hfiled id item hfound).state) h
  · exact (Moves.single (.quiet hquiet)).append hreleased
  · have hterminated : Moves terms before terminating middle :=
      .single (.deed (.terminate hterminates))
    exact ((Moves.silent hsilent).append hterminated).append hreleased

theorem made_schedule (hsettings : terms.settings settings) (program : Program) :
    MadeOfMoves terms (schedule settings program) := by
  refine made_bind (made_insert program) fun answer => ?_
  cases answer with
  | error e => exact made_pure _
  | ok item => exact made_run hsettings program.id

theorem made_onTriggerFired (hsettings : terms.settings settings) (event : String) :
    MadeOfMoves terms (onTriggerFired settings event) := by
  unfold onTriggerFired
  cases hevent : Push.programIdOf? event with
  | none => exact made_pure _
  | some id =>
      refine made_bind (made_store rfl) fun answer => ?_
      match answer with
      | .error e => exact made_pure _
      | .ok none => exact made_pure _
      | .ok (some item) =>
          dsimp only
          split
          · exact made_pure _
          · have hfired : ∀ fired ∈ some event, Push.programIdOf? fired = some id :=
              fun fired hfired => Option.some.inj hfired ▸ hevent
            refine made_bind (made_heldRun hsettings hfired) fun result => ?_
            split <;> exact made_pure _

theorem made_handleStatus (hsettings : terms.settings settings) (status : Push.EventStatus) :
    MadeOfMoves terms (handleStatus settings status).run := by
  unfold handleStatus
  split
  · exact made_pure _
  · dsimp only
    cases Push.programIdOf? status.eventId with
    | none => exact made_pure _
    | some id =>
        refine made_bindExcept (made_store rfl) fun found => ?_
        cases found with
        | none => exact made_pure _
        | some item =>
            dsimp only
            split
            · exact made_pure _
            · split
              · refine made_bindExcept (made_lift (made_onTriggerFired hsettings _)) ?_
                intro result
                split <;> exact made_pure _
              · refine made_bindExcept (made_lift (made_terminate settings _ _)) ?_
                intro result
                split <;> exact made_pure _

theorem made_handleStatuses (hsettings : terms.settings settings) (statuses : List Push.EventStatus) :
    MadeOfMoves terms (handleStatuses settings statuses).run := by
  induction statuses with
  | nil => exact made_pure _
  | cons status rest ih =>
      exact made_bindExcept (made_handleStatus hsettings status) fun _ =>
        made_bindExcept ih fun _ => made_pure _

theorem made_pollPushEvents (hsettings : terms.settings settings) :
    MadeOfMoves terms (pollPushEvents settings) := by
  refine made_bind (made_request rfl nofun) fun answer => ?_
  cases answer with
  | error e => exact made_pure _
  | ok login => exact made_handleStatuses hsettings login.events

theorem made_runEach (hsettings : terms.settings settings) (ids : List String) :
    MadeOfMoves terms (runEach settings ids) := by
  induction ids with
  | nil => exact made_pure _
  | cons id rest ih =>
      refine made_bind (made_run hsettings id) fun result => made_bind ih fun states => ?_
      split <;> exact made_pure _

theorem made_resumeDue (hsettings : terms.settings settings) :
    MadeOfMoves terms (resumeDue settings) := by
  refine made_bind (made_outside _) fun now => made_bind (made_store rfl) fun answer => ?_
  cases answer with
  | error e => exact made_pure _
  | ok entries => exact made_bind (made_runEach hsettings _) fun _ => made_pure _

theorem made_removeLocked (id : String) : MadeOfMoves terms (removeLocked id).run := by
  intro before log result after hfiled h
  obtain ⟨e, -, hget⟩ | ⟨quiet, item, middle, rest, rfl, hget, hrest⟩ :=
    completes_bindExcept.1 h
  · obtain ⟨rfl, hsilent, -⟩ := getExisting_cases hget
    exact .silent hsilent
  obtain ⟨rfl, hsilent, hitem⟩ := getExisting_cases hget
  refine (Moves.silent hsilent).append ?_
  split at hrest
  · rename_i hdone
    obtain ⟨rfl, heq⟩ := completes_store.1 (completes_attempt.1 hrest)
    obtain ⟨-, rfl⟩ := Prod.mk.inj heq
    obtain ⟨other, hother, -, hdrops⟩ | ⟨-, hsame⟩ := Store.remove_cases id _
    · obtain ⟨stored, hfound, -, rfl⟩ := hitem item rfl
      obtain rfl := Option.some.inj (hfound.symm.trans hother)
      exact .single (.deed (.remove _ hother (stored.state.isDone_transcribed ▸ hdone) hdrops))
    · change Moves terms _ _ (Store.remove id _).2
      rw [hsame]
      exact .silent (silent_singleton rfl)
  · obtain ⟨rfl, rfl, rfl⟩ := completes_throw.1 hrest
    exact .nil _

theorem made_remove (id : String) : MadeOfMoves terms (remove id) :=
  made_bind (made_request rfl nofun) fun _ => made_bind (made_removeLocked id) fun _ =>
    made_bind (made_request rfl nofun) fun _ => made_pure _

theorem made_removeEach (ids : List String) : MadeOfMoves terms (removeEach ids) := by
  induction ids with
  | nil => exact made_pure _
  | cons id rest ih =>
      refine made_bind (made_remove id) fun result => ?_
      cases result with
      | error e => exact made_pure _
      | ok item => exact ih

theorem made_prune : MadeOfMoves terms prune := by
  refine made_bind (made_store rfl) fun answer => ?_
  cases answer with
  | error e => exact made_pure _
  | ok entries => exact made_bind (made_removeEach _) fun _ => made_pure _

theorem made_recover (settings : Settings) : MadeOfMoves terms (recover settings) :=
  made_bind (made_request rfl nofun) fun _ => made_store rfl

/-! ## Registering a device -/

/-- Events that may be recorded: they are those of unfinished programs. -/
def Recordable (store : Store) (planned : List (String × List Push.Event)) : Prop :=
  ∀ entry ∈ planned, ∀ item, store.items.find? entry.1 = some item →
    item.state.isDone = false ∧
      entry.2.map (·.eventId) = item.program.wantedIds item.state.current

/-- What is planned for stored programs may be recorded. -/
theorem planAll_recordable {entries : List (String × Item)}
    {planned : List (String × List Push.Event)}
    (hentries : ∀ entry ∈ entries, ∃ stored,
      before.items.find? entry.2.program.id = some stored ∧ entry.2 = stored.transcribed)
    (h : Completes (planAll settings entries) before log planned after) :
    after = before ∧ Silent log ∧ Recordable before planned := by
  induction entries generalizing log planned after with
  | nil =>
      obtain ⟨rfl, rfl, rfl⟩ := completes_pure.1 h
      exact ⟨rfl, silent_nil, List.forall_mem_nil _⟩
  | cons entry rest ih =>
      obtain ⟨⟨stored, hstored, hentry⟩, hrest⟩ := List.forall_mem_cons.1 hentries
      rw [planAll] at h
      split at h
      · exact ih hrest h
      · rename_i hopen
        obtain ⟨asked, result, _, _, rfl, hplan, hothers⟩ := completes_bind.1 h
        obtain ⟨rfl, lookups, hasked, hresult⟩ := planEvents_cases hplan
        obtain ⟨_, others, _, _, rfl, hlater, hdone⟩ := completes_bind.1 hothers
        obtain ⟨rfl, hsilent, hrecordable⟩ := ih hrest hlater
        obtain ⟨e, rfl, -⟩ | ⟨events, rfl, -, hprepared⟩ := hresult
        · obtain ⟨rfl, rfl, rfl⟩ := completes_pure.1 hdone
          exact ⟨rfl, (silent_asked hasked).append (hsilent.append silent_nil), hrecordable⟩
        · obtain ⟨rfl, rfl, rfl⟩ := completes_pure.1 hdone
          refine ⟨rfl, (silent_asked hasked).append (hsilent.append silent_nil), ?_⟩
          intro other hother item hitem
          obtain rfl | hmem := List.mem_cons.1 hother
          · obtain rfl := Option.some.inj (hitem.symm.trans hstored)
            rw [hentry] at hopen hprepared
            refine ⟨Bool.eq_false_iff.2 (item.state.isDone_transcribed ▸ hopen), ?_⟩
            rw [hprepared.ids, Item.transcribed_state, State.current_transcribed,
              Program.wantedIds_transcribed]
            rfl
          · exact hrecordable other hmem item hitem

/-- Recording the events of one program does not change what may be recorded for
others. -/
theorem Recordable.puts {planned : List (String × List Push.Event)} {item : Item}
    {ids : List String} (h : Recordable before planned)
    (hfound : before.items.find? id = some item)
    (hputs : Store.Puts id { item with state := item.state.transcribed.listing ids }
      before after) : Recordable after planned := by
  intro entry hentry other hother
  rw [hputs.items] at hother
  split at hother
  · rename_i heq
    cases hother
    obtain ⟨hopen, hids⟩ := h entry hentry item (heq ▸ hfound)
    refine ⟨item.state.isDone_transcribed.trans hopen, hids.trans ?_⟩
    rw [← Program.wantedIds_transcribed, ← State.current_transcribed]
    rfl
  · exact h entry hentry other hother

theorem recordEvents_moves (hrecording : terms.recording) {planned : List (String × List Push.Event)}
    {result : Except Error Unit} (hrecordable : Recordable before planned)
    (h : Completes (recordEvents planned) before log result after) :
    Moves terms before log after := by
  induction planned generalizing before log with
  | nil =>
      obtain ⟨rfl, rfl, rfl⟩ := completes_pure.1 h
      exact .nil _
  | cons entry rest ih =>
      obtain ⟨_, answer, middle, _, rfl, hupdate, hrest⟩ := completes_bind.1 h
      obtain ⟨rfl, heq⟩ := completes_store.1 hupdate
      have hlater : Recordable before rest := fun other hother =>
        hrecordable other (List.mem_cons_of_mem _ hother)
      -- the request is answered by this very update
      have heq : before.update entry.1 (fun state =>
          state.listing (entry.2.map (·.eventId))) = (answer, middle) := heq
      have hcases := before.update_cases entry.1 fun state =>
        state.listing (entry.2.map (·.eventId))
      rw [heq] at hcases
      obtain ⟨item, hfound, hreadable, -, hputs⟩ | ⟨-, ⟨e, rfl⟩, rfl⟩ := hcases
      · obtain ⟨hopen, hids⟩ := hrecordable entry List.mem_cons_self item hfound
        refine .cons (.deed (.record answer hrecording hfound hreadable hopen (hids ▸ hputs))) ?_
        cases answer with
        | error e =>
            obtain ⟨rfl, rfl, rfl⟩ := completes_pure.1 hrest
            exact .nil _
        | ok state => exact ih (hlater.puts hfound hputs) hrest
      · obtain ⟨rfl, rfl, rfl⟩ := completes_pure.1 hrest
        rw [List.append_nil]
        exact .silent (silent_singleton rfl)

theorem made_registerDevice (hrecording : terms.recording) (settings : Settings)
    (identity : DeviceIdentity) : MadeOfMoves terms (registerDevice settings identity) := by
  intro before log result after hfiled h
  obtain ⟨_, answer, _, _, rfl, hlist, hrest⟩ := completes_bind.1 h
  obtain ⟨rfl, heq⟩ := completes_store.1 hlist
  obtain ⟨hanswer, rfl⟩ := Prod.mk.inj heq
  refine (Moves.silent (silent_singleton rfl)).append ?_
  cases answer with
  | error e =>
      obtain ⟨rfl, rfl, rfl⟩ := completes_pure.1 hrest
      exact .nil _
  | ok entries =>
      obtain rfl := Store.list_ok hanswer
      obtain ⟨_, planned, _, _, rfl, hplan, hpush⟩ := completes_bind.1 hrest
      have hentries : ∀ entry ∈ before.listed,
          ∃ stored, before.items.find? entry.2.program.id = some stored ∧
            entry.2 = stored.transcribed := fun entry hentry => by
        obtain ⟨stored, hfound, heq⟩ := Store.mem_listed.1 hentry
        have hid : entry.2.program.id = entry.1 := heq ▸ (hfiled _ _ hfound).program
        exact ⟨stored, hid ▸ hfound, heq⟩
      obtain ⟨rfl, hsilent, hrecordable⟩ := planAll_recordable hentries hplan
      refine (Moves.silent hsilent).append ?_
      obtain ⟨_, answer, _, _, rfl, hupdate, hrecord⟩ := completes_bind.1 hpush
      obtain ⟨rfl, rfl⟩ := completes_push.1 hupdate
      refine (Moves.silent (silent_singleton rfl)).append ?_
      cases answer with
      | error e =>
          obtain ⟨rfl, rfl, rfl⟩ := completes_pure.1 hrecord
          exact .nil _
      | ok device =>
          obtain ⟨_, _, _, _, rfl, hrecorded, hdone⟩ := completes_bind.1 hrecord
          obtain ⟨rfl, rfl, rfl⟩ := completes_pure.1 hdone
          rw [List.append_nil]
          exact recordEvents_moves hrecording hrecordable hrecorded

end Queue

end ProgramQueue
