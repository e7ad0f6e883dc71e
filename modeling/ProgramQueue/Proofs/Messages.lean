import ProgramQueue.Proofs.Lifetimes

/-!
# Messages of completed programs

A message that is shown while no program is driven is that of a program which was stored
just before as one that succeeded.  No program is stored so twice, and so no program has
its message shown twice.
-/

namespace ProgramQueue

/-- The program is over and did not fail. -/
def State.hasSucceeded (state : State) : Bool :=
  state.isDone && state.current.failure?.isNone

namespace Queue

open ProgramQueue.Task (Within Obeys within_request within_bind obeys_bind obeys_bindExcept obeys_liftBind
  obeys_request)

/-- How far a queue is with showing messages. -/
inductive Showing where
  | resting
  | driving
  /-- A program was stored as one that succeeded, and its message was not shown since. -/
  | completed (state : State)

namespace Showing

def after : Showing → Request → Showing
  | _, .note (.step _ _) => driving
  | driving, .store (.save state) => if state.hasSucceeded then completed state else resting
  | completed _, .store (.save _) => resting
  | completed _, .outside (.toast _) => resting
  | stage, _ => stage

/-- The state that is stored as that of a program that succeeded. -/
def completes : Showing → Request → List State
  | driving, .store (.save state) => if state.hasSucceeded then [state] else []
  | _, _ => []

/-- The states whose messages were not shown yet. -/
def pending : Showing → List State
  | completed state => [state]
  | _ => []

/-- A message that is shown while no program is driven, with the state that was stored
before as that of a program that succeeded, if there was one. -/
def shows : Showing → Request → List (Option State)
  | resting, .outside (.toast _) => [none]
  | completed state, .outside (.toast _) => [some state]
  | _, _ => []

end Showing

/-- Messages are shown while a program is driven, or once after it was stored as one that
succeeded. -/
def showing : Discipline Surroundings Showing where
  allows stage request := stage = .resting → ∀ message, request ≠ .outside (.toast message)
  after stage request _ := stage.after request

theorem showing_after (stage : Showing) (request : Request) (answer : request.Answer) :
    showing.after stage request answer = stage.after request := rfl

/-- The messages of a log that are shown while no program is driven. -/
def shown : Log Surroundings → Showing → List (Option State)
  | [], _ => []
  | entry :: rest, stage => stage.shows entry.request ++ shown rest (stage.after entry.request)

/-- The states of a log that are stored as those of programs that succeeded. -/
def completions : Log Surroundings → Showing → List State
  | [], _ => []
  | entry :: rest, stage =>
      stage.completes entry.request ++ completions rest (stage.after entry.request)

theorem completions_append (first later : Log Surroundings) (stage : Showing) :
    completions (first ++ later) stage =
      completions first stage ++ completions later (showing.through first stage) := by
  induction first generalizing stage with
  | nil => rfl
  | cons entry first ih =>
      rw [List.cons_append, completions, completions, ih, List.append_assoc]
      rfl

/-- One request shows what is pending or leaves it pending. -/
theorem shows_step {stage : Showing} {request : Request}
    (hallowed : stage = .resting → ∀ message, request ≠ .outside (.toast message)) :
    ∃ states : List State, stage.shows request = states.map some ∧
      (states ++ (stage.after request).pending).Sublist
        (stage.pending ++ stage.completes request) := by
  have hcalm (hshows : stage.shows request = []) (hafter : stage.after request = stage) :
      ∃ states : List State, stage.shows request = states.map some ∧
        (states ++ (stage.after request).pending).Sublist
          (stage.pending ++ stage.completes request) :=
    ⟨[], hshows, by rw [hafter]; exact List.sublist_append_left _ _⟩
  cases request with
  | note entry =>
      cases entry with
      | step id fired => exact ⟨[], by cases stage <;> rfl, List.nil_sublist _⟩
      | advance | execute | leaf | terminate => cases stage <;> exact hcalm rfl rfl
  | store request =>
      cases request with
      | save state =>
          cases stage with
          | resting => exact hcalm rfl rfl
          | driving =>
              refine ⟨[], rfl, ?_⟩
              change (Showing.pending (if _ then _ else _)).Sublist (if _ then _ else _)
              split <;> exact List.Sublist.refl _
          | completed last => exact ⟨[], rfl, List.nil_sublist _⟩
      | insert | get | list | update | remove | tryClaim | release | claim | recoverStale =>
          cases stage <;> exact hcalm rfl rfl
  | outside query =>
      cases query with
      | toast message =>
          cases stage with
          | resting => exact absurd rfl (hallowed rfl message)
          | driving => exact hcalm rfl rfl
          | completed state => exact ⟨[state], rfl, List.Sublist.refl _⟩
      | _ => cases stage <;> exact hcalm rfl rfl
  | push | wallClock | lock | unlock => cases stage <;> exact hcalm rfl rfl

/-- What is shown was pending, or is stored before it is shown; each state is shown once. -/
theorem shown_of_accepts {log : Log Surroundings} {stage : Showing}
    (h : showing.Accepts log stage) :
    ∃ states : List State, shown log stage = states.map some ∧
      states.Sublist (stage.pending ++ completions log stage) := by
  induction log generalizing stage with
  | nil => exact ⟨[], rfl, List.nil_sublist _⟩
  | cons entry log ih =>
      obtain ⟨hallowed, hlog⟩ := h
      obtain ⟨first, hfirst, hpending⟩ := shows_step hallowed
      obtain ⟨later, hlater, hsub⟩ := ih hlog
      refine ⟨first ++ later, ?_, ?_⟩
      · rw [List.map_append]
        exact congrArg₂ _ hfirst hlater
      · calc (first ++ later).Sublist
              (first ++ ((stage.after entry.request).pending ++
                completions log (stage.after entry.request))) := hsub.append_left first
          _ = (first ++ (stage.after entry.request).pending) ++
                completions log (stage.after entry.request) := (List.append_assoc ..).symm
          List.Sublist _ ((stage.pending ++ stage.completes entry.request) ++
                completions log (stage.after entry.request)) := hpending.append_right _
          _ = stage.pending ++ completions (entry :: log) stage := List.append_assoc ..

/-! ## What a queue shows -/

/-- Whatever is answered, messages are shown as they should be, and no program is left
being driven. -/
def ShowsRightly {α : Type} (operation : Operation α) : Prop :=
  ∀ stage, stage ≠ .driving → operation.Obeys showing (fun _ later => later ≠ .driving) stage

/-- A request with which nothing is shown or stored. -/
def Request.IsMute : Request → Prop
  | .note (.step _ _) => False
  | .store (.save _) => False
  | .outside (.toast _) => False
  | _ => True

theorem after_mute {request : Request} (h : request.IsMute) (stage : Showing) :
    stage.after request = stage := by
  cases request with
  | note entry => cases entry <;> first | exact h.elim | (cases stage <;> rfl)
  | store request => cases request <;> first | exact h.elim | (cases stage <;> rfl)
  | outside query => cases query <;> first | exact h.elim | (cases stage <;> rfl)
  | push | wallClock | lock | unlock => cases stage <;> rfl

theorem obeys_mute {α : Type} {operation : Operation α} (h : operation.Within Request.IsMute)
    (stage : Showing) : operation.Obeys showing (fun _ later => later = stage) stage := by
  refine h.obeys fun request hmute => ⟨?_, fun _ => after_mute hmute stage⟩
  rintro - message rfl
  exact hmute

/-- While a program is driven anything may be asked but of the store. -/
theorem obeys_driving {α : Type} {operation : Operation α}
    (h : operation.Within Request.IsRemote) :
    operation.Obeys showing (fun _ later => later = .driving) .driving := by
  refine h.obeys fun request hremote => ⟨nofun, fun _ => ?_⟩
  cases hremote with
  | note entry => cases entry <;> rfl
  | outside query => cases query <;> rfl
  | push => rfl

theorem mute_of_inquiry {request : Request} (h : request.IsInquiry) : request.IsMute := by
  cases h <;> trivial

theorem mute_of_plain {request : Request} (h : request.IsPlain) : request.IsMute := by
  cases h with
  | inquiry hinquiry => exact mute_of_inquiry hinquiry
  | insert | get | list | update => trivial

theorem after_save_ne (stage : Showing) (state : State) :
    stage.after (.store (.save state)) ≠ .driving := by
  cases stage with
  | resting => exact nofun
  | driving =>
      change (if state.hasSucceeded then Showing.completed state else .resting) ≠ .driving
      split <;> exact nofun
  | completed => exact nofun

theorem shows_pure {α : Type} (value : α) : ShowsRightly (pure value) := fun _ hstage => hstage

theorem shows_bind {α β : Type} {operation : Operation α} {next : α → Operation β}
    (hfirst : ShowsRightly operation) (hnext : ∀ value, ShowsRightly (next value)) :
    ShowsRightly (operation >>= next) := fun stage hstage =>
  obeys_bind.2 ((hfirst stage hstage).imp fun value later => hnext value later)

theorem shows_mute {α : Type} {operation : Operation α}
    (h : operation.Within Request.IsMute) : ShowsRightly operation := fun stage hstage =>
  (obeys_mute h stage).imp fun _ _ heq => heq ▸ hstage

theorem shows_bindExcept {α β : Type} {attempt : Attempt α} {next : α → Attempt β}
    (hfirst : ShowsRightly attempt.run) (hnext : ∀ value, ShowsRightly (next value).run) :
    ShowsRightly (attempt >>= next).run := by
  refine shows_bind hfirst fun result => ?_
  cases result with
  | error e => exact shows_pure _
  | ok value => exact hnext value

theorem shows_lift {α : Type} {operation : Operation α} (h : ShowsRightly operation) :
    ShowsRightly (ExceptT.lift operation : Attempt α).run :=
  shows_bind h fun _ => shows_pure _

theorem shows_save (state : State) : ShowsRightly (save state).run := fun stage _ =>
  ⟨fun _ _ => nofun, fun _ => after_save_ne stage state⟩

theorem shows_getExisting (id : String) : ShowsRightly (getExisting id).run := by
  refine shows_bindExcept (shows_mute (within_request trivial)) fun found => ?_
  cases found <;> exact shows_pure _

theorem shows_saved (state : State) :
    ShowsRightly (do save state; return state : Attempt State).run :=
  shows_bindExcept (shows_save state) fun _ => shows_pure _

/-- Withdrawing events leaves the effect of a program. -/
theorem obeys_retireEvents (state : State) (stage : Showing) :
    (retireEvents state).Obeys showing
      (fun retired later => retired.current = state.current ∧ later = stage) stage := by
  unfold retireEvents
  split
  · constructor <;> rfl
  · have hmute : Request.IsMute (.push (.updateLogin ⟨[], state.pushEventIds⟩)) := trivial
    refine obeys_bind.2 ⟨fun _ _ => nofun, fun answer => ?_⟩
    rw [showing_after, after_mute hmute stage]
    constructor <;> rfl

/-- The message of a program that is over is shown if it was stored as one that succeeded. -/
theorem obeys_finish (program : Program) {state : State} {stage : Showing}
    (hstage : stage ≠ .driving) (hsucceeded : state.current.failure? = none → stage ≠ .resting) :
    (finish program state).Obeys showing (fun _ later => later ≠ .driving) stage := by
  apply obeys_bind.2
  apply (obeys_retireEvents { state with nextRun := never } stage).imp
  rintro retired later ⟨hcurrent, rfl⟩
  split
  · rename_i complete hnone _
    have hready := hsucceeded (hcurrent ▸ hnone)
    refine ⟨fun hresting => absurd hresting hready, fun answer => ?_⟩
    cases later with
    | resting => exact absurd rfl hready
    | driving => exact absurd rfl hstage
    | completed last => exact nofun
  · exact hstage

theorem shows_runHeld (settings : Settings) (id : String) (fired : Option String) :
    ShowsRightly (runHeld settings id fired).run := by
  refine shows_bindExcept (shows_getExisting id) fun item => ?_
  split
  · exact shows_pure _
  rintro stage -
  refine obeys_liftBind ⟨fun _ _ => nofun, fun _ => ?_⟩
  have hdriving : stage.after (.note (.step id fired)) = .driving := by cases stage <;> rfl
  rw [showing_after, hdriving]
  refine obeys_liftBind ((obeys_driving (remote_journaled _)).imp ?_)
  rintro driven _ rfl
  refine obeys_liftBind ((obeys_driving (remote_outside _)).imp ?_)
  rintro now _ rfl
  generalize ({ driven with lastRun := now } : State) = state
  have hsaved := after_save_ne .driving state
  refine obeys_bindExcept ⟨nofun, fun _ => ⟨fun _ _ => hsaved, fun _ _ => ?_⟩⟩
  split
  · rename_i hdone
    refine obeys_liftBind ((obeys_finish item.program hsaved fun hnone => ?_).imp fun final later => ?_)
    · have hsucceeded : state.hasSucceeded = true := by
        rw [State.hasSucceeded, hdone, hnone]
        rfl
      change (if state.hasSucceeded then Showing.completed state else .resting) ≠ .resting
      rw [if_pos hsucceeded]
      exact nofun
    · exact shows_saved final later
  · have hregister := (inquires_registerTriggers settings item.program state).imp
      fun _ => mute_of_inquiry
    exact shows_bindExcept (shows_mute hregister) (fun final => shows_saved final) _ hsaved

theorem shows_terminateHeld (id : String) (failure : Failure) :
    ShowsRightly (terminateHeld id failure).run := by
  refine shows_bindExcept (shows_getExisting id) fun item => ?_
  split
  · exact shows_pure _
  refine shows_bindExcept (shows_lift (shows_mute (within_request trivial))) fun _ => ?_
  refine shows_bindExcept (shows_save _) fun _ => ?_
  have hretire (state : State) := (inquires_retireEvents state).imp fun _ => mute_of_inquiry
  refine shows_bindExcept (shows_lift (shows_mute (hretire _))) fun final => ?_
  exact shows_saved final

theorem shows_holding {α : Type} (settings : Settings) (id : String)
    {task : Operation (Except Error α)} (h : ShowsRightly task) :
    ShowsRightly (holding settings id task) := by
  have hmute {request : Request} (hrequest : request.IsMute) :
      ShowsRightly (Task.request (I := Surroundings) request) :=
    shows_mute (within_request hrequest)
  have hunlocked (result : Except Error α) :
      ShowsRightly (do unlock id; return result : Operation (Except Error α)) :=
    shows_bind (hmute trivial) fun _ => shows_pure result
  refine shows_bind (hmute trivial) fun _ => shows_bind (hmute trivial) fun now => ?_
  refine shows_bind (hmute trivial) fun claimed => ?_
  match claimed with
  | .ok true =>
      exact shows_bind h fun result => shows_bind (hmute trivial) fun _ => hunlocked result
  | .ok false => exact hunlocked _
  | .error e => exact hunlocked _

theorem showsRightly (settings : Settings) : OperationCases settings ShowsRightly where
  pure := shows_pure
  bind := shows_bind
  plain _ hplain := shows_mute (within_request (mute_of_plain hplain))
  run id fired := shows_holding settings id (shows_runHeld settings id fired)
  terminate id failure := shows_holding settings id (shows_terminateHeld id failure)
  recover := shows_mute (within_bind (within_request trivial) fun _ => within_request trivial)

theorem shows_command (settings : Settings) (command : Command) :
    ShowsRightly (command.operation settings) := by
  cases hremoves : command.removes with
  | false => exact (showsRightly settings).holds hremoves
  | true =>
      refine shows_mute ((within_deleting hremoves).imp fun request hdeletes => ?_)
      cases hdeletes <;> trivial

/-- Over a whole history messages are shown as they should be. -/
theorem accepts_history (turns : List Turn) (store : Store) {stage : Showing}
    (hstage : stage ≠ .driving) : showing.Accepts (logOf turns store) stage := by
  induction turns generalizing store stage with
  | nil => trivial
  | cons turn rest ih =>
      obtain ⟨haccepts, hthrough⟩ := (shows_command turn.settings turn.command stage hstage).follows
        (turn.completes store).follows
      exact (showing.accepts_append).2 ⟨haccepts, ih (turn.after store) hthrough⟩

/-! ## No program succeeds twice -/

/-- The program is over, or it was deleted. -/
def IsOver (id : String) (store : Store) : Prop :=
  (∃ item, store.items.find? id = some item ∧ item.state.isDone = true) ∨
    (store.items.find? id = none ∧ id ∈ store.retired)

variable {terms : Terms} {before after : Store} {log : Log Surroundings} {id : String}

theorem Move.isOver (hfiled : before.Filed) (h : Move terms before log after)
    (hover : IsOver id before) : IsOver id after := by
  obtain hforeign | hdeed := h.foreign_or_deed hfiled id
  · exact hover.imp (fun ⟨item, hfound, hdone⟩ => ⟨item, hforeign.found.trans hfound, hdone⟩)
      fun ⟨hnone, hretired⟩ => ⟨hforeign.found.trans hnone, hforeign.retired.2 hretired⟩
  · obtain ⟨item, hfound, hdone⟩ | ⟨hnone, hretired⟩ := hover
    · obtain ⟨hopen, -⟩ | ⟨-, -, hdrops⟩ := hdeed.of_found hfound
      · cases hopen.symm.trans hdone
      · exact Or.inr ⟨(hdrops.items id).trans (if_pos rfl), hdrops.retired ▸ List.mem_cons_self⟩
    · exact (hdeed.not_deleted hnone hretired).elim

theorem Moves.isOver (hfiled : before.Filed) (h : Moves terms before log after)
    (hover : IsOver id before) : IsOver id after := by
  induction h with
  | nil => exact hover
  | cons move _ ih => exact ih (move.filed hfiled) (move.isOver hfiled hover)

/-- A request with which no drive begins. -/
def Request.StartsNothing : Request → Prop
  | .note (.step _ _) => False
  | _ => True

theorem resting_step {stage : Showing} (hstage : stage ≠ .driving) {request : Request}
    (h : request.StartsNothing) :
    stage.completes request = [] ∧ stage.after request ≠ .driving := by
  cases stage with
  | driving => exact absurd rfl hstage
  | resting | completed =>
      refine ⟨rfl, ?_⟩
      cases request with
      | note entry => cases entry <;> first | exact h.elim | exact nofun
      | store request => cases request <;> exact nofun
      | outside query => cases query <;> exact nofun
      | push | wallClock | lock | unlock => exact nofun

/-- While nothing is driven, nothing is stored as the state of a program that succeeded. -/
theorem completions_resting {stage : Showing} (hstage : stage ≠ .driving)
    (hlog : ∀ entry ∈ log, entry.request.StartsNothing) :
    completions log stage = [] ∧ showing.through log stage ≠ .driving := by
  induction log generalizing stage with
  | nil => exact ⟨rfl, hstage⟩
  | cons entry log ih =>
      obtain ⟨hfirst, hrest⟩ := List.forall_mem_cons.1 hlog
      obtain ⟨hnothing, hafter⟩ := resting_step hstage hfirst
      obtain ⟨hlater, hthrough⟩ := ih hafter hrest
      refine ⟨?_, hthrough⟩
      rw [completions, hnothing, hlater, List.nil_append]

theorem starts_singleton (request : Request) (answer : request.Answer)
    (h : request.StartsNothing) :
    ∀ entry ∈ [(⟨request, answer⟩ : Answered Surroundings)], entry.request.StartsNothing :=
  List.forall_mem_singleton.2 h

theorem starts_of_silent (h : Silent log) : ∀ entry ∈ log, entry.request.StartsNothing := by
  intro entry hentry
  have hquiet := h entry hentry
  cases hrequest : entry.request with
  | note => rw [hrequest] at hquiet; cases hquiet
  | outside | push | wallClock | store | lock | unlock => trivial

theorem starts_of_settling {listed wanted : List String}
    (h : ∀ entry ∈ log, entry.request.Settling listed wanted) :
    ∀ entry ∈ log, entry.request.StartsNothing := by
  intro entry hentry
  have hnote := (h entry hentry).note?
  cases hrequest : entry.request with
  | note => rw [hrequest] at hnote; cases hnote
  | outside | push | wallClock | store | lock | unlock => trivial

/-- While a program is driven, nothing is stored. -/
theorem completions_driving (hlog : ∀ entry ∈ log, entry.request.IsRemote) :
    completions log .driving = [] ∧ showing.through log .driving = .driving := by
  induction log with
  | nil => exact ⟨rfl, rfl⟩
  | cons entry log ih =>
      obtain ⟨hfirst, hrest⟩ := List.forall_mem_cons.1 hlog
      obtain ⟨hlater, hthrough⟩ := ih hrest
      obtain ⟨request, answer⟩ := entry
      have hafter : Showing.after .driving request = .driving := by
        cases hfirst with
        | note entry => cases entry <;> rfl
        | outside query => cases query <;> rfl
        | push => rfl
      have hnothing : Showing.completes .driving request = [] := by cases hfirst <;> rfl
      refine ⟨?_, ?_⟩
      · rw [completions, hafter, hlater, hnothing, List.append_nil]
      · rw [Discipline.through, showing_after, hafter, hthrough]

theorem Drives.completions {settings : Settings} {fired : Option String} {item : Item}
    {state : State} (h : Drives settings id fired item log state) (stage : Showing) :
    Queue.completions log stage = [] ∧ showing.through log stage = .driving := by
  obtain @⟨inner, outer, driven, now, hkept, -⟩ := h
  have hstart : stage.after (.note (.step id fired)) = .driving := by cases stage <;> rfl
  have hnothing : stage.completes (.note (.step id fired)) = [] := by cases stage <;> rfl
  have hremote : ∀ entry ∈ outer ++ [⟨.outside .clock, now⟩], entry.request.IsRemote := by
    refine List.forall_mem_append.2 ⟨fun entry hentry => ?_, ?_⟩
    · obtain ⟨note, -, heq⟩ | ⟨query, heq⟩ := mem_kept hkept hentry
      · exact heq ▸ .note note
      · exact heq ▸ .outside query
    · exact List.forall_mem_singleton.2 (.outside .clock)
  obtain ⟨hnone, hthrough⟩ := completions_driving hremote
  refine ⟨?_, ?_⟩
  · rw [Queue.completions, hstart, hnothing, List.nil_append, hnone]
  · rw [Discipline.through, showing_after, hstart, hthrough]

/-- What is stored in a part of a history as states of programs that succeeded: no program
twice, and none that was over before. -/
structure Succeeding (before : Store) (states : List State) (after : Store) : Prop where
  succeeded : ∀ state ∈ states, state.hasSucceeded = true
  begun : ∀ state ∈ states, ¬IsOver state.programId before
  ended : ∀ state ∈ states, IsOver state.programId after
  once : (states.map (·.programId)).Nodup

theorem Succeeding.nil (before after : Store) : Succeeding before [] after :=
  ⟨nofun, nofun, nofun, List.nodup_nil⟩

theorem IsOver.same (h : IsOver id before) (hsame : Store.Same before after) :
    IsOver id after :=
  h.imp (fun ⟨item, hfound, hdone⟩ => ⟨item, (hsame.items id).trans hfound, hdone⟩)
    fun ⟨hnone, hretired⟩ => ⟨(hsame.items id).trans hnone, hsame.retired.symm ▸ hretired⟩

theorem Succeeding.same {middle : Store} {states : List State}
    (h : Succeeding before states middle) (hsame : Store.Same middle after) :
    Succeeding before states after :=
  ⟨h.succeeded, h.begun, fun state hstate => (h.ended state hstate).same hsame, h.once⟩

theorem Ran.succeeding {settings : Settings} {fired : Option String} {final : State}
    (hfiled : before.Filed) (h : Ran settings id fired before log final after)
    (stage : Showing) :
    Succeeding before (completions log stage) after ∧
      showing.through log stage ≠ .driving := by
  cases h with
  | @intro _ item state _ driving settling answer hfound _ hopen hdrives hsettles hputs =>
      obtain ⟨hdriven, hthrough⟩ := hdrives.completions stage
      have hsaved := after_save_ne .driving state
      obtain ⟨hsettled, hlast⟩ := completions_resting hsaved
        (List.forall_mem_append.2 ⟨starts_of_settling hsettles.settling,
          starts_singleton (.store (.save final)) answer trivial⟩)
      have hid : state.programId = id := hdrives.state.1.trans (hfiled id item hfound).state
      rw [completions_append, hdriven, List.nil_append, showing.through_append, hthrough]
      refine ⟨?_, hlast⟩
      have hall : completions (⟨.store (.save state), .ok ()⟩ ::
          (settling ++ [⟨.store (.save final), answer⟩])) .driving =
            if state.hasSucceeded then [state] else [] := by
        rw [completions, hsettled, List.append_nil]
        rfl
      rw [hall]
      split
      · rename_i hsucceeded
        have hdone : state.isDone = true := (Bool.and_eq_true_iff.1 hsucceeded).1
        refine ⟨List.forall_mem_singleton.2 hsucceeded, List.forall_mem_singleton.2 ?_,
          List.forall_mem_singleton.2 ?_, List.nodup_singleton _⟩
        · rw [hid]
          rintro (⟨other, hother, hover⟩ | ⟨hnone, -⟩)
          · obtain rfl := Option.some.inj (hfound.symm.trans hother)
            cases hopen.symm.trans hover
          · cases hfound.symm.trans hnone
        · rw [hid]
          refine Or.inl ⟨_, hputs.self, ?_⟩
          unfold Item.settled
          split
          · change final.isDone = true
            rw [State.isDone, State.current, hsettles.state.2]
            exact hdone
          · exact hdone
      · exact .nil _ _

theorem Deed.succeeding (hfiled : before.Filed) (h : Deed terms id before log after)
    {stage : Showing} (hstage : stage ≠ .driving) :
    Succeeding before (completions log stage) after ∧
      showing.through log stage ≠ .driving := by
  have hresting (hlog : ∀ entry ∈ log, entry.request.StartsNothing) :
      Succeeding before (completions log stage) after ∧
        showing.through log stage ≠ .driving := by
    obtain ⟨hnothing, hthrough⟩ := completions_resting hstage hlog
    exact ⟨hnothing ▸ .nil _ _, hthrough⟩
  cases h with
  | insert answer => exact hresting (starts_singleton _ _ trivial)
  | run owner hsettings hfired hran hsame =>
      obtain ⟨hsucceeding, hthrough⟩ := hran.succeeding hfiled stage
      obtain ⟨hnothing, hlast⟩ := completions_resting hthrough
        (starts_singleton (.store (.release id owner)) () trivial)
      rw [completions_append, hnothing, List.append_nil, showing.through_append]
      exact ⟨hsucceeding.same hsame, hlast⟩
  | terminate hterminates =>
      cases hterminates with
      | @intro _ item state retired answer _ _ _ _ hretires _ =>
          refine hresting (List.forall_mem_cons.2 ⟨trivial, List.forall_mem_cons.2 ⟨trivial, ?_⟩⟩)
          have hretired : ∀ entry ∈ retired, Request.Settling _ [] entry.request :=
            hretires.settling
          exact List.forall_mem_append.2 ⟨starts_of_settling hretired, starts_singleton _ _ trivial⟩
  | record answer => exact hresting (starts_singleton _ _ trivial)
  | remove answer => exact hresting (starts_singleton _ _ trivial)

theorem Move.succeeding (hfiled : before.Filed) (h : Move terms before log after)
    {stage : Showing} (hstage : stage ≠ .driving) :
    Succeeding before (completions log stage) after ∧
      showing.through log stage ≠ .driving := by
  cases h with
  | quiet hquiet =>
      obtain ⟨hnothing, hthrough⟩ := completions_resting hstage (starts_of_silent hquiet.silent)
      exact ⟨hnothing ▸ .nil _ _, hthrough⟩
  | deed hdeed => exact hdeed.succeeding hfiled hstage

/-- A program that succeeded is over from then on, so that it does not succeed again. -/
theorem Moves.succeeding (hfiled : before.Filed) (h : Moves terms before log after)
    {stage : Showing} (hstage : stage ≠ .driving) :
    Succeeding before (completions log stage) after := by
  induction h generalizing stage with
  | nil store => exact .nil store store
  | @cons before middle after first later move rest ih =>
      obtain ⟨hfirst, hthrough⟩ := move.succeeding hfiled hstage
      have hlater := ih (move.filed hfiled) hthrough
      rw [completions_append]
      refine ⟨List.forall_mem_append.2 ⟨hfirst.succeeded, hlater.succeeded⟩,
        List.forall_mem_append.2 ⟨hfirst.begun, fun state hstate hover => ?_⟩,
        List.forall_mem_append.2 ⟨fun state hstate => ?_, hlater.ended⟩, ?_⟩
      · exact hlater.begun state hstate (move.isOver hfiled hover)
      · exact rest.isOver (move.filed hfiled) (hfirst.ended state hstate)
      · rw [List.map_append]
        refine List.nodup_append'.2 ⟨hfirst.once, hlater.once, fun other hother hagain => ?_⟩
        obtain ⟨state, hstate, rfl⟩ := List.mem_map.1 hother
        obtain ⟨again, hmem, heq⟩ := List.mem_map.1 hagain
        exact hlater.begun again hmem (heq ▸ hfirst.ended state hstate)

/-- Each message that is shown in a history while no program is driven is that of a program
which was stored just before as one that succeeded; no program has its message shown twice. -/
theorem history_shows (turns : List Turn) :
    ∃ states : List State, shown (logOf turns .empty) .resting = states.map some ∧
      (∀ state ∈ states, state.hasSucceeded = true) ∧ (states.map (·.programId)).Nodup := by
  have hresting : Showing.resting ≠ .driving := nofun
  have hsucceeding := (moves_free turns .empty).succeeding .empty hresting
  obtain ⟨states, hshown, hsub⟩ := shown_of_accepts (accepts_history turns .empty hresting)
  refine ⟨states, hshown, fun state hstate => ?_, ?_⟩
  · exact hsucceeding.succeeded state (hsub.subset hstate)
  · exact (hsub.map _).nodup hsucceeding.once

end Queue

end ProgramQueue
