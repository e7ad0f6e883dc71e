import ProgramQueue.Proofs.Histories

/-!
# Disciplines

A discipline says what may be asked at which stage, and to which stage an answer leads.
Whether a task obeys it does not depend on any world.  Apart from deleting, all that a
queue does is made of a few parts, and a property that goes through them in sequence is
shown for these parts only.
-/

namespace ProgramQueue

/-- What may be asked at a stage, and the stage that an answer leads to. -/
structure Discipline (I : Interface) (Stage : Type) where
  allows : Stage → I.Request → Prop
  after : Stage → (request : I.Request) → I.Answer request → Stage

namespace Discipline

variable {I : Interface} {Stage : Type} (rules : Discipline I Stage)

/-- The stage that a log leads to. -/
def through : Log I → Stage → Stage
  | [], stage => stage
  | entry :: rest, stage => through rest (rules.after stage entry.request entry.answer)

/-- All that a log lists was allowed when it was asked. -/
def Accepts : Log I → Stage → Prop
  | [], _ => True
  | entry :: rest, stage => rules.allows stage entry.request ∧
      Accepts rest (rules.after stage entry.request entry.answer)

@[simp]
theorem through_append (first later : Log I) (stage : Stage) :
    rules.through (first ++ later) stage = rules.through later (rules.through first stage) := by
  induction first generalizing stage with
  | nil => rfl
  | cons entry first ih => exact ih _

theorem accepts_append {first later : Log I} {stage : Stage} :
    rules.Accepts (first ++ later) stage ↔
      rules.Accepts first stage ∧ rules.Accepts later (rules.through first stage) := by
  induction first generalizing stage with
  | nil => exact ⟨fun h => ⟨trivial, h⟩, fun h => h.2⟩
  | cons entry first ih =>
      rw [List.cons_append, Accepts, Accepts, through, ih, and_assoc]

end Discipline

namespace Task

variable {I J : Interface} {Stage α β ε : Type} {rules : Discipline I Stage}

/-- Whatever is answered, a task asks only what is allowed, and it ends with a value and
at a stage such as are wanted. -/
def Obeys (rules : Discipline I Stage) (wanted : α → Stage → Prop) : Task I α → Stage → Prop
  | done value, stage => wanted value stage
  | ask request next, stage => rules.allows stage request ∧
      ∀ answer, Obeys rules wanted (next answer) (rules.after stage request answer)

theorem Obeys.imp {task : Task I α} {stage : Stage} {wanted weaker : α → Stage → Prop}
    (h : task.Obeys rules wanted stage) (hweaker : ∀ value stage, wanted value stage →
      weaker value stage) : task.Obeys rules weaker stage := by
  induction task generalizing stage with
  | done value => exact hweaker _ _ h
  | ask request next ih => exact ⟨h.1, fun answer => ih answer (h.2 answer)⟩

theorem obeys_request {request : I.Request} {stage : Stage}
    {wanted : I.Answer request → Stage → Prop} :
    (Task.request request).Obeys rules wanted stage ↔
      rules.allows stage request ∧
        ∀ answer, wanted answer (rules.after stage request answer) := Iff.rfl

/-- A task in two parts obeys if the second part does wherever the first ends. -/
theorem obeys_bind {task : Task I α} {next : α → Task I β} {stage : Stage}
    {wanted : β → Stage → Prop} :
    (task >>= next).Obeys rules wanted stage ↔
      task.Obeys rules (fun value later => (next value).Obeys rules wanted later) stage := by
  induction task generalizing stage with
  | done value => exact Iff.rfl
  | ask request rest ih =>
      constructor
      · exact fun h => ⟨h.1, fun answer => (ih answer).1 (h.2 answer)⟩
      · exact fun h => ⟨h.1, fun answer => (ih answer).2 (h.2 answer)⟩

/-- A part that stops with an error ends the whole there. -/
theorem obeys_bindExcept {task : ExceptT ε (Task I) α} {next : α → ExceptT ε (Task I) β}
    {stage : Stage} {wanted : Except ε β → Stage → Prop}
    (h : task.run.Obeys rules (fun result later =>
      (∀ e, result = .error e → wanted (.error e) later) ∧
        ∀ value, result = .ok value → (next value).run.Obeys rules wanted later) stage) :
    (task >>= next).run.Obeys rules wanted stage := by
  refine obeys_bind.2 (Obeys.imp h ?_)
  rintro (e | value) later ⟨herror, hok⟩
  · exact herror e rfl
  · exact hok value rfl

theorem obeys_lift {task : Task I α} {stage : Stage} {wanted : Except ε α → Stage → Prop}
    (h : task.Obeys rules (fun value later => wanted (.ok value) later) stage) :
    (ExceptT.lift task : ExceptT ε (Task I) α).run.Obeys rules wanted stage :=
  obeys_bind.2 h

/-- A part that is never an error is followed by the rest in any case. -/
theorem obeys_liftBind {task : Task I α} {next : α → ExceptT ε (Task I) β} {stage : Stage}
    {wanted : Except ε β → Stage → Prop}
    (h : task.Obeys rules (fun value later => (next value).run.Obeys rules wanted later) stage) :
    (ExceptT.lift task >>= next).run.Obeys rules wanted stage := by
  refine obeys_bindExcept (obeys_lift (Obeys.imp h fun value later hnext => ⟨nofun, ?_⟩))
  rintro _ ⟨⟩
  exact hnext

/-- What a task follows is accepted. -/
theorem Obeys.follows {task : Task I α} {stage : Stage} {wanted : α → Stage → Prop}
    {log : Log I} {value : α} (h : task.Obeys rules wanted stage)
    (hfollows : task.Follows log value) :
    rules.Accepts log stage ∧ wanted value (rules.through log stage) := by
  induction hfollows generalizing stage with
  | done value => exact ⟨trivial, h⟩
  | ask rest ih =>
      obtain ⟨haccepts, hwanted⟩ := ih (h.2 _)
      exact ⟨⟨h.1, haccepts⟩, hwanted⟩

/-! ## Requests that never change the stage -/

/-- Whatever is answered, a task asks only what is allowed. -/
def Within (allowed : I.Request → Prop) : Task I α → Prop
  | done _ => True
  | ask request next => allowed request ∧ ∀ answer, Within allowed (next answer)

variable {allowed : I.Request → Prop}

theorem within_request {request : I.Request} (h : allowed request) :
    (Task.request request).Within allowed := ⟨h, fun _ => trivial⟩

theorem within_bind {task : Task I α} {next : α → Task I β} (hfirst : task.Within allowed)
    (hnext : ∀ value, (next value).Within allowed) : (task >>= next).Within allowed := by
  induction task with
  | done value => exact hnext value
  | ask request rest ih => exact ⟨hfirst.1, fun answer => ih answer (hfirst.2 answer)⟩

theorem within_bindExcept {task : ExceptT ε (Task I) α} {next : α → ExceptT ε (Task I) β}
    (hfirst : task.run.Within allowed) (hnext : ∀ value, (next value).run.Within allowed) :
    (task >>= next).run.Within allowed := by
  refine within_bind hfirst fun result => ?_
  cases result with
  | error e => trivial
  | ok value => exact hnext value

theorem within_lift {task : Task I α} (h : task.Within allowed) :
    (ExceptT.lift task : ExceptT ε (Task I) α).run.Within allowed :=
  within_bind h fun _ => trivial

theorem within_any (task : Task I α) : task.Within fun _ => True := by
  induction task with
  | done value => trivial
  | ask request next ih => exact ⟨trivial, ih⟩

theorem Within.relay {inner : J.Request → Prop} {embed : J.Request → I.Request}
    {back : (r : J.Request) → I.Answer (embed r) → J.Answer r} {task : Task J α}
    (h : task.Within inner) (hembed : ∀ request, inner request → allowed (embed request)) :
    (task.relay embed back).Within allowed := by
  induction task with
  | done value => trivial
  | ask request next ih => exact ⟨hembed request h.1, fun answer => ih _ (h.2 _)⟩

theorem Within.imp {task : Task I α} (h : task.Within allowed) {more : I.Request → Prop}
    (hmore : ∀ request, allowed request → more request) : task.Within more := by
  induction task with
  | done value => trivial
  | ask request next ih => exact ⟨hmore _ h.1, fun answer => ih answer (h.2 answer)⟩

theorem Within.follows {task : Task I α} (h : task.Within allowed) {log : Log I} {value : α}
    (hfollows : task.Follows log value) : ∀ entry ∈ log, allowed entry.request := by
  induction hfollows with
  | done value => exact List.forall_mem_nil _
  | ask rest ih => exact List.forall_mem_cons.2 ⟨h.1, ih (h.2 _)⟩

/-- A task that asks only what does not lead away from a stage stays there. -/
theorem Within.obeys {task : Task I α} (h : task.Within allowed) {stage : Stage}
    (hstays : ∀ request, allowed request →
      rules.allows stage request ∧ ∀ answer, rules.after stage request answer = stage) :
    task.Obeys rules (fun _ later => later = stage) stage := by
  induction task with
  | done value => rfl
  | ask request next ih =>
      obtain ⟨hallowed, hstill⟩ := hstays request h.1
      refine ⟨hallowed, fun answer => ?_⟩
      rw [hstill answer]
      exact ih answer (h.2 answer)

end Task

namespace Queue

open ProgramQueue.Task (Within follows_run within_request within_bind within_bindExcept
  within_lift within_any)

/-- Collaborators are asked only what shows in the logs of a task. -/
theorem within_of_follows {α : Type} {allowed : Query → Prop} {task : Task Outside α}
    (h : ∀ log value, task.Follows log value → ∀ entry ∈ log, allowed entry.request) :
    task.Within allowed := by
  induction task with
  | done value => trivial
  | ask query next ih =>
      -- that the query is made shows in the log of any world
      let world : World Outside Unit := ⟨fun query _ => (grant 0 query, ())⟩
      refine ⟨h _ _ (follows_run world (.ask query next) ()) _ List.mem_cons_self, ?_⟩
      intro answer
      refine ih answer fun log value hlog entry hentry => ?_
      exact h _ _ (.ask hlog) entry (List.mem_cons_of_mem _ hentry)

/-! ## What is asked while a program is held -/

/-- What is asked in order to settle a program: what a wallet is, the time, and the push
server. -/
inductive Request.IsInquiry : Request → Prop
  | walletInfo (walletId : String) : IsInquiry (.outside (.walletInfo walletId))
  | clock : IsInquiry (.outside .clock)
  | push (request : Push.Request) : IsInquiry (.push request)

/-- What is asked of others than the store while a program is held: the collaborators, the
push server, and the journal. -/
inductive Request.IsRemote : Request → Prop
  | outside (query : Query) : IsRemote (.outside query)
  | push (request : Push.Request) : IsRemote (.push request)
  | note (entry : Note) : IsRemote (.note entry)

/-- What is asked while a program is held. -/
inductive Request.IsInner : Request → Prop
  | remote {request : Request} (h : request.IsRemote) : IsInner request
  | get (id : String) : IsInner (.store (.get id))
  | save (state : State) : IsInner (.store (.save state))

theorem remote_of_inquiry {request : Request} (h : request.IsInquiry) : request.IsRemote := by
  cases h with
  | walletInfo | clock => exact .outside _
  | push => exact .push _

theorem remote_outside {α : Type} (task : Task Outside α) :
    (outside task).Within Request.IsRemote :=
  (within_any task).relay fun query _ => .outside query

theorem remote_journaled {α : Type} (task : Task Journaled α) :
    (journaled task).Within Request.IsRemote := by
  refine (within_any task).relay fun request _ => ?_
  cases request with
  | note entry => exact .note entry
  | ask query => exact .outside query

theorem inquires_clock : clock.Within Request.IsInquiry := within_request .clock

theorem inquires_planEvents (settings : Settings) (program : Program) (effect : Effect) :
    (planEvents settings program effect).Within Request.IsInquiry := by
  refine within_bind (Within.relay (within_of_follows fun log result hfollows => ?_)
    fun query (hwallet : ∃ wallet, query = .walletInfo wallet) => ?_) fun _ => trivial
  · obtain ⟨e, -, hmissed⟩ | ⟨events, -, hfound, -⟩ :=
      Push.prepares_events program.id _ (fun _ => Program.canWatch_of_mem) _ _ hfollows
    · exact fun entry => hmissed.wallet
    · exact fun entry => hfound.wallet
  · obtain ⟨wallet, rfl⟩ := hwallet
    exact .walletInfo wallet

theorem inquires_retireEvents (state : State) :
    (retireEvents state).Within Request.IsInquiry := by
  unfold retireEvents
  split
  · trivial
  · exact within_bind (within_request (.push _)) fun _ => trivial

theorem inquires_registerTriggers (settings : Settings) (program : Program) (state : State) :
    (registerTriggers settings program state).run.Within Request.IsInquiry := by
  refine within_bindExcept (within_lift inquires_clock) fun now => ?_
  refine within_bindExcept (within_lift (inquires_planEvents _ _ _)) ?_
  rintro (e | events)
  · dsimp only
    split <;> trivial
  · dsimp only
    split
    · trivial
    · refine within_bindExcept (within_lift (within_request (.push _))) fun answer => ?_
      cases answer <;> trivial

theorem remote_retireEvents (state : State) : (retireEvents state).Within Request.IsRemote :=
  (inquires_retireEvents state).imp fun _ => remote_of_inquiry

theorem remote_finish (program : Program) (state : State) :
    (finish program state).Within Request.IsRemote := by
  refine within_bind (remote_retireEvents _) fun state => ?_
  split
  · exact within_bind (remote_outside _) fun _ => trivial
  · trivial

theorem remote_registerTriggers (settings : Settings) (program : Program) (state : State) :
    (registerTriggers settings program state).run.Within Request.IsRemote :=
  (inquires_registerTriggers settings program state).imp fun _ => remote_of_inquiry

theorem within_getExisting (id : String) : (getExisting id).run.Within Request.IsInner := by
  refine within_bindExcept (within_request (.get id)) fun found => ?_
  cases found <;> trivial

theorem within_save (state : State) : (save state).run.Within Request.IsInner :=
  within_request (.save state)

/-- A part that asks nothing of the store, in the midst of one that does. -/
theorem within_remote {α : Type} {task : Operation α} (h : task.Within Request.IsRemote) :
    task.Within Request.IsInner := h.imp fun _ => .remote

theorem within_runHeld (settings : Settings) (id : String) (fired : Option String) :
    (runHeld settings id fired).run.Within Request.IsInner := by
  refine within_bindExcept (within_getExisting id) fun item => ?_
  split
  · trivial
  refine within_bindExcept (within_lift (within_request (.remote (.note _)))) fun _ => ?_
  refine within_bindExcept (within_lift (within_remote (remote_journaled _))) fun driven => ?_
  refine within_bindExcept (within_lift (within_remote (remote_outside _))) fun now => ?_
  refine within_bindExcept (within_save _) fun _ => ?_
  split
  · refine within_bindExcept (within_lift (within_remote (remote_finish _ _))) fun state => ?_
    exact within_bindExcept (within_save state) fun _ => trivial
  · refine within_bindExcept (within_remote (remote_registerTriggers _ _ _)) fun state => ?_
    exact within_bindExcept (within_save state) fun _ => trivial

theorem within_terminateHeld (id : String) (failure : Failure) :
    (terminateHeld id failure).run.Within Request.IsInner := by
  refine within_bindExcept (within_getExisting id) fun item => ?_
  split
  · trivial
  refine within_bindExcept (within_lift (within_request (.remote (.note _)))) fun _ => ?_
  refine within_bindExcept (within_save _) fun _ => ?_
  refine within_bindExcept (within_lift (within_remote (remote_retireEvents _))) fun state => ?_
  exact within_bindExcept (within_save state) fun _ => trivial

/-! ## What a queue does -/

/-- What is asked outside of a run. -/
inductive Request.IsPlain : Request → Prop
  | inquiry {request : Request} (h : request.IsInquiry) : IsPlain request
  | insert (program : Program) : IsPlain (.store (.insert program))
  | get (id : String) : IsPlain (.store (.get id))
  | list : IsPlain (.store .list)
  | update (id : String) (change : State → State) : IsPlain (.store (.update id change))

/-- What has to be shown of a property to have it of all that a queue does, apart from
deleting. -/
structure OperationCases (settings : Settings) (P : {α : Type} → Operation α → Prop) :
    Prop where
  pure : ∀ {α : Type} (value : α), P (Pure.pure value : Operation α)
  bind : ∀ {α β : Type} {operation : Operation α} {next : α → Operation β},
    P operation → (∀ value, P (next value)) → P (operation >>= next)
  plain : ∀ request : Request, request.IsPlain → P (Task.request (I := Surroundings) request)
  /-- A run of a program that is held. -/
  run : ∀ id fired, P (holding settings id (runHeld settings id fired).run)
  terminate : ∀ id failure, P (terminate settings id failure)
  recover : P (recover settings)

namespace OperationCases

variable {settings : Settings} {P : {α : Type} → Operation α → Prop} {α β : Type}

theorem bindExcept (cases : OperationCases settings P) {attempt : Attempt α}
    {next : α → Attempt β} (hfirst : P attempt.run) (hnext : ∀ value, P (next value).run) :
    P (attempt >>= next).run := by
  refine cases.bind hfirst fun result => ?_
  cases result with
  | error e => exact cases.pure _
  | ok value => exact hnext value

theorem lift (cases : OperationCases settings P) {operation : Operation α}
    (h : P operation) : P (ExceptT.lift operation : Attempt α).run :=
  cases.bind h fun _ => cases.pure _

/-- A part that inquires only. -/
theorem inquires (cases : OperationCases settings P) {operation : Operation α}
    (h : operation.Within Request.IsInquiry) : P operation := by
  induction operation with
  | done value => exact cases.pure value
  | ask request next ih =>
      exact cases.bind (cases.plain request (.inquiry h.1)) fun answer => ih answer (h.2 answer)

theorem schedule (cases : OperationCases settings P) (program : Program) :
    P (schedule settings program) := by
  refine cases.bind (cases.plain _ (.insert program)) fun answer => ?_
  cases answer with
  | error e => exact cases.pure _
  | ok item => exact cases.run program.id none

theorem onTriggerFired (cases : OperationCases settings P) (event : String) :
    P (onTriggerFired settings event) := by
  unfold Queue.onTriggerFired
  cases Push.programIdOf? event with
  | none => exact cases.pure _
  | some id =>
      refine cases.bind (cases.plain _ (.get id)) fun answer => ?_
      match answer with
      | .error e => exact cases.pure _
      | .ok none => exact cases.pure _
      | .ok (some item) =>
          dsimp only
          split
          · exact cases.pure _
          · refine cases.bind (cases.run id (some event)) fun result => ?_
            split <;> exact cases.pure _

theorem handleStatus (cases : OperationCases settings P) (status : Push.EventStatus) :
    P (handleStatus settings status).run := by
  unfold Queue.handleStatus
  split
  · exact cases.pure _
  · dsimp only
    cases Push.programIdOf? status.eventId with
    | none => exact cases.pure _
    | some id =>
        refine cases.bindExcept (cases.plain _ (.get id)) fun found => ?_
        cases found with
        | none => exact cases.pure _
        | some item =>
            dsimp only
            split
            · exact cases.pure _
            · split
              · refine cases.bindExcept (cases.lift (cases.onTriggerFired _)) fun result => ?_
                split <;> exact cases.pure _
              · refine cases.bindExcept (cases.lift (cases.terminate id _)) fun result => ?_
                split <;> exact cases.pure _

theorem handleStatuses (cases : OperationCases settings P) (statuses : List Push.EventStatus) :
    P (handleStatuses settings statuses).run := by
  induction statuses with
  | nil => exact cases.pure _
  | cons status rest ih =>
      exact cases.bindExcept (cases.handleStatus status) fun _ =>
        cases.bindExcept ih fun _ => cases.pure _

theorem pollPushEvents (cases : OperationCases settings P) : P (pollPushEvents settings) := by
  refine cases.bind (cases.plain _ (.inquiry (.push .loginEvents))) fun answer => ?_
  cases answer with
  | error e => exact cases.pure _
  | ok login => exact cases.handleStatuses login.events

theorem runEach (cases : OperationCases settings P) (ids : List String) :
    P (runEach settings ids) := by
  induction ids with
  | nil => exact cases.pure _
  | cons id rest ih =>
      refine cases.bind (cases.run id none) fun result => cases.bind ih fun states => ?_
      split <;> exact cases.pure _

theorem resumeDue (cases : OperationCases settings P) : P (resumeDue settings) := by
  refine cases.bind (cases.inquires inquires_clock) fun now => ?_
  refine cases.bind (cases.plain _ .list) fun answer => ?_
  cases answer with
  | error e => exact cases.pure _
  | ok entries => exact cases.bind (cases.runEach _) fun _ => cases.pure _

theorem planAll (cases : OperationCases settings P) (entries : List (String × Item)) :
    P (planAll settings entries) := by
  induction entries with
  | nil => exact cases.pure _
  | cons entry rest ih =>
      rw [Queue.planAll]
      split
      · exact ih
      · refine cases.bind (cases.inquires (inquires_planEvents _ _ _)) fun planned => ?_
        refine cases.bind ih fun others => ?_
        cases planned <;> exact cases.pure _

theorem recordEvents (cases : OperationCases settings P)
    (planned : List (String × List Push.Event)) : P (recordEvents planned) := by
  induction planned with
  | nil => exact cases.pure _
  | cons entry rest ih =>
      refine cases.bind (cases.plain _ (.update entry.1 _)) fun answer => ?_
      cases answer with
      | error e => exact cases.pure _
      | ok state => exact ih

theorem registerDevice (cases : OperationCases settings P) (identity : DeviceIdentity) :
    P (registerDevice settings identity) := by
  refine cases.bind (cases.plain _ .list) fun answer => ?_
  cases answer with
  | error e => exact cases.pure _
  | ok entries =>
      refine cases.bind (cases.planAll entries) fun planned => ?_
      refine cases.bind (cases.plain _ (.inquiry (.push (.updateDevice _)))) fun answer => ?_
      cases answer with
      | error e => exact cases.pure _
      | ok device => exact cases.bind (cases.recordEvents planned) fun _ => cases.pure _

end OperationCases

/-- The command may delete programs. -/
def Command.removes : Command → Bool
  | remove _ => true
  | prune => true
  | _ => false

/-- What is asked in order to delete programs. -/
inductive Request.IsDeleting : Request → Prop
  | lock (id : String) : IsDeleting (.lock id)
  | unlock (id : String) : IsDeleting (.unlock id)
  | get (id : String) : IsDeleting (.store (.get id))
  | list : IsDeleting (.store .list)
  | remove (id : String) : IsDeleting (.store (.remove id))

theorem deletes_remove (id : String) : (remove id).Within Request.IsDeleting := by
  refine within_bind (within_request (.lock id)) fun _ => ?_
  refine within_bind (within_bindExcept ?_ fun item => ?_) fun result => ?_
  · refine within_bindExcept (within_request (.get id)) fun found => ?_
    cases found <;> trivial
  · split
    · exact within_request (.remove id)
    · trivial
  · exact within_bind (within_request (.unlock id)) fun _ => trivial

theorem deletes_removeEach (ids : List String) :
    (removeEach ids).Within Request.IsDeleting := by
  induction ids with
  | nil => trivial
  | cons id rest ih =>
      refine within_bind (deletes_remove id) fun result => ?_
      cases result with
      | error e => trivial
      | ok item => exact ih

theorem deletes_prune : prune.Within Request.IsDeleting := by
  refine within_bind (within_request .list) fun answer => ?_
  cases answer with
  | error e => trivial
  | ok entries => exact within_bind (deletes_removeEach _) fun _ => trivial

theorem within_deleting {settings : Settings} {command : Command} (h : command.removes = true) :
    (command.operation settings).Within Request.IsDeleting := by
  cases command with
  | remove id => exact within_bind (deletes_remove id) fun _ => trivial
  | prune => exact within_bind deletes_prune fun _ => trivial
  | schedule | run | triggerFired | poll | resumeDue | cancel | registerDevice | recover =>
      cases h

/-- A property that has the cases holds of every command that deletes nothing. -/
theorem OperationCases.holds {settings : Settings} {P : {α : Type} → Operation α → Prop}
    (cases : OperationCases settings P) {command : Command} (h : command.removes = false) :
    P (command.operation settings) := by
  cases command with
  | schedule program => exact cases.bind (cases.schedule program) fun _ => cases.pure _
  | run id => exact cases.bind (cases.run id none) fun _ => cases.pure _
  | triggerFired event => exact cases.bind (cases.onTriggerFired event) fun _ => cases.pure _
  | poll => exact cases.bind cases.pollPushEvents fun _ => cases.pure _
  | resumeDue => exact cases.bind cases.resumeDue fun _ => cases.pure _
  | cancel id => exact cases.bind (cases.terminate id _) fun _ => cases.pure _
  | registerDevice identity =>
      exact cases.bind (cases.registerDevice identity) fun _ => cases.pure _
  | remove id => cases h
  | prune => cases h
  | recover => exact cases.bind cases.recover fun _ => cases.pure _

end Queue

end ProgramQueue
