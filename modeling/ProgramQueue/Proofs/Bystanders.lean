import ProgramQueue.Proofs.Comparisons

/-!
# Bystanders

A program that is over, or that nothing which the queue looks for leads to, makes no
difference to what the queue does for the others, and is left as it is.
-/

namespace ProgramQueue

/-- Nothing that the queue looks for leads it to the program: it is never due, and none of
its events is listed, unless it is over. -/
structure Item.IsUnheeded (item : Item) : Prop where
  readable : item.isReadable = true
  unlisted : ∀ event, (item.state.isDone || !item.state.pushEventIds.contains event) = true
  undue : ∀ now, Queue.isDueItem now item = false

theorem Item.unheeded_of_done {item : Item} (hreadable : item.isReadable = true)
    (hdone : item.state.isDone = true) : item.IsUnheeded where
  readable := hreadable
  unlisted _ := by rw [hdone, Bool.true_or]
  undue now := by
    have heffect : item.state.effect.isNone = false := by
      cases hnone : item.state.effect with
      | none =>
          rw [State.isDone, State.current, hnone] at hdone
          cases hdone
      | some effect => rfl
    rw [Queue.isDueItem, State.isDue, hdone, heffect, Bool.not_true, Bool.false_and,
      Bool.false_and, Bool.false_or]

namespace Queue

open ProgramQueue.Task (Within within_bind)

variable {id key : String} {item : Item} {settings : Settings}

/-! ## A program that is over and is run or stopped -/

/-- What begins with the program itself, and has nothing to do because it is over. -/
theorem alike_held_self (hreadable : item.isReadable = true) {next : Item → Attempt State}
    (hnext : next item.transcribed = pure item.transcribed.state) :
    Alike id item (fun _ _ => True) (getExisting id >>= next).run
      (getExisting id >>= next).run := by
  have hget : Alike id item
      (fun value answer =>
        value = .ok item.transcribed ∧ answer = .error (.programNotFound id))
      (getExisting id).run (getExisting id).run := by
    refine alike_bindExcept (alike_get_self hreadable) ?_
    rintro _ _ ⟨rfl, rfl⟩
    exact alike_pure ⟨rfl, rfl⟩
  refine alike_bindExcept hget ?_
  rintro _ _ ⟨rfl, rfl⟩
  change Alike id item _ (next item.transcribed).run _
  rw [hnext]
  exact alike_pure trivial

theorem alike_heldRun (hne : key ≠ id) (fired : Option String) :
    Alike id item Eq (holding settings key (runHeld settings key fired).run)
      (holding settings key (runHeld settings key fired).run) :=
  alike_holding settings key (alike_runHeld hne settings fired) fun _ => rfl

theorem alike_terminate (hne : key ≠ id) (failure : Failure) :
    Alike id item Eq (terminate settings key failure) (terminate settings key failure) :=
  alike_holding settings key (alike_terminateHeld hne failure) fun _ => rfl

/-- Whichever program is run, it makes no difference to one that is over. -/
theorem alike_run_done (hreadable : item.isReadable = true) (hdone : item.state.isDone = true)
    (key : String) :
    Alike id item (fun _ _ => True) (run settings key) (run settings key) := by
  by_cases hkey : key = id
  · subst hkey
    exact alike_holding settings key (alike_held_self hreadable
      (if_pos (item.state.isDone_transcribed.trans hdone))) fun _ => trivial
  · exact (alike_heldRun hkey none).imp fun _ _ _ => trivial

theorem alike_terminate_done (hreadable : item.isReadable = true)
    (hdone : item.state.isDone = true) (key : String) (failure : Failure) :
    Alike id item (fun _ _ => True) (terminate settings key failure)
      (terminate settings key failure) := by
  by_cases hkey : key = id
  · subst hkey
    exact alike_holding settings key (alike_held_self hreadable
      (if_pos (item.state.isDone_transcribed.trans hdone))) fun _ => trivial
  · exact (alike_terminate hkey failure).imp fun _ _ _ => trivial

theorem alike_schedule (hreadable : item.isReadable = true) (hdone : item.state.isDone = true)
    (program : Program) :
    Alike id item (fun _ _ => True) (schedule settings program)
      (schedule settings program) := by
  refine alike_bind (alike_insert program) ?_
  rintro answer _ ⟨rfl, -⟩
  cases answer with
  | error e => exact alike_pure trivial
  | ok stored => exact alike_run_done hreadable hdone program.id

/-! ## Events that fire -/

theorem alike_onTriggerFired {event : String} (hother : Push.programIdOf? event ≠ some id) :
    Alike id item Eq (onTriggerFired settings event) (onTriggerFired settings event) := by
  unfold onTriggerFired
  match hevent : Push.programIdOf? event with
  | none => exact alike_pure rfl
  | some key =>
      have hne : key ≠ id := fun heq => hother (heq ▸ hevent)
      refine alike_bind (alike_get hne) ?_
      rintro answer _ ⟨rfl, -⟩
      match answer with
      | .error e => exact alike_pure rfl
      | .ok none => exact alike_pure rfl
      | .ok (some found) =>
          dsimp only
          split
          · exact alike_pure rfl
          · refine alike_bind (alike_heldRun hne (some event)) ?_
            rintro result _ rfl
            refine alike_same ?_
            split <;> trivial

/-- An event of a program that is over is passed over. -/
theorem alike_onTriggerFired_done (hreadable : item.isReadable = true)
    (hdone : item.state.isDone = true) (event : String) :
    Alike id item Eq (onTriggerFired settings event) (onTriggerFired settings event) := by
  by_cases hown : Push.programIdOf? event = some id
  · unfold onTriggerFired
    rw [hown]
    refine alike_bind (alike_get_self hreadable) ?_
    rintro _ _ ⟨rfl, rfl⟩
    change Alike id item Eq (if item.state.transcribed.isDone then _ else _) _
    rw [if_pos (item.state.isDone_transcribed.trans hdone)]
    exact alike_pure rfl
  · exact alike_onTriggerFired hown

theorem alike_handleStatus (h : item.IsUnheeded) (status : Push.EventStatus) :
    Alike id item Eq (handleStatus settings status).run (handleStatus settings status).run := by
  unfold handleStatus
  split
  · exact alike_pure rfl
  · dsimp only
    match hevent : Push.programIdOf? status.eventId with
    | none => exact alike_pure rfl
    | some key =>
        by_cases hkey : key = id
        · subst hkey
          refine alike_bindExcept (alike_get_self h.readable) ?_
          rintro _ _ ⟨rfl, rfl⟩
          change Alike key item Eq (ExceptT.run (if _ then _ else _)) _
          rw [Item.transcribed_state, State.isDone_transcribed, State.transcribed_pushEventIds,
            if_pos (h.unlisted status.eventId)]
          exact alike_pure rfl
        · refine alike_bindExcept (alike_get hkey) ?_
          rintro answer _ ⟨rfl, -⟩
          have hother : Push.programIdOf? status.eventId ≠ some id := fun heq =>
            hkey (Option.some.inj (hevent.symm.trans heq))
          match answer with
          | .error e => exact alike_pure rfl
          | .ok none => exact alike_pure rfl
          | .ok (some found) =>
              change Alike id item Eq (ExceptT.run (if _ then _ else _))
                (ExceptT.run (if _ then _ else _))
              split
              · exact alike_pure rfl
              · split
                · refine alike_bindEq (alike_liftEq (alike_onTriggerFired hother)) ?_
                  exact fun result => alike_same (by split <;> trivial)
                · refine alike_bindEq (alike_liftEq (alike_terminate hkey _)) ?_
                  exact fun result => alike_same (by split <;> trivial)

theorem alike_handleStatuses (h : item.IsUnheeded) (statuses : List Push.EventStatus) :
    Alike id item Eq (handleStatuses settings statuses).run
      (handleStatuses settings statuses).run := by
  induction statuses with
  | nil => exact alike_pure rfl
  | cons status rest ih =>
      refine alike_bindEq (alike_handleStatus h status) fun _ => ?_
      exact alike_bindEq ih fun _ => alike_pure rfl

theorem alike_pollPushEvents (h : item.IsUnheeded) :
    Alike id item Eq (pollPushEvents settings) (pollPushEvents settings) := by
  refine alike_bind (alike_request (.push .loginEvents) trivial) ?_
  rintro answer _ rfl
  cases answer with
  | error e => exact alike_pure rfl
  | ok login => exact alike_handleStatuses h login.events

/-! ## What is done to all programs -/

theorem alike_runEach {ids : List String} (hothers : ∀ key ∈ ids, key ≠ id) :
    Alike id item Eq (runEach settings ids) (runEach settings ids) := by
  induction ids with
  | nil => exact alike_pure rfl
  | cons key rest ih =>
      obtain ⟨hkey, hrest⟩ := List.forall_mem_cons.1 hothers
      refine alike_bind (alike_heldRun hkey none) ?_
      rintro result _ rfl
      refine alike_bind (ih hrest) ?_
      rintro states _ rfl
      exact alike_same (by split <;> trivial)

/-- The program is not among those that are due. -/
theorem alike_resumeDue (h : item.IsUnheeded) :
    Alike id item Eq (resumeDue settings) (resumeDue settings) := by
  refine alike_bind (alike_same ((remote_outside _).imp fun _ => outward_of_remote)) ?_
  rintro now _ rfl
  refine alike_bind (alike_list h.readable) ?_
  rintro _ _ (⟨e, rfl, rfl⟩ | ⟨entries, rfl, rfl, hlisted⟩)
  · exact alike_pure rfl
  have hdue : (entries.filter (·.1 != id)).filter (fun entry => isDueItem now entry.2) =
      entries.filter fun entry => isDueItem now entry.2 := by
    rw [List.filter_filter]
    refine List.filter_congr fun entry hentry => ?_
    by_cases hkey : entry.1 = id
    · rw [(hlisted entry hentry).2 hkey, isDueItem_transcribed, h.undue now, Bool.false_and]
    · rw [bne_iff_ne.2 hkey, Bool.and_true]
  have hothers : ∀ key ∈ sortedIds ((entries.filter fun entry => isDueItem now entry.2).map
      (·.2.program.id)), key ≠ id := by
    intro key hkey
    obtain ⟨entry, hentry, rfl⟩ := List.mem_map.1 (List.mem_mergeSort.1 hkey)
    obtain ⟨hentry, hisDue⟩ := List.mem_filter.1 hentry
    obtain ⟨heq, hself⟩ := hlisted entry hentry
    intro hid
    rw [hself (heq.symm.trans hid), isDueItem_transcribed, h.undue now] at hisDue
    cases hisDue
  dsimp only
  rw [hdue]
  refine alike_bind (alike_runEach hothers) ?_
  rintro states _ rfl
  exact alike_pure rfl

theorem alike_recover : Alike id item Eq (recover settings) (recover settings) := by
  refine alike_bind (alike_request .wallClock trivial) ?_
  rintro now _ rfl
  exact alike_recoverStale now settings.lockTtl

/-- The events of a program that is over are not planned. -/
theorem alike_planAll (hdone : item.state.isDone = true) {entries : List (String × Item)}
    (hlisted : Listed id item entries) :
    Alike id item (fun planned others => planned = others ∧ ∀ entry ∈ planned, entry.1 ≠ id)
      (planAll settings entries) (planAll settings (entries.filter (·.1 != id))) := by
  induction entries with
  | nil => exact alike_pure ⟨rfl, List.forall_mem_nil _⟩
  | cons entry rest ih =>
      obtain ⟨⟨hprogram, hself⟩, hrest⟩ := List.forall_mem_cons.1 hlisted
      by_cases hkey : entry.1 = id
      · rw [List.filter_cons_of_neg (by simp [hkey]), planAll, hself hkey, Item.transcribed_state,
          State.isDone_transcribed, if_pos hdone]
        exact ih hrest
      · rw [List.filter_cons_of_pos (by simpa using hkey), planAll, planAll]
        split
        · exact ih hrest
        · have hplan : (planEvents settings entry.2.program entry.2.state.current).Within
              Request.IsOutward :=
            within_bind ((remote_outside _).imp fun _ => outward_of_remote) fun _ => trivial
          refine alike_bind (alike_same hplan) ?_
          rintro planned _ rfl
          refine alike_bind (ih hrest) ?_
          rintro others _ ⟨rfl, hothers⟩
          cases planned with
          | error e => exact alike_pure ⟨rfl, hothers⟩
          | ok events =>
              exact alike_pure ⟨rfl, List.forall_mem_cons.2 ⟨hprogram ▸ hkey, hothers⟩⟩

theorem alike_recordEvents {planned : List (String × List Push.Event)}
    (hothers : ∀ entry ∈ planned, entry.1 ≠ id) :
    Alike id item Eq (recordEvents planned) (recordEvents planned) := by
  induction planned with
  | nil => exact alike_pure rfl
  | cons entry rest ih =>
      obtain ⟨hkey, hrest⟩ := List.forall_mem_cons.1 hothers
      refine alike_bind (alike_update hkey fun _ hid => hid) ?_
      rintro answer _ rfl
      cases answer with
      | error e => exact alike_pure rfl
      | ok state => exact ih hrest

theorem alike_registerDevice (hreadable : item.isReadable = true)
    (hdone : item.state.isDone = true) (identity : DeviceIdentity) :
    Alike id item Eq (registerDevice settings identity) (registerDevice settings identity) := by
  refine alike_bind (alike_list hreadable) ?_
  rintro _ _ (⟨e, rfl, rfl⟩ | ⟨entries, rfl, rfl, hlisted⟩)
  · exact alike_pure rfl
  refine alike_bind (alike_planAll hdone hlisted) ?_
  rintro planned _ ⟨rfl, hothers⟩
  refine alike_bind (alike_request (.push (.updateDevice _)) trivial) ?_
  rintro answer _ rfl
  cases answer with
  | error e => exact alike_pure rfl
  | ok device =>
      refine alike_bind (alike_recordEvents hothers) ?_
      rintro result _ rfl
      exact alike_pure rfl

/-! ## Commands and histories -/

/-- The command looks for programs by itself. -/
def Command.sweeps : Command → Bool
  | poll => true
  | resumeDue => true
  | recover => true
  | _ => false

/-- A command leaves a program alone, and does for the others what it would do without it. -/
def Command.PassesBy (settings : Settings) (id : String) (item : Item) (command : Command) :
    Prop :=
  Alike id item (fun _ _ => True) (command.operation settings) (command.operation settings)

theorem passesBy_sweep (h : item.IsUnheeded) {command : Command}
    (hsweeps : command.sweeps = true) : command.PassesBy settings id item := by
  cases command with
  | poll => exact alike_bind (alike_pollPushEvents h) fun _ _ _ => alike_pure trivial
  | resumeDue => exact alike_bind (alike_resumeDue h) fun _ _ _ => alike_pure trivial
  | recover => exact alike_bind alike_recover fun _ _ _ => alike_pure trivial
  | schedule | run | triggerFired | cancel | registerDevice | remove | prune => cases hsweeps

theorem passesBy_done (hreadable : item.isReadable = true) (hdone : item.state.isDone = true)
    {command : Command} (hremoves : command.removes = false) :
    command.PassesBy settings id item := by
  have hunheeded := Item.unheeded_of_done hreadable hdone
  cases command with
  | schedule program =>
      exact alike_bind (alike_schedule hreadable hdone program) fun _ _ _ => alike_pure trivial
  | run key =>
      exact alike_bind (alike_run_done hreadable hdone key) fun _ _ _ => alike_pure trivial
  | triggerFired event =>
      exact alike_bind (alike_onTriggerFired_done hreadable hdone event) fun _ _ _ =>
        alike_pure trivial
  | cancel key =>
      exact alike_bind (alike_terminate_done hreadable hdone key cancellation) fun _ _ _ =>
        alike_pure trivial
  | registerDevice identity =>
      exact alike_bind (alike_registerDevice hreadable hdone identity) fun _ _ _ =>
        alike_pure trivial
  | poll | resumeDue | recover => exact passesBy_sweep hunheeded rfl
  | remove | prune => cases hremoves

/-- What comes after leaves the program as it is, and asks the world outside for the same as
it would without the program. -/
theorem history_passes {later : List Turn} {store : Store}
    (hpasses : ∀ turn ∈ later, turn.command.PassesBy turn.settings id item)
    (hkeyed : store.Keyed) (hfound : store.items.find? id = some item) :
    (storeAfter later store).items.find? id = some item ∧
      storeAfter later (store.without id) = (storeAfter later store).without id ∧
      calls (logOf later (store.without id)) = calls (logOf later store) := by
  induction later generalizing store with
  | nil => exact ⟨hfound, rfl, rfl⟩
  | cons turn rest ih =>
      obtain ⟨hturn, hrest⟩ := List.forall_mem_cons.1 hpasses
      obtain ⟨-, ⟨hkeyed', hfound', hstore, -⟩, hcalls⟩ :=
        hturn.abreast turn.host ⟨store, turn.outer⟩ ⟨store.without id, turn.outer⟩
          ⟨hkeyed, hfound, rfl, rfl⟩
      obtain ⟨hkept, hafter, hlater⟩ := ih hrest hkeyed' hfound'
      have hstore : turn.after (store.without id) = (turn.after store).without id := hstore
      have hcalls : calls (turn.log (store.without id)) = calls (turn.log store) := hcalls
      rw [storeAfter, storeAfter, logOf, logOf, hstore]
      refine ⟨hkept, hafter, ?_⟩
      rw [calls, calls, List.filter_append, List.filter_append]
      exact congrArg₂ _ hcalls hlater

theorem keyed_of_filed {store : Store} (h : store.Filed) : store.Keyed := fun id item hfound =>
  ⟨(h id item hfound).program, (h id item hfound).state⟩

end Queue

end ProgramQueue
