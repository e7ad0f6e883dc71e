import ProgramQueue.Proofs.Runs
import ProgramQueue.Proofs.Shapes

/-!
# An event for each leaf that can be watched

What is asked of the push server is told from the effect alone: one event for each
outstanding leaf that the server can watch, in the order of the tree, or the first lookup of
a wallet that fails.  The id of an event names the program and the leaf.
-/

namespace ProgramQueue

open ProgramQueue.Task (Follows follows_run follows_pure follows_bind follows_bindExcept
  follows_pureExcept follows_adapt follows_request follows_relay)

/-! ## The plan and the outstanding leaves -/

namespace Effect

/-- The outstanding leaves that the push server can watch, with their places. -/
def watchable (effect : Effect) : List (Path × Effect) :=
  effect.pendingLeaves.filter (·.2.isTriggerable)

end Effect

namespace Action

/-- The leaves of a plan, without what follows them. -/
def plannedLeaves (action : Action) (effect : Effect) (place : Path)
    (following : Option Action) : List (Path × Effect) :=
  (action.plan effect place following).map fun entry => (entry.1, entry.2.1)

/-- The leaves that an effect waits for, below a place. -/
def awaitedLeaves (effect : Effect) (place : Path) : List (Path × Effect) :=
  (effect.pendingLeaves.filter (·.2.isLeaf)).map fun leaf => (place ++ leaf.1, leaf.2)

theorem planPar_leaves {children : List Action} {effects : List Effect} {place : Path}
    (width : effects.length = children.length)
    (h : ∀ pair ∈ children.zip effects, ∀ place following,
      pair.1.plannedLeaves pair.2 place following = awaitedLeaves pair.2 place) (index : Nat) :
    (planPar index children effects place).map (fun entry => (entry.1, entry.2.1)) =
      ((Effect.pendingLeavesFrom index effects).filter (·.2.isLeaf)).map
        fun leaf => (place ++ leaf.1, leaf.2) := by
  induction children generalizing effects index with
  | nil =>
      obtain rfl := List.length_eq_zero_iff.1 width
      rw [planPar, Effect.pendingLeavesFrom]
      · rfl
      · simp
  | cons child children ih =>
      cases effects with
      | nil => cases width
      | cons effect effects =>
          rw [List.zip_cons_cons, List.forall_mem_cons] at h
          have hfirst := h.1 (place ++ [.par index]) none
          have hrest := ih (Nat.succ.inj width) h.2 (index + 1)
          rw [plannedLeaves, awaitedLeaves] at hfirst
          rw [planPar, Effect.pendingLeavesFrom, List.map_append, List.filter_append,
            List.map_append, hfirst, hrest]
          congr 1
          rw [List.filter_map, List.map_map]
          refine List.map_congr_left fun leaf _ => ?_
          simp

/-- What is planned at an effect that fits are the leaves that the effect waits for. -/
theorem Fits.plannedLeaves_eq {action : Action} {effect : Effect} (h : action.Fits effect)
    (place : Path) (following : Option Action) :
    action.plannedLeaves effect place following = awaitedLeaves effect place := by
  induction h generalizing place following with
  | init action =>
      rw [plannedLeaves, plan_init]
      rfl
  | await step status condition =>
      rw [plannedLeaves, plan_await, awaitedLeaves, Effect.pendingLeaves]
      simp [Effect.isLeaf]
  | @seq children status index running child hrunning _ _ ih =>
      obtain ⟨after, hafter⟩ := plan_seq hrunning status following
      have hchild := ih (place ++ [.seq index]) after
      rw [plannedLeaves, awaitedLeaves] at hchild
      rw [plannedLeaves, hafter, hchild, awaitedLeaves, Effect.pendingLeaves, List.filter_map,
        List.map_map]
      refine List.map_congr_left fun leaf _ => ?_
      simp
  | @par children status effects width ended _ _ ih =>
      rw [plannedLeaves, plan, awaitedLeaves, Effect.pendingLeaves]
      apply planPar_leaves width
      apply forall_children (fun child effect => ∀ place following,
        child.plannedLeaves effect place following = awaitedLeaves effect place) ended
      · intro child place following
        rw [plannedLeaves, Effect.completed, plan_done, awaitedLeaves, Effect.pendingLeaves]
        rfl
      · intro pair hpair hopen
        exact ih pair hpair hopen

theorem Sound.plannedLeaves_eq {action : Action} {effect : Effect} (h : action.Sound effect)
    (following : Option Action) :
    action.plannedLeaves effect [] following = awaitedLeaves effect [] := by
  cases h with
  | fits h => exact h.plannedLeaves_eq [] following
  | completed =>
      rw [plannedLeaves, Effect.completed, plan_done, awaitedLeaves, Effect.pendingLeaves]
      rfl
  | stopped =>
      rw [plannedLeaves, plan_done, awaitedLeaves, Effect.pendingLeaves]
      rfl

/-- The leaves that the push server can watch are those of the plan that it can watch. -/
theorem Sound.watchable_eq {action : Action} {effect : Effect} (h : action.Sound effect) :
    effect.watchable =
      (action.plannedLeaves effect [] none).filter (·.2.isTriggerable) := by
  rw [h.plannedLeaves_eq none, awaitedLeaves, Effect.watchable]
  simp only [List.nil_append, List.map_id', List.filter_filter]
  refine List.filter_congr fun leaf _ => ?_
  obtain ⟨place, effect⟩ := leaf
  cases effect <;> simp [Effect.isTriggerable, Effect.isLeaf]

/-- The leaves that the push server can watch are at different places. -/
theorem Sound.watchable_nodup {action : Action} {effect : Effect} (h : action.Sound effect) :
    (effect.watchable.map Prod.fst).Nodup := by
  have hplaces : ((action.plannedLeaves effect [] none).map Prod.fst).Nodup := by
    rw [plannedLeaves, List.map_map]
    exact plan_nodup action effect [] none
  rw [h.watchable_eq]
  exact hplaces.sublist (List.filter_sublist.map _)

end Action

/-- The results that the push server can watch are the leaves that it can watch. -/
theorem Program.watched_leaves {program : Program} {effect : Effect}
    (h : program.action.Sound effect) :
    (program.watched effect).map (fun result => (result.callStackId, result.effect)) =
      effect.watchable.map fun leaf => (leaf.1.text, leaf.2) := by
  rw [h.watchable_eq, Action.plannedLeaves, watched, plannedResults, List.filter_map,
    List.map_map, List.filter_map, List.map_map]
  rfl

/-! ## Events -/

namespace Condition

/-- The lookup that a condition asks for, if it does, has found a plugin. -/
inductive Finds (condition : Condition) : Log Outside → String → Prop
  | found {walletId : String} {info : WalletInfo} (hwallet : condition.wallet? = some walletId) :
      Finds condition [⟨.walletInfo walletId, .ok info⟩] info.pluginId
  | nothing {plugin : String} (hwallet : condition.wallet? = none) : Finds condition [] plugin

end Condition

namespace Push

/-- The event of a program for a condition at a place, when a plugin has been found. -/
structure Event.IsFor (programId : String) (place : Path) (condition : Condition)
    (plugin : String) (event : Event) : Prop where
  eventId : event.eventId = Push.eventId programId place.text
  trigger : triggerFor (fun _ => plugin) condition = some event.trigger
  triggered : event.triggered = false
  payload : event.pushPayload =
    some (.obj [("eventId", .str event.eventId), ("programId", .str programId)])

/-- What leaves come to one after the other: an event for each, or the first lookup of a
wallet that fails. -/
inductive Announces (programId : String) :
    List (Path × Effect) → Log Outside → Except Error (List Event) → Prop
  | nil : Announces programId [] [] (.ok [])
  | missed {place : Path} {condition : Condition} {rest : List (Path × Effect)}
      {walletId : String} {e : CollaboratorError}
      (hwallet : condition.wallet? = some walletId) :
      Announces programId ((place, .await condition) :: rest)
        [⟨.walletInfo walletId, .error e⟩] (.error (.collaborator e))
  | event {place : Path} {condition : Condition} {rest : List (Path × Effect)} {plugin : String}
      {lookup later : Log Outside} {event : Event} {result : Except Error (List Event)}
      (hfinds : condition.Finds lookup plugin)
      (hevent : event.IsFor programId place condition plugin)
      (hrest : Announces programId rest later result) :
      Announces programId ((place, .await condition) :: rest) (lookup ++ later)
        (result.map (event :: ·))

/-- A trigger that names the plugin of a wallet is there, unless the lookup fails. -/
theorem follows_lookup {walletId : String} {make : String → Trigger} {log : Log Outside}
    {result : Except Error Trigger}
    (h : (pluginOf walletId >>= fun plugin => pure (make plugin) :
      Preparing Trigger).run.Follows log result) :
    (∃ e, log = [⟨.walletInfo walletId, .error e⟩] ∧ result = .error (.collaborator e)) ∨
      ∃ info, log = [⟨.walletInfo walletId, .ok info⟩] ∧ result = .ok (make info.pluginId) := by
  have hplugin {log : Log Outside} {result : Except Error String}
      (hfollows : (pluginOf walletId).run.Follows log result) :
      ∃ given, log = [⟨.walletInfo walletId, given⟩] ∧
        result = (given.map WalletInfo.pluginId).mapError Error.collaborator := by
    obtain ⟨e, rfl, hlookup⟩ | ⟨first, info, later, rfl, hlookup, hlater⟩ :=
      follows_bindExcept.1 hfollows
    · obtain ⟨given, heq, hgiven⟩ := follows_adapt.1 hlookup
      obtain rfl := follows_request.1 hgiven
      refine ⟨given, rfl, ?_⟩
      cases given with
      | error cause => exact congrArg _ (Except.error.inj heq)
      | ok found => cases heq
    · obtain ⟨given, heq, hgiven⟩ := follows_adapt.1 hlookup
      obtain rfl := follows_request.1 hgiven
      obtain ⟨rfl, rfl⟩ := follows_pureExcept.1 hlater
      refine ⟨given, rfl, ?_⟩
      cases given with
      | error cause => cases heq
      | ok found => exact congrArg (Except.ok ·.pluginId) (Except.ok.inj heq)
  obtain ⟨e, rfl, hlookup⟩ | ⟨first, plugin, later, rfl, hlookup, hlater⟩ :=
    follows_bindExcept.1 h
  · obtain ⟨given, rfl, heq⟩ := hplugin hlookup
    cases given with
    | error cause => exact Or.inl ⟨cause, rfl, congrArg _ (Except.error.inj heq)⟩
    | ok info => cases heq
  · obtain ⟨given, rfl, heq⟩ := hplugin hlookup
    obtain ⟨rfl, rfl⟩ := follows_pureExcept.1 hlater
    cases given with
    | error cause => cases heq
    | ok info => exact Or.inr ⟨info, rfl, congrArg (Except.ok <| make ·) (Except.ok.inj heq)⟩

/-- A condition that the server can watch has a trigger, unless the lookup fails. -/
theorem follows_triggerOf {condition : Condition} (hwatch : condition.isTriggerable = true)
    {log : Log Outside} {result : Except Error Trigger}
    (h : (triggerOf (.await condition)).run.Follows log result) :
    (∃ walletId e, condition.wallet? = some walletId ∧
        log = [⟨.walletInfo walletId, .error e⟩] ∧ result = .error (.collaborator e)) ∨
      ∃ plugin trigger, condition.Finds log plugin ∧
        triggerFor (fun _ => plugin) condition = some trigger ∧ result = .ok trigger := by
  cases condition with
  | unixtime timestamp => cases hwatch
  | priceLevel pair above below =>
      obtain ⟨rfl, rfl⟩ := follows_pureExcept.1 h
      exact Or.inr ⟨"", _, .nothing rfl, rfl, rfl⟩
  | addressBalance address walletId tokenId above below =>
      obtain ⟨e, rfl, rfl⟩ | ⟨info, rfl, rfl⟩ := follows_lookup h
      · exact Or.inl ⟨walletId, e, rfl, rfl, rfl⟩
      · exact Or.inr ⟨info.pluginId, _, .found rfl, rfl, rfl⟩
  | txConfs txId walletId confirmations =>
      obtain ⟨e, rfl, rfl⟩ | ⟨info, rfl, rfl⟩ := follows_lookup h
      · exact Or.inl ⟨walletId, e, rfl, rfl, rfl⟩
      · exact Or.inr ⟨info.pluginId, _, .found rfl, rfl, rfl⟩

/-- The event for a leaf that the server can watch is there, unless the lookup fails. -/
theorem follows_prepareLeaf {programId : String} {txs : List BroadcastTx} {place : Path}
    {condition : Condition} (hwatch : condition.isTriggerable = true) {log : Log Outside}
    {result : Except Error Event}
    (h : (prepareLeaf programId txs place.text (.await condition)).run.Follows log result) :
    (∃ walletId e, condition.wallet? = some walletId ∧
        log = [⟨.walletInfo walletId, .error e⟩] ∧ result = .error (.collaborator e)) ∨
      ∃ plugin event, condition.Finds log plugin ∧ event.IsFor programId place condition plugin ∧
        result = .ok event := by
  obtain ⟨cause, rfl, htrigger⟩ | ⟨lookup, trigger, rest, rfl, htrigger, hrest⟩ :=
    follows_bindExcept.1 h
  · obtain ⟨walletId, e, hwallet, rfl, heq⟩ | ⟨plugin, trigger, -, -, heq⟩ :=
      follows_triggerOf hwatch htrigger
    · exact Or.inl ⟨walletId, e, hwallet, rfl, congrArg _ (Except.error.inj heq)⟩
    · cases heq
  · obtain ⟨walletId, e, -, -, heq⟩ | ⟨plugin, found, hfinds, hfor, heq⟩ :=
      follows_triggerOf hwatch htrigger
    · cases heq
    · cases heq
      obtain ⟨rfl, rfl⟩ := follows_pureExcept.1 hrest
      rw [List.append_nil]
      exact Or.inr ⟨plugin, _, hfinds, ⟨rfl, hfor, rfl, rfl⟩, rfl⟩

/-- The only leaf of a condition is the condition itself. -/
theorem follows_prepareLeaves {programId : String} {txs : List BroadcastTx} {place : Path}
    {condition : Condition} (hwatch : condition.isTriggerable = true) {log : Log Outside}
    {result : Except Error (List Event)}
    (h : (prepareLeaves programId txs place.text
      (Effect.await condition).pendingLeaves).run.Follows log result) :
    (∃ walletId e, condition.wallet? = some walletId ∧
        log = [⟨.walletInfo walletId, .error e⟩] ∧ result = .error (.collaborator e)) ∨
      ∃ plugin event, condition.Finds log plugin ∧ event.IsFor programId place condition plugin ∧
        result = .ok [event] := by
  rw [Effect.pendingLeaves, prepareLeaves, Path.join_nil] at h
  obtain ⟨e, rfl, hleaf⟩ | ⟨first, event, later, rfl, hleaf, hlater⟩ := follows_bindExcept.1 h
  · obtain ⟨walletId, missed, hwallet, rfl, heq⟩ | ⟨plugin, event, -, -, heq⟩ :=
      follows_prepareLeaf hwatch hleaf
    · exact Or.inl ⟨walletId, missed, hwallet, rfl, congrArg _ (Except.error.inj heq)⟩
    · cases heq
  · obtain ⟨walletId, missed, -, -, heq⟩ | ⟨plugin, found, hfinds, hfor, heq⟩ :=
      follows_prepareLeaf hwatch hleaf
    · cases heq
    · cases heq
      have hnone : later = [] ∧ result = .ok [event] := by
        obtain ⟨e, -, hnil⟩ | ⟨none, others, last, rfl, hnil, hlast⟩ :=
          follows_bindExcept.1 hlater
        · cases (follows_pureExcept.1 hnil).2
        · obtain ⟨rfl, heq⟩ := follows_pureExcept.1 hnil
          cases heq
          exact follows_pureExcept.1 hlast
      obtain ⟨rfl, rfl⟩ := hnone
      rw [List.append_nil]
      exact Or.inr ⟨plugin, event, hfinds, hfor, rfl⟩

/-- What is prepared for results that the server can watch, one for each of some leaves. -/
theorem announces_prepared (programId : String) {results : List ExecutionResult}
    {leaves : List (Path × Effect)} (hwatch : ∀ result ∈ results, CanWatch result)
    (hleaves : results.map (fun result => (result.callStackId, result.effect)) =
      leaves.map fun leaf => (leaf.1.text, leaf.2))
    {log : Log Outside} {value : Except Error (List Event)}
    (h : (prepareEvents programId results).run.Follows log value) :
    Announces programId leaves log value := by
  induction results generalizing leaves log value with
  | nil =>
      obtain rfl := List.map_eq_nil_iff.1 hleaves.symm
      obtain ⟨rfl, rfl⟩ := follows_pureExcept.1 h
      exact .nil
  | cons result rest ih =>
      obtain ⟨⟨condition, heffect, htriggerable⟩, hcarried⟩ := hwatch result List.mem_cons_self
      have hrest := fun other hother => hwatch other (List.mem_cons_of_mem _ hother)
      obtain ⟨effect, action, place⟩ := result
      subst heffect
      cases leaves with
      | nil => cases hleaves
      | cons leaf leaves =>
          obtain ⟨path, effect⟩ := leaf
          obtain ⟨hfirst, hsame⟩ := List.cons.inj hleaves
          change (place, Effect.await condition) = (path.text, effect) at hfirst
          obtain ⟨rfl, rfl⟩ := Prod.mk.inj hfirst
          have hevents : (do
              let events ← prepareLeaves programId (txsFor action) path.text
                (Effect.await condition).pendingLeaves
              let others ← prepareEvents programId rest
              return events ++ others : Preparing (List Event)).run.Follows log value := by
            rw [prepareEvents] at h
            cases action with
            | none => exact h
            | some action =>
                simp only [broadcastTxsOf_eq (hcarried action rfl)] at h
                exact h
          obtain ⟨e, rfl, hleaf⟩ | ⟨first, events, later, rfl, hleaf, hlater⟩ :=
            follows_bindExcept.1 hevents
          · obtain ⟨walletId, missed, hwallet, rfl, heq⟩ | ⟨plugin, event, -, -, heq⟩ :=
              follows_prepareLeaves htriggerable hleaf
            · rw [heq]
              exact .missed hwallet
            · cases heq
          · obtain ⟨walletId, missed, -, -, heq⟩ | ⟨plugin, event, hfinds, hevent, heq⟩ :=
              follows_prepareLeaves htriggerable hleaf
            · cases heq
            · cases heq
              obtain ⟨e, rfl, hothers⟩ | ⟨others, found, last, rfl, hothers, hlast⟩ :=
                follows_bindExcept.1 hlater
              · exact .event hfinds hevent (ih hrest hsame hothers)
              · obtain ⟨rfl, rfl⟩ := follows_pureExcept.1 hlast
                rw [List.append_nil]
                exact .event hfinds hevent (ih hrest hsame hothers)

/-- What an event carries beside its id, trigger and payload makes no difference. -/
theorem Announces.map {programId : String} {leaves : List (Path × Effect)} {log : Log Outside}
    {result : Except Error (List Event)} (h : Announces programId leaves log result)
    (message : Option String) :
    Announces programId leaves log
      (result.map (List.map fun event => { event with pushMessage := message })) := by
  induction h with
  | nil => exact .nil
  | missed hwallet => exact .missed hwallet
  | @event place condition rest plugin lookup later event result hfinds hevent _ ih =>
      have hmarked : { event with pushMessage := message }.IsFor programId place condition plugin :=
        ⟨hevent.eventId, hevent.trigger, hevent.triggered, hevent.payload⟩
      have hlater := Announces.event hfinds hmarked ih
      cases result with
      | error e => exact hlater
      | ok events => exact hlater

/-- There is an event for each leaf in order, unless a lookup fails. -/
theorem Announces.ids {programId : String} {leaves : List (Path × Effect)} {log : Log Outside}
    {result : Except Error (List Event)} (h : Announces programId leaves log result) :
    (∃ e, result = .error (.collaborator e)) ∨
      ∃ events, result = .ok events ∧
        events.map (·.eventId) = leaves.map fun leaf => eventId programId leaf.1.text := by
  induction h with
  | nil => exact Or.inr ⟨[], rfl, rfl⟩
  | missed => exact Or.inl ⟨_, rfl⟩
  | event _ hevent _ ih =>
      obtain ⟨e, rfl⟩ | ⟨events, rfl, hids⟩ := ih
      · exact Or.inl ⟨e, rfl⟩
      · refine Or.inr ⟨_, rfl, ?_⟩
        rw [List.map_cons, List.map_cons, hids, hevent.eventId]

/-- An event id names the program and the place. -/
theorem eventId_names {programId other : String} {first second : Path}
    (h : eventId programId first.text = eventId other second.text) :
    programId = other ∧ first = second := by
  have hprogram := congrArg programIdOf? h
  rw [programIdOf?_eventId, programIdOf?_eventId] at hprogram
  obtain rfl := Option.some.inj hprogram
  exact ⟨rfl, eventId_injective h⟩

end Push

namespace Program

/-- Whatever a program has come to, and whatever the lookups of wallets answer: what is
asked of the push server is one event for each outstanding leaf that it can watch, in the
order of the tree, or the first lookup that fails.  The ids are different; each of them
names the program and the place of its leaf, and no other program or place has it. -/
theorem Reached.announces_leaves {σ : Type} {program : Program} {effect : Effect}
    (h : program.Reached effect) (settings : Settings) (world : World Queue.Surroundings σ)
    (start : σ) :
    let planned := Queue.planEvents settings program effect
    let leaves := effect.watchable
    (∃ lookups, Queue.Asked lookups (planned.log world start) ∧
      Push.Announces program.id leaves lookups (planned.run world start).value) ∧
    ((∃ e, (planned.run world start).value = .error (.collaborator e)) ∨
      ∃ events, (planned.run world start).value = .ok events ∧
        events.map (·.eventId) = leaves.map fun leaf =>
          Push.eventId program.id leaf.1.text) ∧
    (leaves.map fun leaf => Push.eventId program.id leaf.1.text).Nodup ∧
    (∀ leaf ∈ leaves,
      Push.programIdOf? (Push.eventId program.id leaf.1.text) = some program.id) ∧
    ∀ other (first second : Path),
      Push.eventId program.id first.text = Push.eventId other second.text →
        program.id = other ∧ first = second := by
  intro planned leaves
  obtain ⟨asked, result, later, hlog, hasked, hlater⟩ :=
    follows_bind.1 (follows_run world planned start)
  obtain ⟨rfl, hvalue⟩ := follows_pure.1 hlater
  obtain ⟨lookups, hrelayed, hprepared⟩ := follows_relay hasked
  have hannounced := Push.announces_prepared program.id
    (fun _ => canWatch_of_mem) (watched_leaves h.sound) hprepared
  have hmarked := hannounced.map settings.pushMessage
  rw [List.append_nil] at hlog
  rw [hlog, hvalue]
  refine ⟨⟨lookups, hrelayed, hmarked⟩, hmarked.ids, ?_, ?_, ?_⟩
  · have hinjective : Function.Injective fun place : Path => Push.eventId program.id place.text :=
      fun _ _ => Push.eventId_injective
    have hids := h.sound.watchable_nodup.map hinjective
    rw [List.map_map] at hids
    exact hids
  · intro leaf _
    exact Push.programIdOf?_eventId program.id leaf.1
  · intro other first second heq
    exact Push.eventId_names heq

/-- Two payments at once, under a name with the marks that divide the parts of ids. -/
def payouts : Program :=
  ⟨"pay:out.par_0", .par [.step (.broadcast ⟨"wallet", "bitcoin", [1]⟩) none,
    .step (.broadcast ⟨"other", "bitcoin", [2]⟩) none] none, none⟩

/-- Both payments were sent. -/
def payoutsSent : Effect :=
  .par [.await (.txConfs "tx" "wallet" 1), .await (.txConfs "tx" "other" 1)]

/-- Each of the two payments gets an event of its own. -/
theorem payouts_announced :
    payouts.Reached payoutsSent ∧
    ∃ events, ((Queue.planEvents ⟨"queue", 1, 300, none, 0⟩ payouts payoutsSent).run
        (Queue.Host.granting 0).world ⟨.empty, ()⟩).value = .ok events ∧
      events.map (·.eventId) = ["pay:out.par_0:par_0", "pay:out.par_0:par_1"] ∧
      (∀ event ∈ events, Push.programIdOf? event.eventId = some "pay:out.par_0") := by
  have hreached : payouts.Reached payoutsSent :=
    .advance .fresh (follows_run (Queue.Host.granting 0).outside (payouts.advance 0 .init) ())
  obtain ⟨-, ⟨e, herror⟩ | ⟨events, hevents, hids⟩, -, hprogram, -⟩ :=
    hreached.announces_leaves ⟨"queue", 1, 300, none, 0⟩ (Queue.Host.granting 0).world ⟨.empty, ()⟩
  · cases herror
  · refine ⟨hreached, events, hevents, hids.trans ?_, ?_⟩
    · rfl
    · intro event hevent
      have hid := List.mem_map_of_mem (f := (·.eventId)) hevent
      rw [hids] at hid
      obtain ⟨leaf, hleaf, heq⟩ := List.mem_map.1 hid
      rw [← heq]
      exact hprogram leaf hleaf

end Program

end ProgramQueue
