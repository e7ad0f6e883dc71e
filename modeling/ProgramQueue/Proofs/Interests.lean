import Mathlib.Data.List.Forall2
import ProgramQueue.Proofs.Logs
import ProgramQueue.Proofs.Places

/-!
# The events for what a program waits for

What can be asked of the push server is asked in full or not at all: there is one event
for each condition, or a lookup of a wallet has failed.  The only requests made on the
way are lookups of wallets.
-/

namespace ProgramQueue

/-- The wallet whose plugin the push server has to be told. -/
def Condition.wallet? : Condition → Option String
  | addressBalance _ walletId _ _ _ => some walletId
  | txConfs _ walletId _ => some walletId
  | priceLevel _ _ _ => none
  | unixtime _ => none

/-- The wallet that a leaf needs in order to be watched. -/
def Effect.wallet? : Effect → Option String
  | await condition => condition.wallet?
  | _ => none

end ProgramQueue

namespace ProgramQueue.Push

open ProgramQueue.Task (Follows follows_pure follows_bind follows_bindExcept
  follows_pureExcept follows_throw follows_request follows_adapt)

/-! ## Lookups -/

/-- Lookups of wallets that all succeed. -/
def Found (log : Log Outside) : Prop :=
  ∀ entry ∈ log, ∃ wallet info, entry = ⟨.walletInfo wallet, .ok info⟩

/-- Lookups of wallets of which the last one fails. -/
def Missed (log : Log Outside) (e : CollaboratorError) : Prop :=
  ∃ found wallet, Found found ∧ log = found ++ [⟨.walletInfo wallet, .error e⟩]

/-- Whoever is looked up has the plugin that a table says. -/
def Names (plugin : String → String) (log : Log Outside) : Prop :=
  ∀ wallet info, ⟨.walletInfo wallet, .ok info⟩ ∈ log → info.pluginId = plugin wallet

theorem Found.nil : Found [] := List.forall_mem_nil _

theorem Found.append {first later : Log Outside} (hfirst : Found first) (hlater : Found later) :
    Found (first ++ later) := fun entry hentry =>
  (List.mem_append.1 hentry).elim (hfirst entry) (hlater entry)

theorem Found.wallet {log : Log Outside} (h : Found log) {entry : Answered Outside}
    (hentry : entry ∈ log) : ∃ wallet, entry.request = .walletInfo wallet := by
  obtain ⟨wallet, info, rfl⟩ := h entry hentry
  exact ⟨wallet, rfl⟩

theorem Missed.wallet {log : Log Outside} {e : CollaboratorError} (h : Missed log e)
    {entry : Answered Outside} (hentry : entry ∈ log) :
    ∃ wallet, entry.request = .walletInfo wallet := by
  obtain ⟨found, last, hfound, rfl⟩ := h
  obtain hmem | hlast := List.mem_append.1 hentry
  · exact hfound.wallet hmem
  · rw [List.mem_singleton.1 hlast]
    exact ⟨last, rfl⟩

theorem Missed.after {first later : Log Outside} {e : CollaboratorError}
    (hfirst : Found first) (hlater : Missed later e) : Missed (first ++ later) e := by
  obtain ⟨found, wallet, hfound, rfl⟩ := hlater
  exact ⟨first ++ found, wallet, hfirst.append hfound, (List.append_assoc ..).symm⟩

theorem Names.left {plugin : String → String} {first later : Log Outside}
    (h : Names plugin (first ++ later)) : Names plugin first := fun wallet info hmem =>
  h wallet info (List.mem_append_left _ hmem)

theorem Names.right {plugin : String → String} {first later : Log Outside}
    (h : Names plugin (first ++ later)) : Names plugin later := fun wallet info hmem =>
  h wallet info (List.mem_append_right _ hmem)

/-! ## What is asked for -/

/-- The trigger for a condition, given the plugins of wallets. -/
def triggerFor (plugin : String → String) : Condition → Option Trigger
  | .addressBalance address walletId tokenId above below =>
      some (.addressBalance (plugin walletId) tokenId address above below)
  | .txConfs txId walletId confirmations =>
      some (.txConfirm (plugin walletId) confirmations txId)
  | .priceLevel pair above below => some (.priceLevel pair above below)
  | .unixtime _ => none

/-- The transactions that are submitted for the step that follows, if any does. -/
def txsFor : Option Action → List BroadcastTx
  | some (.step (.broadcast transaction) _) => [⟨transaction.pluginId, transaction.rawTx⟩]
  | _ => []

/-- The event for a result, given the plugins of wallets and the text to show. -/
def eventFor (plugin : String → String) (message : Option String) (programId : String)
    (result : ExecutionResult) : Option Event :=
  match result.effect with
  | .await condition => (triggerFor plugin condition).map fun trigger =>
      { eventId := eventId programId result.callStackId
        trigger := trigger
        triggered := false
        pushMessage := message
        pushPayload := some (payloadOf programId (eventId programId result.callStackId))
        broadcastTxs := txsFor result.action }
  | _ => none

theorem eventFor_message {plugin : String → String} {message : Option String}
    {programId : String} {result : ExecutionResult} {event : Event}
    (h : eventFor plugin none programId result = some event) :
    eventFor plugin message programId result =
      some { event with pushMessage := message } := by
  unfold eventFor at h ⊢
  split at h
  · obtain ⟨trigger, htrigger, rfl⟩ := Option.map_eq_some_iff.1 h
    simp [*]
  · cases h

/-- A result that the push server can watch: a condition, and a step only if it can
be carried out. -/
structure CanWatch (result : ExecutionResult) : Prop where
  condition : ∃ condition, result.effect = .await condition ∧ condition.isTriggerable = true
  carried : ∀ action, result.action = some action → action.hasPushPayload = true

/-- An event is the one for a result, whatever table of plugins fits the lookups. -/
structure Describes (programId : String) (log : Log Outside) (result : ExecutionResult)
    (event : Event) : Prop where
  id : event.eventId = eventId programId result.callStackId
  names : ∀ plugin, Names plugin log → eventFor plugin none programId result = some event

/-! ## How it is prepared -/

/-- A task looks up wallets only.  If one lookup fails, it stops with that error; if all
succeed, its value is such as is asked for. -/
def Prepares {α : Type} (task : Preparing α) (wanted : Log Outside → α → Prop) : Prop :=
  ∀ log result, task.run.Follows log result →
    (∃ e, result = .error (.collaborator e) ∧ Missed log e) ∨
      ∃ value, result = .ok value ∧ Found log ∧ wanted log value

variable {α β : Type}

theorem prepares_pure {value : α} {wanted : Log Outside → α → Prop} (h : wanted [] value) :
    Prepares (pure value) wanted := by
  intro log result hfollows
  obtain ⟨rfl, rfl⟩ := follows_pureExcept.1 hfollows
  exact Or.inr ⟨value, rfl, Found.nil, h⟩

theorem prepares_bind {task : Preparing α} {next : α → Preparing β}
    {middle : Log Outside → α → Prop} {wanted : Log Outside → β → Prop}
    (hfirst : Prepares task middle)
    (hlater : ∀ first value, middle first value →
      Prepares (next value) fun later => wanted (first ++ later)) :
    Prepares (task >>= next) wanted := by
  intro log result hfollows
  obtain ⟨e, rfl, h⟩ | ⟨first, value, later, rfl, h, hrest⟩ := follows_bindExcept.1 hfollows
  · obtain ⟨e, heq, hmissed⟩ | ⟨value, heq, -⟩ := hfirst _ _ h
    · cases heq
      exact Or.inl ⟨e, rfl, hmissed⟩
    · cases heq
  · obtain ⟨e, heq, -⟩ | ⟨value, heq, hfound, hmiddle⟩ := hfirst _ _ h
    · cases heq
    · cases heq
      obtain ⟨e, heq, hmissed⟩ | ⟨result, heq, hfound', hwanted⟩ := hlater _ _ hmiddle _ _ hrest
      · exact Or.inl ⟨e, heq, hmissed.after hfound⟩
      · exact Or.inr ⟨result, heq, hfound.append hfound', hwanted⟩

theorem prepares_pluginOf (walletId : String) :
    Prepares (pluginOf walletId) fun log name =>
      ∀ plugin, Names plugin log → name = plugin walletId := by
  have hlookup : Prepares (ExceptT.adapt Error.collaborator (Outside.walletInfo walletId))
      fun log info => log = [⟨.walletInfo walletId, .ok info⟩] := by
    intro log result hfollows
    obtain ⟨given, rfl, hgiven⟩ := follows_adapt.1 hfollows
    obtain rfl := follows_request.1 hgiven
    cases given with
    | error e => exact Or.inl ⟨e, rfl, [], walletId, Found.nil, rfl⟩
    | ok info =>
        refine Or.inr ⟨info, rfl, fun _ hentry => ?_, rfl⟩
        exact ⟨walletId, info, List.mem_singleton.1 hentry⟩
  refine prepares_bind hlookup ?_
  rintro first info rfl
  exact prepares_pure fun plugin hnames => hnames walletId info List.mem_cons_self

/-- A condition that the server can watch has a trigger. -/
theorem prepares_triggerOf {condition : Condition}
    (hwatch : condition.isTriggerable = true) :
    Prepares (triggerOf (.await condition)) fun log trigger =>
      ∀ plugin, Names plugin log → triggerFor plugin condition = some trigger := by
  cases condition with
  | unixtime timestamp => cases hwatch
  | priceLevel pair above below => exact prepares_pure fun _ _ => rfl
  | addressBalance address walletId tokenId above below =>
      refine prepares_bind (prepares_pluginOf walletId) fun first name hname => ?_
      refine prepares_pure fun plugin hnames => ?_
      rw [hname plugin hnames.left]
      rfl
  | txConfs txId walletId confirmations =>
      refine prepares_bind (prepares_pluginOf walletId) fun first name hname => ?_
      refine prepares_pure fun plugin hnames => ?_
      rw [hname plugin hnames.left]
      rfl

/-- What can be carried out has transactions to submit. -/
theorem broadcastTxsOf_eq {action : Action} (h : action.hasPushPayload = true) :
    broadcastTxsOf action = .ok (txsFor (some action)) := by
  cases action with
  | step step status => cases step <;> first | rfl | cases h
  | seq children status => cases h
  | par children status => cases h

theorem prepares_leaf (programId place : String) (action : Option Action)
    {condition : Condition} (hwatch : condition.isTriggerable = true) :
    Prepares (prepareLeaf programId (txsFor action) place (.await condition))
      fun log event => Describes programId log ⟨.await condition, action, place⟩ event := by
  refine prepares_bind (prepares_triggerOf hwatch) fun first trigger htrigger => ?_
  refine prepares_pure ⟨rfl, fun plugin hnames => ?_⟩
  simp only [eventFor, htrigger plugin hnames.left, Option.map_some]

/-- The only leaf of a condition is the condition itself. -/
theorem prepares_leaves (programId place : String) (action : Option Action)
    {condition : Condition} (hwatch : condition.isTriggerable = true) :
    Prepares (prepareLeaves programId (txsFor action) place
        (Effect.await condition).pendingLeaves) fun log events =>
      ∃ event, events = [event] ∧
        Describes programId log ⟨.await condition, action, place⟩ event := by
  rw [Effect.pendingLeaves, prepareLeaves, Path.join_nil]
  refine prepares_bind (prepares_leaf programId place action hwatch) fun first event hevent => ?_
  have hnone : Prepares (prepareLeaves programId (txsFor action) place [])
      fun log events => log = [] ∧ events = [] := prepares_pure ⟨rfl, rfl⟩
  refine prepares_bind hnone ?_
  rintro _ _ ⟨rfl, rfl⟩
  exact prepares_pure ⟨event, rfl, by simpa using hevent⟩

theorem Describes.left {programId : String} {first : Log Outside} {result : ExecutionResult}
    {event : Event} (h : Describes programId first result event) (later : Log Outside) :
    Describes programId (first ++ later) result event :=
  ⟨h.id, fun plugin hnames => h.names plugin hnames.left⟩

theorem Describes.right {programId : String} {later : Log Outside} {result : ExecutionResult}
    {event : Event} (h : Describes programId later result event) (first : Log Outside) :
    Describes programId (first ++ later) result event :=
  ⟨h.id, fun plugin hnames => h.names plugin hnames.right⟩

/-- There is one event for each result that can be watched, in the same order. -/
theorem prepares_events (programId : String) (results : List ExecutionResult)
    (hwatch : ∀ result ∈ results, CanWatch result) :
    Prepares (prepareEvents programId results) fun log events =>
      List.Forall₂ (Describes programId log) results events := by
  induction results with
  | nil => exact prepares_pure .nil
  | cons result rest ih =>
      have hrest := ih fun other hother => hwatch other (List.mem_cons_of_mem _ hother)
      obtain ⟨⟨condition, heffect, htriggerable⟩, hcarried⟩ := hwatch result List.mem_cons_self
      obtain ⟨effect, action, place⟩ := result
      subst heffect
      have hevents : Prepares (do
          let events ← prepareLeaves programId (txsFor action) place
            (Effect.await condition).pendingLeaves
          let others ← prepareEvents programId rest
          return events ++ others) fun log events =>
            List.Forall₂ (Describes programId log)
              (⟨.await condition, action, place⟩ :: rest) events := by
        refine prepares_bind (prepares_leaves programId place action htriggerable) ?_
        rintro first _ ⟨event, rfl, hevent⟩
        refine prepares_bind hrest fun later others hothers => prepares_pure ?_
        refine .cons ?_ (hothers.imp fun _ _ h => ?_)
        · simpa using hevent.left later
        · simpa using h.right first
      rw [prepareEvents]
      cases action with
      | none => exact hevents
      | some action =>
          simp only [broadcastTxsOf_eq (hcarried action rfl)]
          exact hevents

/-! ## Which wallets are looked up -/

/-- A task looks up these wallets, one after the other; if it stops with an error, it may
have left out the last ones. -/
def LooksUp (task : Preparing α) (wallets : List String) : Prop :=
  ∀ log result, task.run.Follows log result →
    ∃ asked rest, wallets = asked ++ rest ∧
      log.map Answered.request = asked.map Query.walletInfo ∧
      ∀ value, result = .ok value → rest = []

theorem looksUp_pure (value : α) : LooksUp (pure value) [] := by
  intro log result hfollows
  obtain ⟨rfl, -⟩ := follows_pureExcept.1 hfollows
  exact ⟨[], [], rfl, rfl, fun _ _ => rfl⟩

theorem looksUp_bind {task : Preparing α} {next : α → Preparing β} {wallets others : List String}
    (hfirst : LooksUp task wallets) (hlater : ∀ value, LooksUp (next value) others) :
    LooksUp (task >>= next) (wallets ++ others) := by
  intro log result hfollows
  obtain ⟨e, rfl, h⟩ | ⟨first, value, later, rfl, h, hrest⟩ := follows_bindExcept.1 hfollows
  · obtain ⟨asked, rest, rfl, hlog, -⟩ := hfirst _ _ h
    exact ⟨asked, rest ++ others, List.append_assoc .., hlog, nofun⟩
  · obtain ⟨asked, rest, rfl, hlog, hnone⟩ := hfirst _ _ h
    obtain ⟨more, left, rfl, hlog', hnone'⟩ := hlater value _ _ hrest
    obtain rfl := hnone value rfl
    refine ⟨asked ++ more, left, ?_, ?_, hnone'⟩
    · rw [List.append_nil, List.append_assoc]
    · rw [List.map_append, List.map_append, hlog, hlog']

theorem looksUp_error (e : Error) (wallets : List String) :
    LooksUp (ExceptT.mk (.done (.error e)) : Preparing α) wallets := by
  intro log result hfollows
  obtain ⟨rfl, rfl⟩ := follows_pure.1 hfollows
  exact ⟨[], wallets, rfl, rfl, nofun⟩

theorem looksUp_pluginOf (walletId : String) : LooksUp (pluginOf walletId) [walletId] := by
  have hlookup : LooksUp (ExceptT.adapt Error.collaborator (Outside.walletInfo walletId))
      [walletId] := by
    intro log result hfollows
    obtain ⟨given, -, hgiven⟩ := follows_adapt.1 hfollows
    obtain rfl := follows_request.1 hgiven
    exact ⟨[walletId], [], rfl, rfl, fun _ _ => rfl⟩
  exact looksUp_bind hlookup fun _ => looksUp_pure _

theorem looksUp_triggerOf (leaf : Effect) : LooksUp (triggerOf leaf) leaf.wallet?.toList := by
  cases leaf with
  | await condition =>
      cases condition with
      | addressBalance => exact looksUp_bind (looksUp_pluginOf _) fun _ => looksUp_pure _
      | txConfs => exact looksUp_bind (looksUp_pluginOf _) fun _ => looksUp_pure _
      | priceLevel => exact looksUp_pure _
      | unixtime => exact looksUp_error _ _
  | init | seq | par | done => exact looksUp_error _ _

theorem looksUp_leaf (programId : String) (txs : List BroadcastTx) (place : String)
    (leaf : Effect) : LooksUp (prepareLeaf programId txs place leaf) leaf.wallet?.toList := by
  have hleaf := looksUp_bind (looksUp_triggerOf leaf) fun trigger => looksUp_pure (α := Event)
    { eventId := eventId programId place
      trigger := trigger
      triggered := false
      pushMessage := none
      pushPayload := some (payloadOf programId (eventId programId place))
      broadcastTxs := txs }
  rwa [List.append_nil] at hleaf

theorem looksUp_leaves (programId : String) (txs : List BroadcastTx) (place : String)
    (leaves : List (Path × Effect)) :
    LooksUp (prepareLeaves programId txs place leaves)
      (leaves.flatMap fun leaf => leaf.2.wallet?.toList) := by
  induction leaves with
  | nil => exact looksUp_pure _
  | cons leaf rest ih =>
      refine looksUp_bind (looksUp_leaf _ _ _ _) fun event => ?_
      have hrest := looksUp_bind ih fun events => looksUp_pure (event :: events)
      rwa [List.append_nil] at hrest

/-- The wallets that are looked up for results. -/
def walletsOf (results : List ExecutionResult) : List String :=
  results.flatMap fun result =>
    result.effect.pendingLeaves.flatMap fun leaf => leaf.2.wallet?.toList

theorem looksUp_events (programId : String) (results : List ExecutionResult) :
    LooksUp (prepareEvents programId results) (walletsOf results) := by
  induction results with
  | nil => exact looksUp_pure _
  | cons result rest ih =>
      have hevents (txs : List BroadcastTx) := looksUp_bind
        (looksUp_leaves programId txs result.callStackId result.effect.pendingLeaves)
        fun events => looksUp_bind ih fun others => looksUp_pure (events ++ others)
      rw [List.append_nil] at hevents
      rw [prepareEvents]
      cases result.action with
      | none => exact hevents []
      | some action =>
          cases htxs : broadcastTxsOf action with
          | error e =>
              simp only [htxs]
              exact looksUp_error e _
          | ok txs =>
              simp only [htxs]
              exact hevents txs

end ProgramQueue.Push
