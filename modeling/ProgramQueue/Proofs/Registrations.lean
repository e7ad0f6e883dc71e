import ProgramQueue.Proofs.Histories
import ProgramQueue.Proofs.Servers

/-!
# What is listed is what the server keeps

The ids that are listed for an unfinished program are those of its outstanding events,
and an event that is still live is the one that would be asked for now.  Only what has
changed is told to the server.  So it matters that a leaf, once it is waited for, is
waited for in the same way until it is over.
-/

namespace ProgramQueue

open Push (programIdOf? eventId eventFor)

namespace Program

variable {program : Program} {effect : Effect}

/-- No two results have events with one id. -/
theorem eventIds_nodup (program : Program) (effect : Effect) :
    ((program.plannedResults effect).map
      fun result => eventId program.id result.callStackId).Nodup := by
  have hids : (program.plannedResults effect).map
        (fun result => eventId program.id result.callStackId) =
      ((program.action.plan effect [] none).map Prod.fst).map
        fun place => eventId program.id place.text := by
    simp [plannedResults, Function.comp_def]
  rw [hids]
  exact (Action.plan_nodup _ _ _ _).map fun _ _ => Push.eventId_injective

theorem wantedIds_nodup (program : Program) (effect : Effect) :
    (program.wantedIds effect).Nodup :=
  (List.filter_sublist.map _).nodup (program.eventIds_nodup effect)

theorem planned_injective {first second : ExecutionResult}
    (hfirst : first ∈ program.plannedResults effect)
    (hsecond : second ∈ program.plannedResults effect)
    (heq : eventId program.id first.callStackId = eventId program.id second.callStackId) :
    first = second :=
  List.inj_on_of_nodup_map (program.eventIds_nodup effect) hfirst hsecond heq

end Program

namespace Push

theorem eventFor_id {plugin : String → String} {message : Option String} {programId : String}
    {result : ExecutionResult} {event : Event}
    (h : eventFor plugin message programId result = some event) :
    event.eventId = eventId programId result.callStackId := by
  unfold eventFor at h
  split at h
  · obtain ⟨_, -, rfl⟩ := Option.map_eq_some_iff.1 h
    rfl
  · cases h

end Push

namespace Queue

/-- Whoever is looked up in a log has the plugin that a table says. -/
def NamesWallets (plugin : String → String) (log : Log Surroundings) : Prop :=
  ∀ wallet info, ⟨.outside (.walletInfo wallet), .ok info⟩ ∈ log → info.pluginId = plugin wallet

/-- What is listed for a program and what the server keeps agree. -/
structure Mirrors (plugin : String → String) (message : Option String) (program : Program)
    (state : State) (server : Server) : Prop where
  nodup : state.pushEventIds.Nodup
  listed : ∀ event, event ∈ state.pushEventIds ↔
    programIdOf? event = some program.id ∧ server.Outstanding event
  /-- A live event for what is waited for is the one that fits it; a deadline has none. -/
  current : ∀ result ∈ program.plannedResults state.current, ∀ event,
    server (eventId program.id result.callStackId) = some ⟨event, .live⟩ →
      eventFor plugin message program.id result = some event
  /-- A live event is the one that planning comes to, whenever planning succeeds. -/
  planned : ∀ settings before asked events after, settings.pushMessage = message →
    NamesWallets plugin asked →
    Completes (planEvents settings program state.current) before asked (.ok events) after →
    ∀ event ∈ events, ∀ kept, server event.eventId = some ⟨kept, .live⟩ → kept = event

/-- What is kept from one run to the next, so that what is listed agrees. -/
structure Watches (plugin : String → String) (message : Option String) (program : Program)
    (state : State) (server : Server) : Prop where
  nodup : state.pushEventIds.Nodup
  listed : ∀ event, event ∈ state.pushEventIds ↔
    programIdOf? event = some program.id ∧ server.Outstanding event
  current : ∀ result ∈ program.plannedResults state.current, ∀ event,
    server (eventId program.id result.callStackId) = some ⟨event, .live⟩ →
      eventFor plugin message program.id result = some event
  /-- What is listed belongs to leaves that were started. -/
  started : ∀ event ∈ state.pushEventIds, ∃ place,
    event = eventId program.id place.text ∧ place ∉ program.action.unstarted state.current

variable {plugin : String → String} {message : Option String} {settings : Settings}
  {program : Program} {state next : State} {server after : Server}

/-! ## The parts of a run -/

/-- A program that was not run lists nothing. -/
theorem watches_fresh
    (h : ∀ event, programIdOf? event = some program.id → ¬server.Outstanding event) :
    Watches plugin message program (State.fresh program.id) server where
  nodup := .nil
  listed event := iff_of_false nofun fun ⟨hprogram, hevent⟩ => h event hprogram hevent
  current result hresult := by
    rw [State.current, State.fresh, Option.getD_none, program.plannedResults_init] at hresult
    cases hresult
  started := nofun

theorem Watches.ages (h : Watches plugin message program state server)
    (hages : Server.Ages program.id server after) :
    Watches plugin message program state after where
  nodup := h.nodup
  listed event := by
    rw [h.listed]
    exact and_congr_right fun hprogram => (hages.outstanding event hprogram).symm
  current result hresult event hlive := by
    obtain ⟨entry, -, rfl⟩ := Program.mem_plannedResults.1 hresult
    exact h.current _ hresult event
      (hages.live _ (Push.programIdOf?_eventId program.id entry.1) event hlive)
  started := h.started

/-- The event that a program is run because of is not listed any more. -/
theorem Watches.spend (h : Watches plugin message program state server)
    {fired : Option String}
    (hpermits : server.Permits (.note (.step program.id fired))) :
    Watches plugin message program (spendEvent fired state)
      (server.after ⟨.note (.step program.id fired), ()⟩) := by
  cases fired with
  | none => exact h
  | some spent =>
      have hlive : ¬server.IsLive spent := hpermits
      refine ⟨h.nodup.filter _, fun event => ?_, fun result hresult event hkept => ?_,
        fun event hevent => h.started event (List.mem_of_mem_filter hevent)⟩
      · change event ∈ state.pushEventIds.filter (· != spent) ↔ _
        rw [List.mem_filter, h.listed, Server.after, Server.outstanding_spent hlive, bne_iff_ne,
          and_assoc]
      · refine h.current result hresult event ?_
        -- what fired is spent now, so it cannot be the event that is live
        have hne : eventId program.id result.callStackId ≠ spent := by
          rintro rfl
          have hspent : (server.mark _ .fired .spent).Outstanding
              (eventId program.id result.callStackId) := ⟨_, hkept, nofun⟩
          exact ((Server.outstanding_spent hlive).1 hspent).2 rfl
        exact (Server.mark_of_ne hne).symm.trans hkept

/-- What is watched after a drive was watched before, or it is not listed. -/
theorem Watches.drive (h : Watches plugin message program state server)
    {log : Log Journaled} (hplans : program.PlansOn state.current log next.current)
    (hids : next.pushEventIds = state.pushEventIds) :
    Watches plugin message program next server where
  nodup := hids ▸ h.nodup
  listed := hids ▸ h.listed
  current result hresult event hlive := by
    obtain ⟨entry, hentry, rfl⟩ := Program.mem_plannedResults.1 hresult
    obtain hbefore | ⟨-, hunstarted⟩ := hplans.2 entry hentry
    · exact h.current _ (Program.mem_plannedResults.2 ⟨entry, hbefore, rfl⟩) event hlive
    · -- a live event is listed, and what is listed belongs to leaves that were started
      have hlisted := (h.listed _).2
        ⟨Push.programIdOf?_eventId program.id entry.1, _, hlive, nofun⟩
      obtain ⟨place, heq, hstarted⟩ := h.started _ hlisted
      obtain rfl := Push.eventId_injective heq
      exact absurd hunstarted hstarted
  started event hevent := by
    obtain ⟨place, heq, hstarted⟩ := h.started event (hids ▸ hevent)
    exact ⟨place, heq, fun hplace => hstarted (hplans.1 place hplace)⟩

/-- An event that was prepared is the one for a result that is watched. -/
theorem Prepared.of_mem {effect : Effect} {lookups : Log Outside} {events : List Push.Event}
    (h : Prepared settings program effect lookups events) (hnames : Push.Names plugin lookups)
    {event : Push.Event} (hevent : event ∈ events) :
    ∃ result ∈ program.watched effect,
      eventFor plugin settings.pushMessage program.id result = some event := by
  have heach := h.each plugin hnames
  generalize program.watched effect = watched at heach ⊢
  clear h
  induction heach with
  | nil => cases hevent
  | @cons result prepared results events hfirst _ ih =>
      obtain rfl | hrest := List.mem_cons.1 hevent
      · exact ⟨result, List.mem_cons_self, hfirst⟩
      · obtain ⟨other, hother, hfor⟩ := ih hrest
        exact ⟨other, List.mem_cons_of_mem _ hother, hfor⟩

/-- If the listed events are outstanding, then after the update those that are wanted
are. -/
theorem outstanding_update {listed : List String} {events : List Push.Event} {id : String}
    (h : id ∈ listed → server.Outstanding id) :
    (server.accept (registrationUpdate listed events)).Outstanding id ↔
      id ∈ events.map (·.eventId) ∨ id ∉ listed ∧ server.Outstanding id := by
  have hsent : (∃ event ∈ (registrationUpdate listed events).events, event.eventId = id) ↔
      id ∈ events.map (·.eventId) ∧ id ∉ listed := by
    rw [List.mem_map]
    constructor
    · rintro ⟨event, hmem, rfl⟩
      obtain ⟨hevent, hunlisted⟩ := mem_sent.1 hmem
      exact ⟨⟨event, hevent, rfl⟩, hunlisted⟩
    · rintro ⟨⟨event, hevent, rfl⟩, hunlisted⟩
      exact ⟨event, mem_sent.2 ⟨hevent, hunlisted⟩, rfl⟩
  rw [Server.outstanding_accept, hsent, mem_removed]
  tauto

/-- An update that is accepted makes the listed events those that are wanted. -/
theorem Watches.register (h : Watches plugin settings.pushMessage program state server)
    {lookups : Log Outside} {events : List Push.Event}
    (hprepared : Prepared settings program state.current lookups events)
    (hnames : Push.Names plugin lookups) (nextRun : Int64) :
    Watches plugin settings.pushMessage program
      { state with pushEventIds := program.wantedIds state.current, nextRun }
      (server.accept (registrationUpdate state.pushEventIds events)) where
  nodup := program.wantedIds_nodup _
  listed id := by
    rw [outstanding_update fun hlisted => ((h.listed id).1 hlisted).2, hprepared.ids]
    constructor
    · intro hwanted
      exact ⟨programIdOf?_wantedIds hwanted, Or.inl hwanted⟩
    · rintro ⟨hprogram, hwanted | ⟨hunlisted, houtstanding⟩⟩
      · exact hwanted
      · exact absurd ((h.listed id).2 ⟨hprogram, houtstanding⟩) hunlisted
  current result hresult event hlive := by
    obtain ⟨hsent, heq⟩ | hbefore := Server.live_of_accept hlive
    · obtain ⟨other, hother, hfor⟩ := hprepared.of_mem hnames (mem_sent.1 hsent).1
      rw [Push.eventFor_id hfor] at heq
      rwa [Program.planned_injective hresult (List.mem_of_mem_filter hother) heq.symm]
    · exact h.current result hresult event hbefore
  started _ hevent := mem_wantedIds hevent

theorem Watches.postpone (h : Watches plugin message program state server) (nextRun : Int64) :
    Watches plugin message program { state with nextRun } server :=
  ⟨h.nodup, h.listed, h.current, h.started⟩

/-! ## Lookups and the rest of a log -/

theorem NamesWallets.sublist {log part : Log Surroundings} (h : NamesWallets plugin log)
    (hpart : part ⊆ log) : NamesWallets plugin part := fun wallet info hmem =>
  h wallet info (hpart hmem)

theorem NamesWallets.asked {lookups : Log Outside} {asked : Log Surroundings}
    (h : NamesWallets plugin asked) (hasked : Asked lookups asked) :
    Push.Names plugin lookups := fun wallet info hmem => by
  obtain ⟨given, hgiven, rfl⟩ := hasked.mem hmem
  exact h wallet info hgiven

/-- What is planned is compared by its ids, each of which stands for one result. -/
theorem Watches.mirrors (h : Watches plugin message program state server) :
    Mirrors plugin message program state server := by
  refine ⟨h.nodup, h.listed, h.current, ?_⟩
  rintro settings before asked events after rfl hnames hplan event hevent kept hkept
  obtain ⟨-, lookups, hasked, ⟨_, heq, -⟩ | ⟨_, heq, -, hprepared⟩⟩ := planEvents_cases hplan
  · cases heq
  · cases heq
    obtain ⟨result, hresult, hfor⟩ := hprepared.of_mem (hnames.asked hasked) hevent
    rw [Push.eventFor_id hfor] at hkept
    have hcurrent := h.current result (List.mem_of_mem_filter hresult) kept hkept
    exact Option.some.inj (hcurrent.symm.trans hfor)

/-- Settling a program that is not over keeps what is listed in agreement. -/
theorem Settles.watches {log : Log Surroundings}
    (h : Settles settings program state log next) (hopen : next.isDone = false)
    (hnames : NamesWallets plugin log) (hevolves : server.Evolves log after)
    (hbefore : Watches plugin settings.pushMessage program state server) :
    Watches plugin settings.pushMessage program next after := by
  have hasking {now : Int64} {lookups : Log Outside} {asked : Log Surroundings}
      (hasked : Asked lookups asked) :
      ∀ entry ∈ (⟨.outside .clock, now⟩ :: asked : Log Surroundings),
        Server.Spares program.id entry := by
    intro entry hentry
    obtain rfl | hrest := List.mem_cons.1 hentry
    · trivial
    · exact Server.spares_of_silent (silent_asked hasked) _ entry hrest
  cases h with
  | finished hdone => cases hdone.symm.trans hopen
  | missed _ hasked =>
      exact (hbefore.ages (hevolves.ages (hasking hasked))).postpone _
  | refused _ hasked =>
      refine (hbefore.ages (hevolves.ages fun entry hentry => ?_)).postpone _
      rw [← List.cons_append] at hentry
      obtain hlookup | htold := List.mem_append.1 hentry
      · exact hasking hasked entry hlookup
      · rw [List.mem_singleton.1 htold]
        trivial
  | @registered now _ _ _ _ _ hasked _ hprepared htold =>
      rw [← List.cons_append] at hevolves hnames
      obtain ⟨asking, hlookups, htelling⟩ := Server.evolves_append hevolves
      have hnamed := (hnames.sublist fun _ hmem =>
        List.mem_append_left _ (List.mem_cons_of_mem _ hmem)).asked hasked
      have hasking := hbefore.ages (hlookups.ages (hasking hasked))
      split at htold
      · rename_i hempty
        subst htold
        have hregistered := hasking.register hprepared hnamed
          (nextRunTime now (program.plannedResults state.current))
        rw [Server.accept_of_isEmpty hempty] at hregistered
        exact hregistered.ages (htelling.ages (List.forall_mem_nil _))
      · subst htold
        obtain ⟨aged, hages, -, hrest⟩ := htelling.cons program.id
        have hregistered := (hasking.ages hages).register hprepared hnamed
          (nextRunTime now (program.plannedResults state.current))
        exact hregistered.ages (hrest.ages (List.forall_mem_nil _))

/-- The first half of a run keeps what is listed in agreement. -/
theorem Drives.watches {fired : Option String} {item : Item} {log : Log Surroundings}
    (h : Drives settings item.program.id fired item log next)
    (hevolves : server.Evolves log after)
    (hbefore : Watches plugin message item.program item.state server) :
    Watches plugin message item.program next after := by
  have hstate := h.state
  obtain ⟨hkept, hdrives⟩ := h
  have hplans := ((Program.plansOn _ _).holds hdrives).1
  have hown := ((Program.notesOwn _ _).holds hdrives).1
  obtain ⟨aged, hages, hpermits, hrest⟩ := hevolves.cons item.program.id
  have hspent := (hbefore.ages hages).spend hpermits
  refine Watches.ages (hspent.drive hplans hstate.2) (hrest.ages ?_)
  intro entry hentry
  obtain houter | hclock := List.mem_append.1 hentry
  · exact Server.spares_kept hkept (fun note hnote => (hown note hnote).2) _ entry houter
  · rw [List.mem_singleton.1 hclock]
    trivial

/-! ## What a move keeps -/

/-- The server has no outstanding events under an id that is not used, and what is listed
for an unfinished program agrees with it.  A record that cannot be read is left alone. -/
structure Registered (plugin : String → String) (message : Option String) (id : String)
    (store : Store) (server : Server) : Prop where
  unused : store.items.find? id = none → id ∉ store.retired →
    ∀ event, programIdOf? event = some id → ¬server.Outstanding event
  watches : ∀ item, store.items.find? id = some item → item.isReadable = true →
    item.state.isDone = false → Watches plugin message item.program item.state server

variable {before stored : Store} {log : Log Surroundings} {id : String}

theorem Foreign.registered (h : Foreign id before log stored) (hfiled : before.Filed)
    (hevolves : server.Evolves log after)
    (hbefore : Registered plugin message id before server) :
    Registered plugin message id stored after := by
  have hages := hevolves.ages fun entry hentry =>
    Server.spares_of_isForeign (h.requests entry hentry)
  refine ⟨fun hnone hretired event hevent => ?_, fun item hitem hreadable hopen => ?_⟩
  · rw [h.found] at hnone
    rw [h.retired] at hretired
    rw [hages.outstanding event hevent]
    exact hbefore.unused hnone hretired event hevent
  · rw [h.found] at hitem
    refine (hbefore.watches item hitem hreadable hopen).ages ?_
    rwa [(hfiled id item hitem).program]

/-- Where an unfinished program that can be read is stored, only that one counts. -/
theorem registered_of_puts {item : Item} (hputs : Store.Puts id item before stored)
    (h : item.isReadable = true → item.state.isDone = false →
      Watches plugin message item.program item.state after) :
    Registered plugin message id stored after := by
  have hself := hputs.self
  refine ⟨fun hnone => ?_, fun other hother => ?_⟩
  · rw [hself] at hnone
    cases hnone
  · obtain rfl := Option.some.inj (hself.symm.trans hother)
    exact h

theorem Ran.registered {fired : Option String} (hfiled : before.Filed)
    (hintact : before.Intact id)
    (h : Ran settings id fired before log next stored) (hnames : NamesWallets plugin log)
    (hevolves : server.Evolves log after)
    (hbefore : Registered plugin settings.pushMessage id before server) :
    Registered plugin settings.pushMessage id stored after := by
  cases h with
  | @intro _ item state _ driving settling answer hfound hreadable hopen hdrives hsettles hputs =>
      have hid := (hfiled id item hfound).program
      rw [hintact item hfound] at hdrives
      subst hid
      have hitem := hbefore.watches item hfound hreadable hopen
      obtain ⟨driven, hdriving, hrest⟩ := Server.evolves_append hevolves
      have hdriven := hdrives.watches hdriving hitem
      obtain ⟨saved, hages, -, hsettling⟩ := hrest.cons item.program.id
      obtain ⟨settled, hsettled, hlast⟩ := Server.evolves_append hsettling
      refine registered_of_puts hputs fun hreadable' hopen' => ?_
      rw [Item.settled_eq hreadable'] at hopen' ⊢
      have hnamed : NamesWallets plugin settling := hnames.sublist fun _ hmem =>
        List.mem_append_right _ (List.mem_cons_of_mem _ (List.mem_append_left _ hmem))
      have hwatches := hsettles.watches hopen' hnamed hsettled (hdriven.ages hages)
      exact hwatches.ages (hlast.ages (List.forall_mem_singleton.2 trivial))

theorem Terminates.registered {failure : Failure} (h : Terminates id failure before log stored) :
    Registered plugin message id stored after := by
  obtain ⟨item, hdone, hputs⟩ := h.puts
  exact registered_of_puts hputs fun _ hopen => by cases hopen.symm.trans hdone

/-- The terms on which the events are kept in agreement: one text is shown, and no events
are sent with the identity of a device. -/
def Terms.texting (message : Option String) : Terms :=
  ⟨fun settings => settings.pushMessage = message, False⟩

theorem Deed.registered (hfiled : before.Filed) (hintact : before.Intact id)
    (h : Deed (.texting message) id before log stored) (hnames : NamesWallets plugin log)
    (hevolves : server.Evolves log after)
    (hbefore : Registered plugin message id before server) :
    Registered plugin message id stored after := by
  cases h with
  | @insert _ _ program answer hnone hunused hputs =>
      have hages : Server.Ages program.id server after := hevolves.ages fun entry hentry => by
        rw [List.mem_singleton.1 hentry]
        trivial
      refine registered_of_puts hputs fun _ _ => watches_fresh fun event hevent => ?_
      rw [hages.outstanding event hevent]
      exact hbefore.unused hnone hunused event hevent
  | run owner hsettings hfired hran hsame =>
      obtain rfl : _ = message := hsettings
      obtain ⟨ran, hrunning, hreleased⟩ := Server.evolves_append hevolves
      have hrun := hran.registered hfiled hintact
        (hnames.sublist fun _ hmem => List.mem_append_left _ hmem) hrunning hbefore
      have hquiet : Quiet _ [⟨.store (.release id owner), ()⟩] stored :=
        ⟨by simp [Silent, Request.isQuiet], hsame⟩
      exact (hquiet.foreign id).registered (hran.filed hfiled) hreleased hrun
  | terminate hterminates => exact hterminates.registered
  | record _ hrecording => exact hrecording.elim
  | remove _ _ _ hdrops =>
      refine ⟨fun _ hretired => absurd ?_ hretired, fun item hitem => ?_⟩
      · rw [hdrops.retired]
        exact List.mem_cons_self
      · rw [hdrops.items, if_pos rfl] at hitem
        cases hitem

theorem Moves.registered (hfiled : before.Filed) (hintact : before.Intact id)
    (h : Moves (.texting message) before log stored) (hnames : NamesWallets plugin log)
    (hevolves : server.Evolves log after)
    (hbefore : Registered plugin message id before server) :
    Registered plugin message id stored after := by
  induction h generalizing server with
  | nil store =>
      have hquiet : Quiet store [] store := ⟨silent_nil, .refl store⟩
      exact (hquiet.foreign id).registered hfiled hevolves hbefore
  | cons move rest ih =>
      obtain ⟨moved, hfirst, hlater⟩ := Server.evolves_append hevolves
      refine ih (move.filed hfiled) ((Moves.single move).intact hfiled hintact)
        (hnames.sublist fun _ hmem => List.mem_append_right _ hmem) hlater ?_
      obtain hforeign | hdeed := move.foreign_or_deed hfiled id
      · exact hforeign.registered hfiled hfirst hbefore
      · exact hdeed.registered hfiled hintact (hnames.sublist fun _ hmem => List.mem_append_left _ hmem)
          hfirst hbefore

/-! ## Histories -/

/-- Whatever fails and whenever events fire: what is listed for an unfinished program
that can be read is what the server keeps for it, and what is live is up to date. -/
theorem registrations_mirror_server {turns : List Turn} {server : Server}
    (hmessage : ∀ turn ∈ turns, turn.settings.pushMessage = message)
    (hdevice : ∀ turn ∈ turns, turn.command.registers = false)
    (hnames : NamesWallets plugin (logOf turns .empty))
    (hserver : Server.empty.Evolves (logOf turns .empty) server) {item : Item}
    (hfound : (storeAfter turns .empty).items.find? id = some item)
    (hreadable : item.isReadable = true) (hopen : item.state.isDone = false) :
    Mirrors plugin message item.program item.state server := by
  have hkeeps : ∀ turn ∈ turns, turn.Keeps (.texting message) := fun turn hturn =>
    ⟨hmessage turn hturn, fun h => by cases h.symm.trans (hdevice turn hturn)⟩
  have hmoves := moves_history hkeeps .empty
  have hempty : Registered plugin message id .empty .empty := by
    refine ⟨fun _ _ event _ houtstanding => ?_, fun item hitem => by cases hitem⟩
    obtain ⟨_, hkept, -⟩ := houtstanding
    cases hkept
  have hregistered := hmoves.registered .empty (.empty id) hnames hserver hempty
  exact (hregistered.watches item hfound hreadable hopen).mirrors

theorem granted_names (now : Int64) (maxSteps : Nat) (command : Command) (store : Store) :
    NamesWallets (fun _ => "bitcoin") ((Turn.granted now maxSteps command).log store) := by
  intro wallet info hmem
  obtain ⟨_, heq⟩ := Task.answer_of_mem_log hmem
  cases heq
  rfl

def payments : Program :=
  ⟨"payments", .seq [.step (.broadcast ⟨"first", "bitcoin", [1]⟩) none,
    .step (.broadcast ⟨"second", "bitcoin", [2]⟩) none] none, none⟩

def paymentTurns : List Turn :=
  [.granted 1 9 (.schedule payments), .granted 2 9 (.run payments.id)]

/-- The server that has followed these turns. -/
def paymentServer : Server := (logOf paymentTurns .empty).foldl Server.after .empty

theorem payments_wait : ∃ item,
    (storeAfter paymentTurns .empty).items.find? "payments" = some item ∧
      item.isReadable = true ∧ item.state.isDone = false ∧
      item.state.pushEventIds = ["payments:seq_0"] := by
  have hstate : ((storeAfter paymentTurns .empty).items.find? "payments").map Item.state =
      some ⟨"payments", some (.seq 0 (.await (.txConfs "tx" "first" 1))),
        ["payments:seq_0"], 2, never⟩ := by
    decide +kernel
  have hreadable : ((storeAfter paymentTurns .empty).items.find? "payments").all
      Item.isReadable = true := by
    decide +kernel
  obtain ⟨item, hfound, hitem⟩ := Option.map_eq_some_iff.1 hstate
  rw [hfound] at hreadable
  exact ⟨item, hfound, hreadable, by rw [hitem]; rfl, by rw [hitem]⟩

theorem payments_live : paymentServer.IsLive "payments:seq_0" := by
  have hlive : (paymentServer "payments:seq_0").map Registration.standing = some .live := by
    decide +kernel
  obtain ⟨⟨event, standing⟩, hkept, rfl⟩ := Option.map_eq_some_iff.1 hlive
  exact ⟨event, hkept⟩

theorem payments_named : NamesWallets (fun _ => "bitcoin") (logOf paymentTurns .empty) := by
  intro wallet info hmem
  obtain ⟨turn, hturn, store, hentry⟩ := mem_logOf hmem
  simp only [paymentTurns, List.mem_cons, List.not_mem_nil, or_false] at hturn
  obtain rfl | rfl := hturn
  · exact granted_names _ _ _ store wallet info hentry
  · exact granted_names _ _ _ store wallet info hentry

/-- The event fires and no run begins because of it, so it stays listed. -/
theorem payments_mirror_server : ∃ item,
    (storeAfter paymentTurns .empty).items.find? "payments" = some item ∧
      item.state.pushEventIds = ["payments:seq_0"] ∧
      Server.empty.Evolves (logOf paymentTurns .empty)
        (paymentServer.mark "payments:seq_0" .live .fired) ∧
      Mirrors (fun _ => "bitcoin") none item.program item.state
        (paymentServer.mark "payments:seq_0" .live .fired) := by
  have hmessage : ∀ turn ∈ paymentTurns, turn.settings.pushMessage = none := by
    simp [paymentTurns, Turn.granted]
  have hdevice : ∀ turn ∈ paymentTurns, turn.command.registers = false := by
    simp [paymentTurns, Turn.granted, Command.registers]
  have hcalm : ∀ note ∈ journal (logOf paymentTurns .empty), note.fired? = none := by
    decide +kernel
  have hserver : Server.empty.Evolves (logOf paymentTurns .empty ++ [])
      (paymentServer.mark "payments:seq_0" .live .fired) :=
    (Server.evolves_calm hcalm .empty).append (.fires payments_live (.done _))
  rw [List.append_nil] at hserver
  obtain ⟨item, hfound, hreadable, hopen, hids⟩ := payments_wait
  refine ⟨item, hfound, hids, hserver, ?_⟩
  exact registrations_mirror_server hmessage hdevice payments_named hserver hfound hreadable
    hopen

end Queue

end ProgramQueue
