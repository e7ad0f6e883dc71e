import ProgramQueue.Proofs.Occasions

/-!
# A registration that overlaps with a run

A registration of the device takes no lock and no claim.  It lists the programs, sends their
events, and records what it sent when the server has answered.  A run that fits in between
stores what the program waits for by then, and the record of the registration replaces it.
-/

namespace ProgramQueue.Queue

open ProgramQueue.Task (Follows Within follows_bind follows_pure follows_request within_bind
  within_request)

variable {settings registrar runner : Settings} {identity : DeviceIdentity} {id : String}
  {item seen : Item} {entries : List (String × Item)} {before after store : Store}
  {log registering running merged : Log Surroundings}

/-! ## What a registration asks for -/

/-- The ids of the events that are sent for each program that is not over. -/
def registered (entries : List (String × Item)) : List (String × List String) :=
  (entries.filter fun entry => !entry.2.state.isDone).map fun entry =>
    (entry.2.program.id, entry.2.program.wantedIds entry.2.state.current)

/-- The request that records the events of a program. -/
def recording (entry : String × List String) : Request :=
  .store (.update entry.1 fun state => state.listing entry.2)

theorem inquires_planAll (settings : Settings) (entries : List (String × Item)) :
    (planAll settings entries).Within Request.IsInquiry := by
  induction entries with
  | nil => trivial
  | cons entry rest ih =>
      rw [planAll]
      split
      · exact ih
      · refine within_bind (inquires_planEvents _ _ _) fun planned => ?_
        refine within_bind ih fun others => ?_
        cases planned <;> trivial

/-- Where no lookup fails, the events of all programs that are not over are planned. -/
theorem follows_planAll {planned : List (String × List Push.Event)}
    (h : (planAll settings entries).Follows log planned) (hgranted : Granted log) :
    planned.map (fun entry => (entry.1, entry.2.map (·.eventId))) = registered entries := by
  induction entries generalizing log planned with
  | nil =>
      obtain ⟨rfl, rfl⟩ := follows_pure.1 h
      rfl
  | cons entry rest ih =>
      rw [planAll] at h
      cases hopen : entry.2.state.isDone with
      | true =>
          rw [if_pos hopen] at h
          rw [ih h hgranted]
          simp [registered, hopen]
      | false =>
          rw [if_neg (by rw [hopen]; exact Bool.false_ne_true)] at h
          obtain ⟨asked, result, _, rfl, hplan, hothers⟩ := follows_bind.1 h
          obtain ⟨later, others, _, rfl, hlater, hdone⟩ := follows_bind.1 hothers
          simp only [granted_append] at hgranted
          have hcompletes := completes_of_remote
            ((inquires_planEvents _ _ _).imp fun _ => remote_of_inquiry) hplan .empty
          obtain ⟨-, lookups, hasked, ⟨e, -, hmissed⟩ | ⟨events, rfl, -, hprepared⟩⟩ :=
            planEvents_cases hcompletes
          · exact absurd hmissed (not_missed hasked hgranted.1)
          · obtain ⟨rfl, rfl⟩ := follows_pure.1 hdone
            rw [List.map_cons, ih hlater hgranted.2.1, hprepared.ids]
            simp [registered, hopen]

theorem follows_recordEvents {planned : List (String × List Push.Event)}
    (h : (recordEvents planned).Follows log (.ok ())) :
    log.map (·.request) =
      (planned.map fun entry => (entry.1, entry.2.map (·.eventId))).map recording := by
  induction planned generalizing log with
  | nil =>
      obtain ⟨rfl, -⟩ := follows_pure.1 h
      rfl
  | cons entry rest ih =>
      obtain ⟨_, answer, later, rfl, hupdate, hrest⟩ := follows_bind.1 h
      obtain rfl := follows_request.1 hupdate
      cases answer with
      | error e => cases (follows_pure.1 hrest).2
      | ok state =>
          rw [List.map_append, ih hrest]
          rfl

/-- A registration lists the programs, sends the events of those that are not over, and
records them for each. -/
theorem follows_registerDevice {device : Push.Device}
    (h : (registerDevice settings identity).Follows log (.ok device)) (hgranted : Granted log) :
    ∃ entries asked recorded, log = ⟨.store .list, .ok entries⟩ :: (asked ++ recorded) ∧
      (∀ entry ∈ asked, entry.request.IsRemote) ∧
      recorded.map (·.request) = (registered entries).map recording := by
  obtain ⟨_, answer, _, rfl, hlist, hrest⟩ := follows_bind.1 h
  obtain rfl := follows_request.1 hlist
  cases answer with
  | error e => cases hgranted _ List.mem_cons_self
  | ok entries =>
      obtain ⟨asked, planned, _, rfl, hplan, hpush⟩ := follows_bind.1 hrest
      obtain ⟨_, answer, _, rfl, hupdate, hrecord⟩ := follows_bind.1 hpush
      obtain rfl := follows_request.1 hupdate
      simp only [granted_append] at hgranted
      cases answer with
      | error e => cases hgranted.2.2.1 _ List.mem_cons_self
      | ok given =>
          obtain ⟨recorded, result, _, rfl, hrecorded, hdone⟩ := follows_bind.1 hrecord
          obtain ⟨rfl, heq⟩ := follows_pure.1 hdone
          cases result with
          | error e => cases heq
          | ok _ =>
              rw [List.append_nil]
              refine ⟨entries, asked ++ [_], recorded,
                congrArg (_ :: ·) (List.append_assoc asked [_] recorded).symm, ?_, ?_⟩
              · refine List.forall_mem_append.2 ⟨fun entry hentry => ?_, ?_⟩
                · exact remote_of_inquiry ((inquires_planAll _ _).follows hplan entry hentry)
                · exact List.forall_mem_singleton.2 (.push _)
              · rw [follows_recordEvents hrecorded, follows_planAll hplan hgranted.2.1]

/-- The events that are sent do not depend on the rates in the records. -/
theorem registered_listed (store : Store) :
    registered store.listed = registered store.items.entries := by
  rw [registered, Store.listed, List.filter_map, List.map_map, registered]
  simp only [Function.comp_def, Item.transcribed_state, Item.transcribed_program,
    State.isDone_transcribed, State.current_transcribed, Program.wantedIds_transcribed]

/-- Of the events that were sent, those of a stored program are told by its record. -/
theorem registered_of_found (hprograms : ∀ key found, store.items.find? key = some found →
      found.program.id = key) (hfound : store.items.find? id = some item) :
    (registered store.listed).filter (·.1 = id) =
      if item.state.isDone then [] else [(id, item.program.wantedIds item.state.current)] := by
  have hkey : store.items.entries.filter (fun entry => entry.2.program.id = id) =
      [(id, item)] := by
    rw [← List.filter_congr (p := fun entry => decide (entry.1 = id)), Table.filter_key, hfound]
    · rfl
    · intro entry hentry
      rw [hprograms _ _ (Table.find?_of_mem hentry)]
  rw [registered_listed, registered, List.filter_map, List.filter_filter]
  have hswap : (fun entry : String × Item => ((fun pair : String × List String =>
        decide (pair.1 = id)) ∘ fun entry : String × Item =>
          (entry.2.program.id, entry.2.program.wantedIds entry.2.state.current)) entry &&
        !entry.2.state.isDone) =
      fun entry => !entry.2.state.isDone && decide (entry.2.program.id = id) := by
    funext entry
    exact Bool.and_comm _ _
  rw [hswap, ← List.filter_filter, hkey]
  cases hdone : item.state.isDone with
  | true => simp [hdone]
  | false => simp [hdone, hprograms id item hfound]

/-- The requests of a registration that concern a program. -/
theorem concerning_registering {asked recorded : Log Surroundings}
    (hasked : ∀ entry ∈ asked, entry.request.IsRemote)
    (hrecorded : recorded.map (·.request) = (registered entries).map recording) (id : String) :
    concerning id (asked ++ recorded) =
      ((registered entries).filter (·.1 = id)).map recording := by
  rw [concerning_append, concerning_remote hasked, List.nil_append, concerning, hrecorded,
    List.filter_map]
  congr 2
  funext entry
  simp only [recording, Function.comp_apply, Request.mark?]
  split <;> simp [*]

/-! ## What overlaps -/

/-- What is asked in a registration. -/
inductive Request.IsRegistering : Request → Prop
  | inquiry {request : Request} (h : request.IsInquiry) : IsRegistering request
  | list : IsRegistering (.store .list)
  | record (entry : String × List String) : IsRegistering (recording entry)

/-- What is asked when a program is run. -/
inductive Request.IsRunning : Request → Prop
  | held {request : Request} (h : request.IsHolding) : IsRunning request
  | inner {request : Request} (h : request.IsInner) : IsRunning request

theorem within_registerDevice (settings : Settings) (identity : DeviceIdentity) :
    (registerDevice settings identity).Within Request.IsRegistering := by
  have hrecord (planned : List (String × List Push.Event)) :
      (recordEvents planned).Within Request.IsRegistering := by
    induction planned with
    | nil => trivial
    | cons entry rest ih =>
        have hentry := Request.IsRegistering.record (entry.1, entry.2.map Push.Event.eventId)
        refine within_bind (within_request hentry) fun answer => ?_
        cases answer with
        | error e => trivial
        | ok state => exact ih
  refine within_bind (within_request .list) fun answer => ?_
  cases answer with
  | error e => trivial
  | ok entries =>
      refine within_bind ((inquires_planAll _ _).imp fun _ => .inquiry) fun planned => ?_
      refine within_bind (within_request (.inquiry (.push _))) fun answer => ?_
      cases answer with
      | error e => trivial
      | ok device => exact within_bind (hrecord planned) fun _ => trivial

theorem within_occasion (settings : Settings) (occasion : Occasion) :
    (occasion.operation settings).Within Request.IsRunning := by
  have hheld (id : String) (fired : Option String) :
      (holding settings id (runHeld settings id fired).run).Within Request.IsRunning :=
    within_holding (fun _ => .held) ((within_runHeld settings id fired).imp fun _ => .inner)
  cases occasion with
  | asked id => exact within_bind (hheld id none) fun _ => trivial
  | fired event =>
      rw [Occasion.operation, onTriggerFired]
      cases Push.programIdOf? event with
      | none => trivial
      | some id =>
          refine within_bind (within_request (.inner (.get id))) fun answer => ?_
          rcases answer with e | _ | item
          · trivial
          · trivial
          · dsimp only
            split
            · trivial
            · refine within_bind (hheld id (some event)) fun result => ?_
              split <;> trivial

theorem keepsPrograms_of_registering {request : Request} (h : request.IsRegistering) :
    request.KeepsPrograms := by
  cases h with
  | inquiry hinquiry => cases hinquiry <;> trivial
  | list | record => trivial

theorem lists_of_registering {request : Request} (h : request.IsRegistering) : request.Lists := by
  intro id state hlasts
  cases h with
  | inquiry hinquiry => cases hinquiry <;> rfl
  | list => rfl
  | record entry =>
      simp only [recording, stateAfter, hlasts]
      split <;> rfl

theorem leavesClaims_of_registering {own : Store.Request}
    (h : Request.IsRegistering (.store own)) : Request.LeavesClaims (.store own) := by
  cases h with
  | inquiry hinquiry => cases hinquiry
  | list | record => trivial

theorem keepsPrograms_of_running {request : Request} (h : request.IsRunning) :
    request.KeepsPrograms := by
  cases h with
  | held hholding => cases hholding <;> trivial
  | inner hinner =>
      cases hinner with
      | remote hremote => cases hremote <;> trivial
      | get | save => trivial

theorem ne_update_of_running {request : Request} (h : request.IsRunning) (key : String)
    (change : State → State) : request ≠ .store (.update key change) := by
  rintro rfl
  cases h with
  | held hholding => cases hholding
  | inner hinner =>
      cases hinner with
      | remote hremote => cases hremote

/-- A registration of the device, and an occasion to run a program in the same process or in
another. -/
structure Contest where
  registrar : Settings
  identity : DeviceIdentity
  runner : Settings
  occasion : Occasion

/-- Each makes its requests in its own order, all of them are granted, and one store answers
them in the order in which they come. -/
structure Overlaps (contest : Contest) (store : Store)
    (registering running merged : Log Surroundings) (answer : Option State) (after : Store) :
    Prop where
  registers : ∃ device,
    (registerDevice contest.registrar contest.identity).Follows registering (.ok device)
  runs : (contest.occasion.operation contest.runner).Follows running (.ok answer)
  interleaved : Interleaved registering running merged
  serves : Serves store merged after
  granted : Granted merged

variable {contest : Contest} {answer : Option State}

namespace Overlaps

theorem registering_within (h : Overlaps contest store registering running merged answer after) :
    ∀ entry ∈ registering, entry.request.IsRegistering := by
  obtain ⟨device, hregisters⟩ := h.registers
  exact (within_registerDevice _ _).follows hregisters

theorem running_within (h : Overlaps contest store registering running merged answer after) :
    ∀ entry ∈ running, entry.request.IsRunning :=
  (within_occasion _ _).follows h.runs

theorem registering_granted (h : Overlaps contest store registering running merged answer after) :
    Granted registering := fun entry hentry => h.granted entry (h.interleaved.mem_of_left hentry)

theorem running_granted (h : Overlaps contest store registering running merged answer after) :
    Granted running := fun entry hentry =>
  h.granted entry (h.interleaved.symm.mem_of_left hentry)

/-- At any point, the requests made so far tell what is found under an id. -/
theorem found (h : Overlaps contest store registering running merged answer after)
    {past next : Log Surroundings} {middle : Store} (hsplit : merged = past ++ next)
    (hpast : Serves store past middle) (id : String) :
    middle.items.find? id = (store.items.find? id).map fun item =>
      { item with state := stateThrough id (past.map (·.request)) item.state } := by
  refine hpast.found (fun entry hentry => ?_) (h.granted.sublist ?_) id
  · have hmerged : entry ∈ merged := hsplit ▸ List.mem_append_left _ hentry
    rcases h.interleaved.mem hmerged with hregistering | hrunning
    · exact keepsPrograms_of_registering (h.registering_within entry hregistering)
    · exact keepsPrograms_of_running (h.running_within entry hrunning)
  · exact hsplit ▸ List.subset_append_left _ _

/-- At any point, the events that are listed are all that the registration has changed. -/
theorem state_listing (h : Overlaps contest store registering running merged answer after)
    {early begun past late rest : Log Surroundings} (hearly : registering = early ++ late)
    (hbegun : running = begun ++ rest) (hpast : Interleaved early begun past)
    (hsaves : ∀ entry ∈ begun, ∀ state, entry.request = .store (.save state) →
      state.transcribed = state) (id : String) {state : State}
    (hlasts : state.transcribed = state) :
    (stateThrough id (past.map (·.request)) state).listing [] =
      (stateThrough id (concerning id begun) state).listing [] := by
  rw [← stateThrough_concerning]
  refine stateThrough_interleaved (hpast.map _) (fun request hrequest => ?_)
    (fun request hrequest => ?_) id hlasts rfl
  · obtain ⟨entry, hentry, rfl⟩ := List.mem_map.1 hrequest
    exact lists_of_registering
      (h.registering_within entry (hearly ▸ List.mem_append_left _ hentry))
  · obtain ⟨entry, hentry, rfl⟩ := List.mem_map.1 hrequest
    exact ⟨ne_update_of_running (h.running_within entry (hbegun ▸ List.mem_append_left _ hentry)),
      hsaves entry hentry⟩

/-- The program is always there. -/
theorem there (h : Overlaps contest store registering running merged answer after)
    (hfound : store.items.find? id = some item) : ⟨.store (.get id), .ok none⟩ ∉ running := by
  intro hmem
  obtain ⟨past, next, hsplit⟩ := List.append_of_mem (h.interleaved.symm.mem_of_left hmem)
  have hserves := h.serves
  rw [hsplit] at hserves
  obtain ⟨middle, hpast, hnext⟩ := serves_append.1 hserves
  have hanswer : middle.get id = .ok none := (serves_store.1 hnext).1
  have hmiddle := h.found hsplit hpast id
  rw [hfound] at hmiddle
  rw [Store.get_eq, hmiddle] at hanswer
  obtain ⟨-, hreread⟩ | ⟨-, e, hreread⟩ := Item.reread_cases
    { item with state := stateThrough id (past.map (·.request)) item.state }
  all_goals
    simp only [Option.map_some, hreread] at hanswer
    cases hanswer

/-- What a run asks of the store is answered when all that was asked by then has been served. -/
theorem asks (h : Overlaps contest store registering running merged answer after)
    {request : Store.Request} {given : request.Answer} {begun rest : Log Surroundings}
    (hrunning : running = begun ++ ⟨.store request, given⟩ :: rest) :
    ∃ early late past next middle, registering = early ++ late ∧
      merged = past ++ ⟨.store request, given⟩ :: next ∧ Interleaved early begun past ∧
      Interleaved late rest next ∧ Serves store past middle ∧
      (Store.respond request middle).1 = given := by
  have hinterleaved := h.interleaved
  rw [hrunning] at hinterleaved
  obtain ⟨early, late, past, next, hearly, hsplit, hpast, hnext⟩ := hinterleaved.part
  have hserves := h.serves
  rw [hsplit] at hserves
  obtain ⟨middle, hbefore, hafter⟩ := serves_append.1 hserves
  exact ⟨early, late, past, next, middle, hearly, hsplit, hpast, hnext, hbefore,
    (serves_store.1 hafter).1⟩

/-- A registration has changed no more than the listed events. -/
theorem registering_same (h : Overlaps contest store registering running merged answer after)
    {early late : Log Surroundings} (hearly : registering = early ++ late) (id : String)
    {state : State} (hlasts : state.transcribed = state) :
    (stateThrough id (concerning id early) state).listing [] = state.listing [] := by
  have hnone : running = [] ++ running := rfl
  have hsame := h.state_listing hearly hnone (Interleaved.inOrder early [])
    (List.forall_mem_nil _) id hlasts
  rwa [List.append_nil, stateThrough_concerning] at hsame

/-- What a run finds, and what a registration has asked for by then. -/
theorem finds (h : Overlaps contest store registering running merged answer after)
    (hintact : store.Intact id) (hfound : store.items.find? id = some item)
    {begun rest : Log Surroundings} {seen : Item}
    (hrunning : running = begun ++ ⟨.store (.get id), .ok (some seen)⟩ :: rest)
    (hbegun : concerning id begun = []) :
    ∃ early late past next, registering = early ++ late ∧
      merged = past ++ ⟨.store (.get id), .ok (some seen)⟩ :: next ∧
      Interleaved early begun past ∧ Interleaved late rest next ∧ seen.isReadable = true ∧
      seen = { item with state := stateThrough id (concerning id early) item.state } := by
  obtain ⟨early, late, past, next, middle, hearly, hsplit, hpast, hnext, hbefore, hanswer⟩ :=
    h.asks hrunning
  obtain ⟨stored, hmiddle, hreadable, rfl⟩ := Store.get_some hanswer
  have hstored := h.found hsplit hbefore id
  rw [hfound, Option.map_some, hmiddle, Option.some.injEq, stateThrough_concerning] at hstored
  have hconcerning := interleaved_concerning hpast id
  rw [hbegun] at hconcerning
  rw [hconcerning.eq_of_nil] at hstored
  have hlasts := hintact.state hfound
  have hread : stored.transcribed = stored := by
    rw [hstored, Item.transcribed]
    exact congrArg (Item.mk _)
      ((State.transcribed_congr (h.registering_same hearly id hlasts)).2 hlasts)
  rw [hread] at hsplit ⊢
  exact ⟨early, late, past, next, hearly, hsplit, hpast, hnext, hreadable, hstored⟩

/-- What a run finds differs from what was stored in the listed events at most. -/
theorem finds_same (h : Overlaps contest store registering running merged answer after)
    (hintact : store.Intact id) (hfound : store.items.find? id = some item)
    {early late : Log Surroundings} (hearly : registering = early ++ late)
    (hseen : seen = { item with state := stateThrough id (concerning id early) item.state }) :
    seen.program = item.program ∧ seen.state.listing [] = item.state.listing [] ∧
      seen.transcribed = seen := by
  have hlasts := hintact.state hfound
  have hsame := h.registering_same hearly id hlasts
  subst hseen
  exact ⟨rfl, hsame, congrArg (Item.mk _) ((State.transcribed_congr hsame).2 hlasts)⟩

/-- What is listed of a program in a registration, and what is recorded for it. -/
theorem listed (h : Overlaps contest store registering running merged answer after)
    (hprograms : ∀ key found, store.items.find? key = some found → found.program.id = key)
    (hfound : store.items.find? id = some item) {entries : List (String × Item)}
    {early begun past next : Log Surroundings}
    (hpast : Interleaved (⟨.store .list, .ok entries⟩ :: early) begun past)
    (hsplit : merged = past ++ next) :
    ∃ before later between, begun = before ++ later ∧
      past = before ++ ⟨.store .list, .ok entries⟩ :: between ∧
      Interleaved early later between ∧
      (registered entries).filter (·.1 = id) =
        let state := stateThrough id (concerning id before) item.state
        if state.isDone then [] else [(id, item.program.wantedIds state.current)] := by
  obtain ⟨before, later, between, rfl, rfl, hbetween⟩ := hpast.head
  refine ⟨before, later, between, rfl, rfl, hbetween, ?_⟩
  have hserves := h.serves
  rw [List.append_assoc] at hsplit
  rw [hsplit] at hserves
  obtain ⟨middle, hbefore, hafter⟩ := serves_append.1 hserves
  obtain rfl : entries = middle.listed := Store.list_ok (serves_store.1 hafter).1
  have hmiddle := h.found hsplit hbefore
  have hstored := hmiddle id
  rw [hfound, Option.map_some, stateThrough_concerning] at hstored
  refine registered_of_found (fun key found hkey => ?_) hstored
  rw [hmiddle, Option.map_eq_some_iff] at hkey
  obtain ⟨other, hother, rfl⟩ := hkey
  exact hprograms key other hother

end Overlaps

/-! ## What is left -/

/-- A registration has listed the programs before a run first stored what the program came
to, and recorded its events after the run stored it for the last time. -/
def overtaken : List Mark := [.listed, .stored, .stored, .recorded]

/-- What a run stores of a program first and last. -/
structure Saves (id : String) (program : Program) (state final : State) : Prop where
  first : state.programId = id
  last : final.programId = id
  current : final.current = state.current
  listed : state.isDone = false → final.pushEventIds = program.wantedIds state.current
  lasting : final.transcribed = final

/-- What is asked of the store on an occasion to run a program. -/
inductive Stores (id : String) (seen : Item) : List Request → Option State → Prop
  | nothing {answer : Option State} (hdone : seen.state.isDone = true) : Stores id seen [] answer
  | twice {state final : State} (hopen : seen.state.isDone = false)
      (hsaves : Saves id seen.program state final) :
      Stores id seen [.store (.save state), .store (.save final)] (some final)

theorem Looks.concerning {occasion : Occasion} {look : Log Surroundings}
    (h : Looks id occasion look) : concerning id look = [] := by
  cases h <;> rfl

theorem Runs.stores {occasion : Occasion} (h : Runs settings occasion id seen running answer)
    (hid : seen.state.programId = id) (hlasts : seen.transcribed = seen)
    (hgranted : Granted running) : Stores id seen (concerning id running) answer := by
  cases h with
  | noticed _ _ hdone => exact .nothing hdone
  | @held look work now final hlook _ hworks =>
      have hopening (now : Int) : concerning id (opening settings id now) = [] := rfl
      have hclosing : concerning id (closing settings id) = [] := rfl
      have hget (rest : Log Surroundings) :
          concerning id (⟨.store (.get id), .ok (some seen)⟩ :: rest) = concerning id rest := rfl
      rw [concerning_append, hlook.concerning, concerning_append, hopening, hget,
        concerning_append, hclosing, List.nil_append, List.nil_append, List.append_nil]
      cases hworks with
      | closed hdone => exact .nothing hdone
      | @ran state _ driving settling hopen hdrives hsettles =>
          simp only [granted_append, granted_cons] at hgranted
          have hdriven : state.programId = id := by
            rw [hdrives.state.1, hid]
          have hsettled : final.programId = id := hsettles.state.1.trans hdriven
          have hlisted (hgoes : state.isDone = false) :
              final.pushEventIds = seen.program.wantedIds state.current := by
            obtain ⟨hdone, -⟩ | ⟨_, _, _, _, rfl⟩ :=
              hsettles.granted hgranted.2.2.2.1.2.2.1
            · cases hgoes.symm.trans hdone
            · rfl
          rw [concerning_append, concerning_remote hdrives.remote, concerning_cons,
            concerning_append, concerning_remote hsettles.remote, concerning_cons]
          simp only [Request.mark?, hdriven, hsettled, if_true, Option.isSome_some,
            concerning_nil, List.nil_append, List.append_nil, List.cons_append]
          exact .twice hopen
            ⟨hdriven, hsettled, congrArg (·.getD .init) hsettles.state.2, hlisted,
              hsettles.transcribed (hdrives.transcribed hlasts)⟩

/-- What is recorded for a program if it is listed in a state. -/
def recordings (id : String) (program : Program) (listed : State) : List Request :=
  if listed.isDone then [] else [recording (id, program.wantedIds listed.current)]

section

variable {state final listed : State} {between : List Request}

@[simp]
theorem mark?_list (id : String) : Request.mark? id (.store .list) = some .listed := rfl

@[simp]
theorem mark?_recording (id : String) (ids : List String) :
    (recording (id, ids)).mark? id = some .recorded := if_pos rfl

theorem stateAfter_recording (id : String) (ids : List String) (hlasts : state.transcribed = state) :
    stateAfter id state (recording (id, ids)) = state.listing ids :=
  (if_pos rfl).trans (congrArg (State.listing · ids) hlasts)

theorem mark?_save (hid : state.programId = id) :
    Request.mark? id (.store (.save state)) = some .stored := if_pos hid

theorem stateAfter_save (hid : state.programId = id) (other : State) :
    stateAfter id other (.store (.save state)) = state := if_pos hid

/-- A program that is listed before a run stores it: only if it is recorded after all is
stored, something else is left. -/
theorem Saves.left_early (h : Saves id item.program state final) (ids : List String)
    (hbetween : Interleaved [recording (id, ids)] [.store (.save state), .store (.save final)]
      between) :
    stateThrough id (.store .list :: between) listed =
      if (Request.store .list :: between).filterMap (Request.mark? id) = overtaken then
        final.listing ids
      else final := by
  have hmark := mark?_save h.first
  have hmark' := mark?_save h.last
  cases hbetween with
  | left hrest =>
      rw [hrest.symm.eq_of_nil]
      refine (stateAfter_save h.last _).trans (if_neg ?_).symm
      simp [hmark, hmark', overtaken]
  | right hrest =>
      cases hrest with
      | left hrest =>
          rw [hrest.symm.eq_of_nil]
          refine (stateAfter_save h.last _).trans (if_neg ?_).symm
          simp [hmark, hmark', overtaken]
      | right hrest =>
          rw [hrest.eq_of_nil]
          have hlast : stateThrough id [.store .list, .store (.save state), .store (.save final),
              recording (id, ids)] listed = final.listing ids := by
            refine (congrArg (stateAfter id · (recording (id, ids))) ?_).trans
              (stateAfter_recording id ids h.lasting)
            exact stateAfter_save h.last _
          refine hlast.trans (if_pos ?_).symm
          simp [hmark, hmark', overtaken]

/-- A program that is listed with what a run has stored: what is recorded is what is left. -/
theorem Saves.left_late (h : Saves id item.program state final) {earlier later : List Request}
    (hne : earlier ≠ [])
    (hstores : earlier ++ later = [.store (.save state), .store (.save final)])
    (hbetween : Interleaved (recordings id item.program (stateThrough id earlier listed)) later
      between) : stateThrough id (earlier ++ .store .list :: between) listed = final := by
  have hlists (hgoes : state.isDone = false) :
      final.listing (item.program.wantedIds state.current) = final := by
    rw [← h.listed hgoes]
    rfl
  rcases earlier with _ | ⟨first, _ | ⟨second, rest⟩⟩
  · exact absurd rfl hne
  · obtain ⟨rfl, rfl⟩ := List.cons.inj hstores
    rw [show stateThrough id [.store (.save state)] listed = state from
      stateAfter_save h.first _, recordings] at hbetween
    split at hbetween
    · rw [hbetween.symm.eq_of_nil]
      exact stateAfter_save h.last _
    · rename_i hopen
      cases hbetween with
      | left hrest =>
          rw [hrest.symm.eq_of_nil]
          exact stateAfter_save h.last _
      | right hrest =>
          rw [hrest.eq_of_nil]
          have hlast : stateThrough id [.store (.save state), .store .list, .store (.save final)]
              listed = final := stateAfter_save h.last _
          refine (congrArg (stateAfter id · _) hlast).trans
            ((stateAfter_recording id _ h.lasting).trans ?_)
          exact hlists (Bool.eq_false_iff.2 hopen)
  · obtain ⟨rfl, hothers⟩ := List.cons.inj hstores
    obtain ⟨rfl, hnone⟩ := List.cons.inj hothers
    obtain ⟨rfl, rfl⟩ := List.append_eq_nil_iff.1 hnone
    have hlast : stateThrough id [.store (.save state), .store (.save final)] listed = final :=
      stateAfter_save h.last _
    have hdone : final.isDone = state.isDone := congrArg Effect.isDone h.current
    rw [hlast, recordings, hdone, h.current] at hbetween
    rw [hbetween.eq_of_nil]
    split
    · exact hlast
    · rename_i hopen
      refine (congrArg (stateAfter id · _) hlast).trans
            ((stateAfter_recording id _ h.lasting).trans ?_)
      exact hlists (Bool.eq_false_iff.2 hopen)

end

/-- Whatever was listed and wherever it is recorded, what the run stored last is left, unless
the run was overtaken. -/
theorem Stores.left {earlier later between : List Request}
    (h : Stores id seen (earlier ++ later) answer) (hprogram : seen.program = item.program)
    (hcurrent : seen.state.current = item.state.current)
    (hbetween : Interleaved
      (recordings id item.program (stateThrough id earlier item.state)) later between) :
    ∃ final, (item.state.isDone = true → final = item.state ∧
        (earlier ++ .store .list :: between).filterMap (Request.mark? id) ≠ overtaken) ∧
      (item.state.isDone = false → answer = some final) ∧
      stateThrough id (earlier ++ .store .list :: between) item.state =
        if (earlier ++ .store .list :: between).filterMap (Request.mark? id) = overtaken then
          final.listing (item.program.wantedIds item.state.current)
        else final := by
  have hsame : seen.state.isDone = item.state.isDone := congrArg Effect.isDone hcurrent
  generalize hstored : earlier ++ later = stored at h
  cases h with
  | nothing hdone =>
      obtain ⟨rfl, rfl⟩ := List.append_eq_nil_iff.1 hstored
      have hdone : item.state.isDone = true := hsame.symm.trans hdone
      have hnone : recordings id item.program (stateThrough id [] item.state) = [] := if_pos hdone
      rw [hnone] at hbetween
      obtain rfl := hbetween.eq_of_nil
      refine ⟨item.state, fun _ => ⟨rfl, nofun⟩, fun hopen => ?_, rfl⟩
      cases hopen.symm.trans hdone
  | @twice state final hopen hsaves =>
      have hopen : item.state.isDone = false := hsame.symm.trans hopen
      rw [hprogram] at hsaves
      refine ⟨final, fun hdone => ?_, fun _ => rfl, ?_⟩
      · cases hopen.symm.trans hdone
      · by_cases hne : earlier = []
        · subst hne
          obtain rfl : later = _ := hstored
          have hone : recordings id item.program (stateThrough id [] item.state) =
              [recording (id, item.program.wantedIds item.state.current)] :=
            if_neg (by rw [stateThrough, List.foldl_nil, hopen]; exact Bool.false_ne_true)
          rw [hone] at hbetween
          exact hsaves.left_early _ hbetween
        · refine (hsaves.left_late hne hstored hbetween).trans (if_neg ?_).symm
          -- the first mark is that something was stored
          obtain ⟨first, rest, rfl⟩ := List.exists_cons_of_ne_nil hne
          obtain ⟨rfl, -⟩ := List.cons.inj hstored
          simp [mark?_save hsaves.first, overtaken]

/-- A run looks for the program before it stores anything. -/
theorem Runs.begins {occasion : Occasion} (h : Runs settings occasion id seen running answer) :
    ∃ begun rest, running = begun ++ ⟨.store (.get id), .ok (some seen)⟩ :: rest ∧
      concerning id begun = [] := by
  cases h with
  | noticed => exact ⟨[], [], rfl, rfl⟩
  | @held look work now final hlook =>
      refine ⟨look ++ opening settings id now, _, (List.append_assoc ..).symm, ?_⟩
      rw [concerning_append, hlook.concerning]
      rfl

/-- What an overlap comes to: what the run was told, what it stored last, and what is left. -/
theorem Overlaps.leaves (h : Overlaps contest store registering running merged answer after)
    (hkeyed : store.Keyed) (hintact : store.Intact id)
    (hfound : store.items.find? id = some item)
    (hid : contest.occasion.programId? = some id) :
    ∃ seen final, Runs contest.runner contest.occasion id seen running answer ∧
      seen.program = item.program ∧ seen.state.listing [] = item.state.listing [] ∧
      (item.state.isDone = true → final = item.state ∧ marks id merged ≠ overtaken) ∧
      (item.state.isDone = false → answer = some final) ∧
      after.items.find? id = some { item with
        state := if marks id merged = overtaken then
            final.listing (item.program.wantedIds item.state.current)
          else final } := by
  obtain ⟨seen, hruns⟩ := Occasion.runs hid h.runs h.running_granted (h.there hfound)
  obtain ⟨begun, rest, hrunning, hbegun⟩ := hruns.begins
  obtain ⟨early, late, -, -, hearly, -, -, -, -, hseen⟩ :=
    h.finds hintact hfound hrunning hbegun
  obtain ⟨hprogram, hstate, hlasts⟩ := h.finds_same hintact hfound hearly hseen
  have hcurrent : (seen.state.listing []).current = (item.state.listing []).current :=
    congrArg State.current hstate
  have hstateId : (seen.state.listing []).programId = id :=
    (congrArg State.programId hstate).trans (hkeyed id item hfound).2
  have hstores := hruns.stores hstateId hlasts h.running_granted
  obtain ⟨device, hregisters⟩ := h.registers
  obtain ⟨entries, asked, recorded, hlog, hasked, hrecorded⟩ :=
    follows_registerDevice hregisters h.registering_granted
  have hinterleaved := h.interleaved
  rw [hlog] at hinterleaved
  have hprograms : ∀ key found, store.items.find? key = some found → found.program.id = key :=
    fun key found hkey => (hkeyed key found hkey).1
  obtain ⟨before, later, between, hparts, hmerged, hbetween, hregistered⟩ :=
    h.listed hprograms hfound hinterleaved (List.append_nil merged).symm
  have hconcerning := interleaved_concerning hbetween id
  have hrecordings : concerning id (asked ++ recorded) = recordings id item.program
      (stateThrough id (concerning id before) item.state) := by
    rw [concerning_registering hasked hrecorded, hregistered, recordings]
    dsimp only
    split <;> rfl
  rw [hrecordings] at hconcerning
  rw [hparts, concerning_append] at hstores
  obtain ⟨final, hover, hanswer, hleft⟩ := hstores.left hprogram hcurrent hconcerning
  have hafter := h.found (List.append_nil merged).symm h.serves id
  have hwhole : concerning id merged =
      concerning id before ++ .store .list :: concerning id between := by
    rw [hmerged, concerning_append, concerning_cons]
    rfl
  rw [← hwhole, ← marks_eq] at hover
  rw [← hwhole, ← marks_eq, ← stateThrough_concerning] at hleft
  refine ⟨seen, final, hruns, hprogram, hstate, hover, hanswer, ?_⟩
  rw [hafter, hfound, Option.map_some, hleft]

/-- The same answers of the collaborators and the clocks lead a run to the same state. -/
theorem Overlaps.determined {registering' running' merged' : Log Surroundings}
    {answer' : Option State} {after' : Store}
    (h : Overlaps contest store registering running merged answer after)
    (h' : Overlaps contest store registering' running' merged' answer' after')
    (hkeyed : store.Keyed) (hintact : store.Intact id)
    (hfound : store.items.find? id = some item)
    (hid : contest.occasion.programId? = some id) (hopen : item.state.isDone = false)
    (hheard : heard running' = heard running) : answer' = answer := by
  obtain ⟨seen, _, hruns, hprogram, hstate, -⟩ := h.leaves hkeyed hintact hfound hid
  obtain ⟨seen', _, hruns', hprogram', hstate', -⟩ := h'.leaves hkeyed hintact hfound hid
  have hopen : (seen.state.listing []).isDone = false :=
    (congrArg State.isDone hstate).trans hopen
  exact hruns.determined hruns' (hprogram'.trans hprogram.symm) (hstate'.trans hstate.symm) hopen
    h.running_granted h'.running_granted hheard

end ProgramQueue.Queue
