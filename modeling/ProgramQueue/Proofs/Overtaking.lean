import ProgramQueue.Proofs.Bystanders
import ProgramQueue.Proofs.Interruptions

/-!
# One after the other

A registration and a run of one program can always be carried out one after the other with
the same answers, and what they leave then does not depend on which comes first.  When they
overlap they leave the same, unless the run is overtaken.
-/

namespace ProgramQueue.Queue

open ProgramQueue.Task (Follows follows_bind follows_pure follows_request follows_run)

variable {settings registrar runner : Settings} {identity : DeviceIdentity} {id key : String}
  {item seen : Item} {before after store other : Store} {contest : Contest}
  {log registering running merged : Log Surroundings} {answer : Option State}
  {occasion : Occasion}

/-! ## A registration by itself -/

/-- A program is found in a store as long as its record can be read. -/
theorem Serves.get (hfound : store.items.find? id = some seen) (hlasts : seen.transcribed = seen)
    (hreadable : seen.isReadable = true) (h : Serves store log after) :
    Serves store (⟨.store (.get id), .ok (some seen)⟩ :: log) after := by
  have hget := (Store.get_iff hfound).2 hreadable
  rw [hlasts] at hget
  exact serves_store.2 ⟨hget, h⟩

/-- Where every record can be read, all that was planned is recorded. -/
theorem recordEvents_granted {planned : List (String × List Push.Event)}
    (hplanned : ∀ entry ∈ planned, ∃ item, store.items.find? entry.1 = some item ∧
      item.isReadable = true) :
    ∃ log after, (recordEvents planned).Follows log (.ok ()) ∧ Granted log ∧
      Serves store log after := by
  induction planned generalizing store with
  | nil => exact ⟨[], store, .done _, List.forall_mem_nil _, .nil _⟩
  | cons entry rest ih =>
      obtain ⟨hentry, hrest⟩ := List.forall_mem_cons.1 hplanned
      obtain ⟨item, hfound, hreadable⟩ := hentry
      let change (state : State) : State := state.listing (entry.2.map (·.eventId))
      rcases store.update_cases entry.1 change with ⟨_, hother, -, hanswer, hputs⟩ | ⟨hnone, -, -⟩
      · obtain rfl := Option.some.inj (hfound.symm.trans hother)
        have hstill : ∀ next ∈ rest, ∃ item,
            (store.update entry.1 change).2.items.find? next.1 = some item ∧
              item.isReadable = true := by
          intro next hnext
          obtain ⟨found, hnextFound, hnextReadable⟩ := hrest next hnext
          rw [hputs.items]
          split
          · have hsame : ({ item with state := change item.state.transcribed } : Item).isReadable =
                item.transcribed.isReadable := Item.isReadable_congr rfl rfl
            exact ⟨_, rfl, hsame.trans (item.isReadable_transcribed.trans hreadable)⟩
          · exact ⟨found, hnextFound, hnextReadable⟩
        obtain ⟨log, after, hfollows, hgranted, hserves⟩ := ih hstill
        refine ⟨⟨.store (.update entry.1 change), .ok (change item.state.transcribed)⟩ :: log, after,
          .ask hfollows, granted_cons.2 ⟨rfl, hgranted⟩, serves_store.2 ⟨hanswer, hserves⟩⟩
      · rw [hnone item hfound] at hreadable
        cases hreadable

/-- What a registration looks up can be granted. -/
theorem planAll_granted (settings : Settings) (entries : List (String × Item)) :
    ∃ log planned, (planAll settings entries).Follows log planned ∧ Granted log := by
  let world := (Host.granting 0).world
  refine ⟨_, _, follows_run world (planAll settings entries) ⟨.empty, ()⟩, fun entry hentry => ?_⟩
  have hinquiry := (inquires_planAll settings entries).follows
    (follows_run world (planAll settings entries) ⟨.empty, ()⟩) entry hentry
  obtain ⟨session, hanswer⟩ := Task.answer_of_mem_log hentry
  obtain ⟨request, answer⟩ := entry
  obtain rfl : answer = (world.respond request session).1 := hanswer
  cases hinquiry with
  | walletInfo | clock => rfl
  | push request => cases request <;> rfl

/-- Where every record can be read, a registration can be carried out. -/
theorem registerDevice_granted (settings : Settings) (identity : DeviceIdentity)
    (hkeyed : store.Keyed) (hreadable : ∀ key item, store.items.find? key = some item →
      item.isReadable = true) :
    ∃ log device after, (registerDevice settings identity).Follows log (.ok device) ∧
      Granted log ∧ Serves store log after := by
  obtain ⟨entries, hlist⟩ := Store.list_iff.2 fun entry hentry =>
    hreadable entry.1 entry.2 (Table.find?_of_mem hentry)
  obtain rfl := Store.list_ok hlist
  obtain ⟨asked, planned, hplan, hasked⟩ := planAll_granted settings store.listed
  have hremote : ∀ entry ∈ asked, entry.request.IsRemote := fun entry hentry =>
    remote_of_inquiry ((inquires_planAll _ _).follows hplan entry hentry)
  have hplanned : ∀ entry ∈ planned, ∃ item, store.items.find? entry.1 = some item ∧
      item.isReadable = true := by
    intro entry hentry
    have hregistered : (entry.1, entry.2.map Push.Event.eventId) ∈ registered store.items.entries :=
      registered_listed store ▸ follows_planAll hplan hasked ▸ List.mem_map_of_mem hentry
    obtain ⟨listed, hlisted, heq⟩ := List.mem_map.1 hregistered
    have hfound := Table.find?_of_mem (List.mem_filter.1 hlisted).1
    have hkey : listed.2.program.id = entry.1 := (Prod.mk.inj heq).1
    rw [(hkeyed _ _ hfound).1] at hkey
    exact ⟨listed.2, hkey ▸ hfound, hreadable _ _ hfound⟩
  obtain ⟨recorded, after, hrecord, hrecorded, hserves⟩ := recordEvents_granted hplanned
  let update : Push.DeviceUpdate :=
    { rootLoginIds := identity.rootLoginIds.map Push.encodeLoginId
      events := planned.flatMap (·.2)
      deviceToken := identity.deviceToken }
  let device : Push.Device := ⟨[], [], false, false⟩
  refine ⟨⟨.store .list, .ok store.listed⟩ ::
    (asked ++ ⟨.push (.updateDevice update), .ok device⟩ :: recorded), device, after, ?_, ?_, ?_⟩
  · refine follows_bind.2 ⟨[_], .ok store.listed, _, rfl, follows_request.2 rfl, ?_⟩
    refine follows_bind.2 ⟨asked, planned, _, rfl, hplan, ?_⟩
    refine follows_bind.2 ⟨[_], .ok device, recorded, rfl, follows_request.2 rfl, ?_⟩
    exact follows_bind.2 ⟨recorded, .ok (), [], (List.append_nil _).symm, hrecord, .done _⟩
  · simp only [granted_cons, granted_append]
    exact ⟨rfl, hasked, rfl, hrecorded⟩
  · refine serves_store.2 ⟨hlist, (serves_remote hremote).2 (.other ?_ hserves)⟩
    intro own heq
    cases heq

/-- What a registration by itself leaves: the events of a program that is not over are
recorded, and the claims are as they were. -/
theorem registerDevice_leaves {device : Push.Device}
    (h : (registerDevice settings identity).Follows log (.ok device)) (hgranted : Granted log)
    (hserves : Serves store log after) (hkeyed : store.Keyed) (hintact : store.Intact id)
    (hfound : store.items.find? id = some item) : after.claims = store.claims ∧
      after.items.find? id = some { item with
        state := if item.state.isDone then item.state
          else item.state.listing (item.program.wantedIds item.state.current) } := by
  have hwithin := (within_registerDevice settings identity).follows h
  constructor
  · refine hserves.claims fun entry hentry own heq => leavesClaims_of_registering ?_
    exact heq ▸ hwithin entry hentry
  · obtain ⟨entries, asked, recorded, rfl, hasked, hrecorded⟩ :=
      follows_registerDevice h hgranted
    obtain rfl : entries = store.listed := Store.list_ok (serves_store.1 hserves).1
    have hprograms : ∀ key found, store.items.find? key = some found → found.program.id = key :=
      fun key found hkey => (hkeyed key found hkey).1
    have hconcerning := concerning_registering hasked hrecorded id
    rw [registered_of_found hprograms hfound] at hconcerning
    have hafter := hserves.found
      (fun entry hentry => keepsPrograms_of_registering (hwithin entry hentry)) hgranted id
    rw [hafter, hfound, Option.map_some, stateThrough_concerning, concerning_cons, hconcerning]
    cases item.state.isDone with
    | true => rfl
    | false =>
        exact congrArg (fun state => some { item with state := state })
          (stateAfter_recording id _ (hintact.state hfound))

/-! ## A run by itself -/

variable {fired : Option String} {work : Log Surroundings} {state final : State} {now : Int}

theorem Runs.follows (h : Runs settings occasion id seen running answer) :
    (occasion.operation settings).Follows running (.ok answer) := by
  cases h with
  | noticed hoccasion hevent hdone =>
      rw [hoccasion]
      exact Occasion.follows_over hevent hdone
  | held hlook hheld _ => exact Occasion.follows_held hlook hheld

theorem Serves.save (hid : state.programId = id) (hfound : store.items.find? id = some seen)
    (hreadable : seen.isReadable = true) : ∃ middle,
      middle.items.find? id = some { seen with state := state } ∧
      ∀ log after, Serves middle log after →
        Serves store (⟨.store (.save state), .ok ()⟩ :: log) after := by
  subst hid
  rcases store.save_cases state with ⟨_, hother, -, hanswer, hputs⟩ | ⟨hnone, -, -⟩
  · obtain rfl := Option.some.inj (hfound.symm.trans hother)
    exact ⟨_, hputs.self, fun log after h => serves_store.2 ⟨hanswer, h⟩⟩
  · rw [hnone seen hfound] at hreadable
    cases hreadable

/-- A store in which the program is found as a run found it can serve what the run does. -/
theorem Works.serves (h : Works settings id fired seen work final)
    (hid : seen.state.programId = id) (hfound : store.items.find? id = some seen)
    (hreadable : seen.isReadable = true)
    (hfinal : ({ seen with state := final } : Item).isReadable = true) :
    ∃ after, Serves store work after := by
  cases h with
  | closed => exact ⟨store, .nil _⟩
  | @ran state _ driving settling hopen hdrives hsettles =>
      have hdriven : state.programId = id := by
        rw [hdrives.state.1, hid]
      have hsettled : final.programId = id := hsettles.state.1.trans hdriven
      have hcurrent : state.current = final.current :=
        (congrArg (·.getD .init) hsettles.state.2).symm
      have hstate : ({ seen with state := state } : Item).isReadable =
          ({ seen with state := final } : Item).isReadable := Item.isReadable_congr rfl hcurrent
      obtain ⟨first, hstored, hfirst⟩ := Serves.save hdriven hfound hreadable
      obtain ⟨last, -, hlast⟩ := Serves.save hsettled hstored (hstate.trans hfinal)
      refine ⟨last, (serves_remote hdrives.remote).2 (hfirst _ _ ?_)⟩
      exact (serves_remote hsettles.remote).2 (hlast _ _ (.nil _))

/-- So can it serve a program that is held and run. -/
theorem serves_held (hworks : Works settings id fired seen work final)
    (hid : seen.state.programId = id) (hlasts : seen.transcribed = seen)
    (hreadable : seen.isReadable = true)
    (hfinal : ({ seen with state := final } : Item).isReadable = true)
    (hfound : store.items.find? id = some seen)
    (hclaim : (store.tryClaim id settings.owner now settings.lockTtl).1 = .ok true) :
    ∃ after, Serves store (opening settings id now ++
      ⟨.store (.get id), .ok (some seen)⟩ :: (work ++ closing settings id)) after := by
  let claimed := (store.tryClaim id settings.owner now settings.lockTtl).2
  let claiming : Store.Request := .tryClaim id settings.owner now settings.lockTtl
  have hquiet : claiming.keepsItems = true := rfl
  have hclaimed : claimed.items.find? id = some seen :=
    ((Store.respond_same hquiet store).items id).trans hfound
  obtain ⟨worked, hwork⟩ := hworks.serves hid hclaimed hreadable hfinal
  refine ⟨(Store.respond (.release id settings.owner) worked).2, .other nofun (.other nofun ?_)⟩
  refine serves_store.2 ⟨hclaim, Serves.get hclaimed hlasts hreadable ?_⟩
  exact serves_append.2 ⟨worked, hwork, .store (.other nofun (.nil _))⟩

theorem Looks.gets {look : Log Surroundings} (h : Looks id occasion look) :
    ∀ entry ∈ look, ∃ key, entry.request = .store (.get key) := by
  cases h with
  | asked => exact List.forall_mem_nil _
  | fired => exact List.forall_mem_singleton.2 ⟨id, rfl⟩

/-- What a run stores is what its drive came to, apart from what settling changes. -/
theorem Runs.saves (h : Runs settings occasion id seen running answer) :
    ∀ entry ∈ running, ∀ state, entry.request = .store (.save state) →
      ∃ driving driven, Drives settings id occasion.event? seen driving driven ∧
        state.programId = driven.programId ∧ state.effect = driven.effect := by
  have hremote {log : Log Surroundings} {P : State → Prop}
      (h : ∀ entry ∈ log, entry.request.IsRemote) :
      ∀ entry ∈ log, ∀ state, entry.request = .store (.save state) → P state :=
    fun entry hentry state heq => by cases heq ▸ h entry hentry
  have hlooking {look : Log Surroundings} {P : State → Prop} (h : Looks id occasion look) :
      ∀ entry ∈ look, ∀ state, entry.request = .store (.save state) → P state := by
    intro entry hentry state heq
    obtain ⟨key, hget⟩ := h.gets entry hentry
    cases hget.symm.trans heq
  have hsave {state : State} {rest : Log Surroundings} {P : State → Prop} (hstate : P state)
      (hrest : ∀ entry ∈ rest, ∀ state, entry.request = .store (.save state) → P state) :
      ∀ entry ∈ (⟨.store (.save state), .ok ()⟩ :: rest : Log Surroundings), ∀ state,
        entry.request = .store (.save state) → P state := by
    refine List.forall_mem_cons.2 ⟨fun other heq => ?_, hrest⟩
    cases heq
    exact hstate
  cases h with
  | noticed => simp
  | @held look work now final hlook _ hworks =>
      refine List.forall_mem_append.2 ⟨hlooking hlook, List.forall_mem_append.2 ⟨?_, ?_⟩⟩
      · simp [opening]
      · refine List.forall_mem_cons.2 ⟨by simp, List.forall_mem_append.2 ⟨?_, by simp [closing]⟩⟩
        cases hworks with
        | closed => exact List.forall_mem_nil _
        | @ran state _ driving settling _ hdrives hsettles =>
            refine List.forall_mem_append.2 ⟨hremote hdrives.remote, hsave ?_ ?_⟩
            · exact ⟨driving, state, hdrives, rfl, rfl⟩
            refine List.forall_mem_append.2 ⟨hremote hsettles.remote, hsave ?_ ?_⟩
            · exact ⟨driving, state, hdrives, hsettles.state⟩
            · exact List.forall_mem_nil _

/-- A run only stores the state of the program that it is a run of. -/
theorem Runs.saves_own (h : Runs settings occasion id seen running answer)
    (hid : seen.state.programId = id) :
    ∀ entry ∈ running, ∀ state, entry.request = .store (.save state) → state.programId = id := by
  intro entry hentry state heq
  obtain ⟨driving, driven, hdrives, hsame, -⟩ := h.saves entry hentry state heq
  exact hsame.trans (hdrives.state.1.trans hid)

/-- It stores no rate that it has not found. -/
theorem Runs.saves_lasting (h : Runs settings occasion id seen running answer)
    (hlasts : seen.transcribed = seen) :
    ∀ entry ∈ running, ∀ state, entry.request = .store (.save state) →
      state.transcribed = state := by
  intro entry hentry state heq
  obtain ⟨driving, driven, hdrives, -, hsame⟩ := h.saves entry hentry state heq
  have hdriven := State.transcribed_eq_self.1 (hdrives.transcribed hlasts)
  rw [State.transcribed_eq_self]
  rwa [State.current, hsame]

namespace Overlaps

/-- What is asked for in the course of a run is asked of the store when the claims are those
of before. -/
theorem claim (h : Overlaps contest store registering running merged answer after)
    {look rest : Log Surroundings} (hlook : Looks id contest.occasion look)
    (hrunning : running = look ++ (opening contest.runner id now ++ rest)) :
    (store.tryClaim id contest.runner.owner now contest.runner.lockTtl).1 = .ok true := by
  have hparts : running = (look ++ [⟨.lock id, ()⟩, ⟨.wallClock, now⟩]) ++
      ⟨.store (.tryClaim id contest.runner.owner now contest.runner.lockTtl), .ok true⟩ ::
        rest := by
    rw [hrunning, List.append_assoc]
    rfl
  obtain ⟨early, late, past, next, middle, hearly, -, hpast, -, hbefore, hanswer⟩ :=
    h.asks hparts
  have hclaims : middle.claims = store.claims := by
    refine hbefore.claims fun entry hentry own heq => ?_
    rcases hpast.mem hentry with hregistering | hbegun
    · refine leavesClaims_of_registering (heq ▸ h.registering_within entry ?_)
      exact hearly ▸ List.mem_append_left _ hregistering
    · rcases List.mem_append.1 hbegun with hlooked | hopened
      · obtain ⟨key, hget⟩ := hlook.gets entry hlooked
        cases hget.symm.trans heq
        trivial
      · rcases List.mem_cons.1 hopened with rfl | hread
        · cases heq
        · rw [List.mem_singleton.1 hread] at heq
          cases heq
  rw [← tryClaim_congr hclaims]
  exact hanswer

/-- Whatever a run finds of the program, it is over or not as it was. -/
theorem finds_done (h : Overlaps contest store registering running merged answer after)
    (hintact : store.Intact id) (hfound : store.items.find? id = some item) {begun rest : Log Surroundings}
    (hrunning : running = begun ++ ⟨.store (.get id), .ok (some seen)⟩ :: rest)
    (hbegun : concerning id begun = []) :
    seen.isReadable = true ∧ seen.state.isDone = item.state.isDone := by
  obtain ⟨early, late, -, -, hearly, -, -, -, hreadable, hseen⟩ := h.finds hintact hfound hrunning hbegun
  have hstate := (h.finds_same hintact hfound hearly hseen).2.1
  have hdone : (seen.state.listing []).isDone = (item.state.listing []).isDone :=
    congrArg State.isDone hstate
  exact ⟨hreadable, hdone⟩

/-- What a run stores last can be read. -/
theorem final_readable (h : Overlaps contest store registering running merged answer after)
    (hkeyed : store.Keyed) (hintact : store.Intact id)
    (hfound : store.items.find? id = some item)
    (hruns : Runs contest.runner contest.occasion id seen running (some final)) :
    ({ seen with state := final } : Item).isReadable = true := by
  obtain ⟨begun, rest, hrunning, hbegun⟩ := hruns.begins
  obtain ⟨early, late, -, -, hearly, -, -, -, hreadable, hseen⟩ := h.finds hintact hfound hrunning hbegun
  obtain ⟨hprogram, hstate, hlasts⟩ := h.finds_same hintact hfound hearly hseen
  have hid : (seen.state.listing []).programId = id :=
    (congrArg State.programId hstate).trans (hkeyed id item hfound).2
  have hsaved := hruns.saves_lasting hlasts
  cases hruns with
  | @held look work now final hlook _ hworks =>
      cases hworks with
      | closed => exact hreadable
      | @ran state _ driving settling _ hdrives hsettles =>
          have hdriven : state.programId = id := hdrives.state.1.trans hid
          have hsettled : final.programId = id := hsettles.state.1.trans hdriven
          let before := look ++ (opening contest.runner id now ++
            ⟨.store (.get id), .ok (some seen)⟩ :: (driving ++
              ⟨.store (.save state), .ok ()⟩ :: settling))
          have hbefore : concerning id before = [.store (.save state)] := by
            rw [concerning_append, hlook.concerning, concerning_append, concerning_cons,
              concerning_append, concerning_remote hdrives.remote, concerning_cons,
              concerning_remote hsettles.remote]
            simp [Request.mark?, hdriven, opening, concerning]
          have hparts : look ++ (opening contest.runner id now ++
              ⟨.store (.get id), .ok (some seen)⟩ :: (driving ++ ⟨.store (.save state), .ok ()⟩ ::
                (settling ++ [⟨.store (.save final), .ok ()⟩]) ++ closing contest.runner id)) =
              before ++ ⟨.store (.save final), .ok ()⟩ :: closing contest.runner id := by
            simp [before]
          obtain ⟨early, late, past, next, middle, hearly, hsplit, hpast, -, hstored, hanswer⟩ :=
            h.asks hparts
          have hanswer : (middle.save final).1 = .ok () := hanswer
          have hmiddle := h.found hsplit hstored id
          have hsaves : ∀ entry ∈ before, ∀ state, entry.request = .store (.save state) →
              state.transcribed = state := fun entry hentry =>
            hsaved entry (hparts ▸ List.mem_append_left _ hentry)
          have hlisting := h.state_listing hearly hparts hpast hsaves id (hintact.state hfound)
          rw [hbefore] at hlisting
          have hcurrent : (stateThrough id (past.map (·.request)) item.state).current =
              state.current := by
            have hsame := congrArg State.current hlisting
            have hthrough : stateThrough id [.store (.save state)] item.state = state :=
              stateAfter_save hdriven _
            rw [hthrough] at hsame
            exact hsame
          rw [hfound, Option.map_some] at hmiddle
          rcases middle.save_cases final with ⟨found, hother, hread, -, -⟩ | ⟨-, ⟨e, herror⟩, -⟩
          · rw [hsettled, hmiddle] at hother
            obtain rfl := Option.some.inj hother
            rw [← hread]
            refine Item.isReadable_congr hprogram ?_
            exact (congrArg (·.getD .init) hsettles.state.2).trans hcurrent.symm
          · cases hanswer.symm.trans herror

/-- A run can be repeated with the same answers wherever the claims are the same and the
program is found as it was. -/
theorem replays (h : Overlaps contest store registering running merged answer after)
    (hkeyed : store.Keyed) (hintact : store.Intact id)
    (hfound : store.items.find? id = some item)
    (hruns : Runs contest.runner contest.occasion id seen running answer)
    (hclaims : other.claims = store.claims) (hother : other.items.find? id = some seen) :
    ∃ replayed last, Runs contest.runner contest.occasion id seen replayed answer ∧
      Granted replayed ∧ heard replayed = heard running ∧ Serves other replayed last := by
  obtain ⟨begun, rest, hrunning, hbegun⟩ := hruns.begins
  obtain ⟨hreadable, hdone⟩ := h.finds_done hintact hfound hrunning hbegun
  obtain ⟨early, late, -, -, hearly, -, -, -, -, hseen⟩ := h.finds hintact hfound hrunning hbegun
  obtain ⟨-, hstate, hlasts⟩ := h.finds_same hintact hfound hearly hseen
  have hid : (seen.state.listing []).programId = id :=
    (congrArg State.programId hstate).trans (hkeyed id item hfound).2
  cases hruns with
  | noticed hoccasion hevent hover =>
      exact ⟨_, other, .noticed hoccasion hevent hover, h.running_granted, rfl,
        Serves.get hother hlasts hreadable (.nil _)⟩
  | @held look work now final hlook hheld hworks =>
      have hfinal := h.final_readable hkeyed hintact hfound (.held hlook hheld hworks)
      have hclaim := (tryClaim_congr hclaims id contest.runner.owner now
        contest.runner.lockTtl).trans (h.claim hlook rfl)
      obtain ⟨last, hserves⟩ := serves_held hworks hid hlasts hreadable hfinal hother hclaim
      have hgranted := (granted_append.1 h.running_granted).2
      generalize hoccasion : contest.occasion = occasion at hlook hheld hworks h ⊢
      cases hlook with
      | asked => exact ⟨_, last, .held .asked hheld hworks, hgranted, rfl, hserves⟩
      | @fired event found hevent hopen =>
          have hstart (rest : Log Surroundings) : ⟨.store (.get id), .ok (some found)⟩ :: rest =
              [] ++ ⟨.store (.get id), .ok (some found)⟩ :: rest := rfl
          have hsame := (h.finds_done hintact hfound (hstart _) (concerning_nil id)).2
          have hlook : Looks id (.fired event) [⟨.store (.get id), .ok (some seen)⟩] :=
            .fired hevent (hdone.trans (hsame.symm.trans hopen))
          exact ⟨_, last, .held hlook hheld hworks, granted_cons.2 ⟨rfl, hgranted⟩, rfl,
            Serves.get hother hlasts hreadable hserves⟩

end Overlaps

/-! ## One after the other -/

/-- What is stored under an id when a registration and a run have been carried out one after
the other, with these answers of the collaborators and the clocks to the run. -/
inductive LeftInTurn (contest : Contest) (store : Store) (id : String)
    (answers : Log Surroundings) : Option Item → Prop
  | registeredFirst {registering running : Log Surroundings} {answer : Option State}
      {after : Store} (hheard : heard running = answers)
      (h : Overlaps contest store registering running (registering ++ running) answer after) :
      LeftInTurn contest store id answers (after.items.find? id)
  | runFirst {registering running : Log Surroundings} {answer : Option State} {after : Store}
      (hheard : heard running = answers)
      (h : Overlaps contest store registering running (running ++ registering) answer after) :
      LeftInTurn contest store id answers (after.items.find? id)

/-- Unless it is an update, a request leaves a state as it is, or stores another one. -/
theorem stateAfter_cases {request : Request}
    (hnone : ∀ other change, request ≠ .store (.update other change)) (state : State) :
    stateAfter key state request = state ∨
      ∃ new, request = .store (.save new) ∧ new.programId = key ∧
        stateAfter key state request = new := by
  cases request with
  | store own =>
      cases own with
      | update other change => exact absurd rfl (hnone other change)
      | save new =>
          by_cases hnew : new.programId = key
          · exact .inr ⟨new, rfl, hnew, if_pos hnew⟩
          · exact .inl (if_neg hnew)
      | _ => exact .inl rfl
  | _ => exact .inl rfl

/-- Requests that only store states of one program leave the others as they are. -/
theorem stateThrough_others {requests : List Request}
    (hnone : ∀ request ∈ requests, ∀ key change, request ≠ .store (.update key change))
    (hown : ∀ request ∈ requests, ∀ state, request = .store (.save state) → state.programId = id)
    (hne : key ≠ id) (state : State) : stateThrough key requests state = state := by
  induction requests generalizing state with
  | nil => rfl
  | cons request rest ih =>
      obtain ⟨hupdate, hnone⟩ := List.forall_mem_cons.1 hnone
      obtain ⟨hsave, hown⟩ := List.forall_mem_cons.1 hown
      refine (ih hnone hown _).trans ?_
      rcases stateAfter_cases hupdate state with hsame | ⟨new, hrequest, hnew, -⟩
      · exact hsame
      · exact absurd (hnew.symm.trans (hsave new hrequest)) hne

/-- What is stored for a program says which one it is. -/
theorem stateThrough_programId {requests : List Request}
    (hnone : ∀ request ∈ requests, ∀ key change, request ≠ .store (.update key change))
    (hid : state.programId = key) : (stateThrough key requests state).programId = key := by
  induction requests generalizing state with
  | nil => exact hid
  | cons request rest ih =>
      obtain ⟨hupdate, hnone⟩ := List.forall_mem_cons.1 hnone
      refine ih hnone ?_
      rcases stateAfter_cases hupdate state with hsame | ⟨new, -, hnew, heq⟩
      · exact (congrArg State.programId hsame).trans hid
      · exact (congrArg State.programId heq).trans hnew

/-- What a run leaves can be read if what it found and what it stores last can. -/
theorem Stores.readable {requests : List Request} (h : Stores id seen requests answer)
    (hreadable : seen.isReadable = true) (hfinal : ∀ final, answer = some final →
      ({ seen with state := final } : Item).isReadable = true) :
    ({ seen with state := stateThrough id requests seen.state } : Item).isReadable = true := by
  cases h with
  | nothing => exact hreadable
  | @twice state final hopen hsaves =>
      have hlast : stateThrough id [.store (.save state), .store (.save final)] seen.state =
          final := stateAfter_save hsaves.last _
      rw [hlast]
      exact hfinal final rfl

namespace Overlaps

/-- What a run finds is what was stored, or that with the events of a registration that
listed it so. -/
theorem finds_cases (h : Overlaps contest store registering running merged answer after)
    (hkeyed : store.Keyed) (hintact : store.Intact id)
    (hfound : store.items.find? id = some item)
    {begun rest : Log Surroundings}
    (hrunning : running = begun ++ ⟨.store (.get id), .ok (some seen)⟩ :: rest)
    (hbegun : concerning id begun = []) :
    seen = item ∨ item.state.isDone = false ∧ seen = { item with
      state := item.state.listing (item.program.wantedIds item.state.current) } := by
  obtain ⟨early, late, past, next, hearly, hsplit, hpast, -, -, hseen⟩ :=
    h.finds hintact hfound hrunning hbegun
  obtain ⟨device, hregisters⟩ := h.registers
  obtain ⟨entries, asked, recorded, hlog, hasked, hrecorded⟩ :=
    follows_registerDevice hregisters h.registering_granted
  cases early with
  | nil => exact Or.inl hseen
  | cons entry early =>
      obtain ⟨rfl, hrest⟩ := List.cons.inj (hearly.symm.trans hlog)
      have hrest : early ++ late = asked ++ recorded := hrest
      obtain ⟨before, later, -, rfl, -, -, hregistered⟩ :=
        h.listed (fun key found hkey => (hkeyed key found hkey).1) hfound hpast hsplit
      rw [concerning_append, List.append_eq_nil_iff] at hbegun
      rw [hbegun.1] at hregistered
      have hconcerning := concerning_registering hasked hrecorded id
      rw [hregistered, ← hrest, concerning_append] at hconcerning
      rw [concerning_cons] at hseen
      cases hdone : item.state.isDone with
      | true =>
          have hnone : concerning id early ++ concerning id late = [] :=
            hconcerning.trans (congrArg (List.map recording) (if_pos hdone))
          rw [(List.append_eq_nil_iff.1 hnone).1] at hseen
          exact Or.inl hseen
      | false =>
          have hone : concerning id early ++ concerning id late =
              [recording (id, item.program.wantedIds item.state.current)] :=
            hconcerning.trans (congrArg (List.map recording)
              (if_neg (by rw [stateThrough, List.foldl_nil, hdone]; exact Bool.false_ne_true)))
          rcases List.append_eq_singleton_iff.1 hone with ⟨hnone, -⟩ | ⟨hrecorded, -⟩
          · rw [hnone] at hseen
            exact Or.inl hseen
          · rw [hrecorded] at hseen
            exact Or.inr ⟨rfl, hseen.trans (congrArg (fun state => { item with state := state })
              (stateAfter_recording id _ (hintact.state hfound)))⟩

/-- Where a registration was granted, every record could be read from the start. -/
theorem all_readable (h : Overlaps contest store registering running merged answer after)
    (hkeyed : store.Keyed) (hintact : store.Intact id)
    (hfound : store.items.find? id = some item)
    (hruns : Runs contest.runner contest.occasion id seen running answer)
    (key : String) (found : Item) (hkey : store.items.find? key = some found) :
    found.isReadable = true := by
  obtain ⟨begun, rest, hrunning, hbegun⟩ := hruns.begins
  obtain ⟨early, late, -, -, hearly, -, -, -, hreadable, hseen⟩ := h.finds hintact hfound hrunning hbegun
  obtain ⟨hprogram, hstate, hlasts⟩ := h.finds_same hintact hfound hearly hseen
  have hcurrent : (seen.state.listing []).current = (item.state.listing []).current :=
    congrArg State.current hstate
  have hid : (seen.state.listing []).programId = id :=
    (congrArg State.programId hstate).trans (hkeyed id item hfound).2
  by_cases hne : key = id
  · subst hne
    obtain rfl := Option.some.inj (hfound.symm.trans hkey)
    exact (Item.isReadable_congr hprogram hcurrent).symm.trans hreadable
  obtain ⟨device, hregisters⟩ := h.registers
  obtain ⟨entries, asked, recorded, hlog, -, -⟩ :=
    follows_registerDevice hregisters h.registering_granted
  have hinterleaved := h.interleaved
  rw [hlog] at hinterleaved
  obtain ⟨before, later, between, hparts, hmerged, -⟩ := hinterleaved.head
  have hserves := h.serves
  rw [hmerged] at hserves
  obtain ⟨middle, hbefore, hafter⟩ := serves_append.1 hserves
  obtain rfl : entries = middle.listed := Store.list_ok (serves_store.1 hafter).1
  have hlisted := h.found hmerged hbefore key
  have hbegins : ∀ entry ∈ before, entry ∈ running := fun entry hentry =>
    hparts ▸ List.mem_append_left _ hentry
  have hsame : stateThrough key (before.map (·.request)) found.state = found.state := by
    refine stateThrough_others (List.forall_mem_map.2 fun entry hentry => ?_)
      (List.forall_mem_map.2 fun entry hentry => ?_) hne _
    · exact ne_update_of_running (h.running_within entry (hbegins entry hentry))
    · exact hruns.saves_own hid entry (hbegins entry hentry)
  rw [hkey, Option.map_some, hsame] at hlisted
  exact Store.list_iff.1 ⟨_, (serves_store.1 hafter).1⟩ _ (Table.mem_of_find? hlisted)

/-- What a run by itself leaves are the records under their own ids, and all can be read. -/
theorem replayed_leaves {replayed : Log Surroundings} {last : Store}
    (h : Overlaps contest store registering running merged answer after)
    (hkeyed : store.Keyed) (hintact : store.Intact id)
    (hfound : store.items.find? id = some seen)
    (hruns : Runs contest.runner contest.occasion id seen running answer)
    (hagain : Runs contest.runner contest.occasion id seen replayed answer)
    (hgranted : Granted replayed) (hserves : Serves store replayed last) :
    last.Keyed ∧ ∀ key found, last.items.find? key = some found → found.isReadable = true := by
  have hreadable := h.all_readable hkeyed hintact hfound hruns
  have hwithin := (within_occasion _ _).follows hagain.follows
  have hlast := hserves.found (fun entry hentry =>
    keepsPrograms_of_running (hwithin entry hentry)) hgranted
  have hnone : ∀ request ∈ replayed.map (·.request), ∀ key change,
      request ≠ .store (.update key change) :=
    List.forall_mem_map.2 fun entry hentry => ne_update_of_running (hwithin entry hentry)
  constructor
  · intro key found hkey
    rw [hlast, Option.map_eq_some_iff] at hkey
    obtain ⟨other, hother, rfl⟩ := hkey
    exact ⟨(hkeyed key other hother).1, stateThrough_programId hnone (hkeyed key other hother).2⟩
  · intro key found hkey
    rw [hlast, Option.map_eq_some_iff] at hkey
    obtain ⟨other, hother, rfl⟩ := hkey
    by_cases hne : key = id
    · subst hne
      obtain rfl := Option.some.inj (hfound.symm.trans hother)
      rw [stateThrough_concerning]
      refine (hagain.stores (hkeyed key seen hfound).2 (hintact seen hfound) hgranted).readable
        (hreadable key seen hfound) ?_
      rintro final rfl
      exact h.final_readable hkeyed hintact hfound hruns
    · have hown := hagain.saves_own (hkeyed id seen hfound).2
      rw [stateThrough_others hnone (List.forall_mem_map.2 hown) hne]
      exact hreadable key other hother

/-- They can be carried out one after the other with the same answers. -/
theorem left_in_turn (h : Overlaps contest store registering running merged answer after)
    (hkeyed : store.Keyed) (hintact : store.Intact id)
    (hfound : store.items.find? id = some item)
    (hid : contest.occasion.programId? = some id) :
    ∃ left, LeftInTurn contest store id (heard running) left := by
  obtain ⟨seen, final, hruns, hprogram, hstate, hover, hanswer, -⟩ := h.leaves hkeyed hintact hfound hid
  obtain ⟨begun, rest, hrunning, hbegun⟩ := hruns.begins
  have hreadable := h.all_readable hkeyed hintact hfound hruns
  rcases h.finds_cases hkeyed hintact hfound hrunning hbegun with rfl | ⟨hopen, hlisted⟩
  · obtain ⟨replayed, last, hagain, hgranted, hheard, hserves⟩ :=
      h.replays hkeyed hintact hfound hruns rfl hfound
    obtain ⟨hkept, hall⟩ := h.replayed_leaves hkeyed hintact hfound hruns hagain hgranted hserves
    obtain ⟨registered, device, after, hregisters, hregistered, hregistering⟩ :=
      registerDevice_granted contest.registrar contest.identity hkept hall
    exact ⟨_, .runFirst hheard ⟨⟨device, hregisters⟩, hagain.follows,
      (Interleaved.inOrder _ _).symm, serves_append.2 ⟨last, hserves, hregistering⟩,
      granted_append.2 ⟨hgranted, hregistered⟩⟩⟩
  · obtain ⟨registered, device, middle, hregisters, hregistered, hregistering⟩ :=
      registerDevice_granted contest.registrar contest.identity hkeyed hreadable
    obtain ⟨hclaims, hmiddle⟩ :=
      registerDevice_leaves hregisters hregistered hregistering hkeyed hintact hfound
    rw [hopen, if_neg Bool.false_ne_true, ← hlisted] at hmiddle
    obtain ⟨replayed, last, hagain, hgranted, hheard, hserves⟩ :=
      h.replays hkeyed hintact hfound hruns hclaims hmiddle
    exact ⟨_, .registeredFirst hheard ⟨⟨device, hregisters⟩, hagain.follows,
      Interleaved.inOrder _ _, serves_append.2 ⟨middle, hregistering, hserves⟩,
      granted_append.2 ⟨hregistered, hgranted⟩⟩⟩

/-- A registration lists the programs before it records anything. -/
theorem marks_registering (h : Overlaps contest store registering running merged answer after)
    (id : String) : ∃ later, marks id registering = .listed :: later ∧
      ∀ mark ∈ later, mark = .recorded := by
  obtain ⟨device, hregisters⟩ := h.registers
  obtain ⟨entries, asked, recorded, rfl, hasked, hrecorded⟩ :=
    follows_registerDevice hregisters h.registering_granted
  refine ⟨(concerning id (asked ++ recorded)).filterMap (Request.mark? id), ?_, ?_⟩
  · rw [marks_eq, concerning_cons]
    rfl
  · rw [concerning_registering hasked hrecorded]
    intro mark hmark
    obtain ⟨request, hrequest, heq⟩ := List.mem_filterMap.1 hmark
    obtain ⟨entry, hentry, rfl⟩ := List.mem_map.1 hrequest
    obtain rfl : entry.1 = id := of_decide_eq_true (List.mem_filter.1 hentry).2
    exact (Option.some.inj ((mark?_recording entry.1 entry.2).symm.trans heq)).symm

theorem marks_running (h : Overlaps contest store registering running merged answer after)
    (id : String) : ∀ mark ∈ marks id running, mark = .stored := by
  intro mark hmark
  obtain ⟨request, hrequest, heq⟩ := List.mem_filterMap.1 hmark
  obtain ⟨entry, hentry, rfl⟩ := List.mem_map.1 hrequest
  have hrunning := h.running_within entry hentry
  have hnone := ne_update_of_running hrunning
  unfold Request.mark? at heq
  split at heq
  · rename_i hlist
    rw [hlist] at hrunning
    cases hrunning with
    | held hholding => cases hholding
    | inner hinner =>
        cases hinner with
        | remote hremote => cases hremote
  · split at heq
    · exact (Option.some.inj heq).symm
    · cases heq
  · rename_i hupdate
    exact absurd hupdate (hnone _ _)
  · cases heq

end Overlaps

/-- A run that is carried out before a registration or after it is not overtaken. -/
theorem not_overtaken (h : Overlaps contest store registering running merged answer after)
    (hturn : merged = registering ++ running ∨ merged = running ++ registering) (id : String) :
    marks id merged ≠ overtaken := by
  obtain ⟨later, hlisted, hlater⟩ := h.marks_registering id
  have hstored := h.marks_running id
  have happend (first second : Log Surroundings) :
      marks id (first ++ second) = marks id first ++ marks id second := by
    simp [marks]
  intro heq
  rcases hturn with rfl | rfl
  · rw [happend, hlisted, List.cons_append, overtaken, List.cons.injEq] at heq
    cases later with
    | nil =>
        -- all that follows would be of the run, and the last of it is recorded
        have hmem : Mark.recorded ∈ marks id running := by
          rw [show marks id running = _ from heq.2]
          simp
        cases hstored _ hmem
    | cons mark later =>
        cases (hlater mark List.mem_cons_self).symm.trans (List.cons.inj heq.2).1
  · rw [happend, hlisted, overtaken] at heq
    cases hmarks : marks id running with
    | nil =>
        rw [hmarks, List.nil_append, List.cons.injEq] at heq
        have hmem : Mark.stored ∈ later := by
          rw [heq.2]
          simp
        cases hlater _ hmem
    | cons mark rest =>
        rw [hmarks] at heq hstored
        cases (hstored mark List.mem_cons_self).symm.trans (List.cons.inj heq).1

/-- What is left when one is carried out after the other. -/
theorem left_of_turn (h : Overlaps contest store registering running merged answer after)
    (hturn : merged = registering ++ running ∨ merged = running ++ registering)
    (hkeyed : store.Keyed) (hintact : store.Intact id)
    (hfound : store.items.find? id = some item)
    (hid : contest.occasion.programId? = some id) :
    ∃ final, (item.state.isDone = true → final = item.state) ∧
      (item.state.isDone = false → answer = some final) ∧
      after.items.find? id = some { item with state := final } := by
  obtain ⟨_, final, -, -, -, hover, hanswer, hleft⟩ := h.leaves hkeyed hintact hfound hid
  rw [if_neg (not_overtaken h hturn id)] at hleft
  exact ⟨final, fun hdone => (hover hdone).1, hanswer, hleft⟩

/-- It does not matter which of the two comes first. -/
theorem LeftInTurn.eq {left : Option Item}
    (hleft : LeftInTurn contest store id (heard running) left)
    (h : Overlaps contest store registering running merged answer after)
    (hkeyed : store.Keyed) (hintact : store.Intact id)
    (hfound : store.items.find? id = some item)
    (hid : contest.occasion.programId? = some id) {final : State}
    (hover : item.state.isDone = true → final = item.state)
    (hanswer : item.state.isDone = false → answer = some final) :
    left = some { item with state := final } := by
  have hserial {registering' running' merged' : Log Surroundings} {answer' : Option State}
      {after' : Store} (hheard : heard running' = heard running)
      (h' : Overlaps contest store registering' running' merged' answer' after')
      (hturn : merged' = registering' ++ running' ∨ merged' = running' ++ registering') :
      after'.items.find? id = some { item with state := final } := by
    obtain ⟨final', hover', hanswer', hleft⟩ := left_of_turn h' hturn hkeyed hintact hfound hid
    suffices hsame : final' = final by rw [hleft, hsame]
    cases hdone : item.state.isDone with
    | true => rw [hover' hdone, hover hdone]
    | false =>
        have hdetermined := h.determined h' hkeyed hintact hfound hid hdone hheard
        rw [hanswer hdone, hanswer' hdone] at hdetermined
        exact Option.some.inj hdetermined
  cases hleft with
  | registeredFirst hheard h' => exact hserial hheard h' (Or.inl rfl)
  | runFirst hheard h' => exact hserial hheard h' (Or.inr rfl)

/-- What a registration and a run that overlap leave of a program is what they leave one
after the other just if the run was not overtaken, or waits for the same events as before. -/
theorem serial_iff_not_overtaken
    (h : Overlaps contest store registering running merged answer after)
    (hkeyed : store.Keyed) (hintact : store.Intact id)
    (hfound : store.items.find? id = some item)
    (hid : contest.occasion.programId? = some id) :
    LeftInTurn contest store id (heard running) (after.items.find? id) ↔
      (marks id merged = overtaken → ∀ state ∈ answer,
        state.pushEventIds = item.program.wantedIds item.state.current) := by
  obtain ⟨seen, final, -, -, -, hover, hanswer, hleft⟩ := h.leaves hkeyed hintact hfound hid
  have heq {left : Option Item} (hleft : LeftInTurn contest store id (heard running) left) :
      left = some { item with state := final } :=
    hleft.eq h hkeyed hintact hfound hid (fun hdone => (hover hdone).1) hanswer
  obtain ⟨left, hturn⟩ := h.left_in_turn hkeyed hintact hfound hid
  have hserial : LeftInTurn contest store id (heard running) (after.items.find? id) ↔
      after.items.find? id = some { item with state := final } := by
    refine ⟨heq, fun hsame => ?_⟩
    rw [hsame, ← heq hturn]
    exact hturn
  rw [hserial, hleft, Option.some.injEq, Item.mk.injEq]
  by_cases hmarks : marks id merged = overtaken
  · have hopen : item.state.isDone = false := by
      rw [← Bool.not_eq_true]
      exact fun hdone => (hover hdone).2 hmarks
    rw [hanswer hopen, if_pos hmarks]
    constructor
    · rintro ⟨-, hsame⟩ - state hstate
      obtain rfl := Option.some.inj hstate
      exact (congrArg State.pushEventIds hsame).symm
    · intro hwaits
      rw [← hwaits hmarks final rfl]
      exact ⟨rfl, rfl⟩
  · rw [if_neg hmarks]
    exact ⟨fun _ hovertaken => absurd hovertaken hmarks, fun _ => ⟨rfl, rfl⟩⟩

/-! ## A payment that is overtaken -/

/-- A payment. -/
def deposit : Program :=
  ⟨"deposit", .step (.broadcast ⟨"wallet", "bitcoin", [1]⟩) none, none⟩

/-- The payment has been made and is waited for. -/
def depositMade : State :=
  ⟨deposit.id, some (.await (.txConfs "tx" "wallet" 1)), ["deposit:root"], 1000, never⟩

/-- The payment is run while a registration waits for the push server. -/
def depositRun (store : Store) : Interruption Unit where
  contest := ⟨⟨"queue", 9, 300, none, 0⟩, ⟨"", []⟩, ⟨"queue", 9, 300, none, 0⟩, .asked deposit.id⟩
  host := .granting 1000
  stop request := match request with
    | .push _ => true
    | _ => false
  session := ⟨store, ()⟩

/-- A payment that is run again while it is waited for is overtaken, but waits for the same
event as before, so nothing is lost. -/
theorem deposit_kept : ∃ store item,
    store.Keyed ∧ store.Intact deposit.id ∧ store.items.find? deposit.id = some item ∧
      marks deposit.id (depositRun store).whole = overtaken ∧
      LeftInTurn (depositRun store).contest store deposit.id (heard (depositRun store).meanwhile)
        ((depositRun store).ended.state.store.items.find? deposit.id) := by
  let store : Store := storeAfter [.granted 1000 9 (.schedule deposit)] .empty
  have hkeyed : store.Keyed := keyed_of_filed (filed_storeAfter _)
  have hintact : store.Intact deposit.id := intact_storeAfter _ _
  have hstate : (store.items.find? deposit.id).map Item.state = some depositMade := by
    decide +kernel
  obtain ⟨item, hfound, hstate⟩ := Option.map_eq_some_iff.1 hstate
  have hran : (depositRun store).ran.value = .ok (some depositMade) := by
    decide +kernel
  have hended : (depositRun store).ended.value.toBool = true := by
    decide +kernel
  have hgranted : ((depositRun store).whole.all fun entry =>
      entry.request.grants entry.answer) = true := by
    decide +kernel
  have hmarks : marks deposit.id (depositRun store).whole = overtaken := by
    decide +kernel
  refine ⟨store, item, hkeyed, hintact, hfound, hmarks, ?_⟩
  refine (serial_iff_not_overtaken ((depositRun store).overlaps hran hended hgranted) hkeyed
    hintact hfound rfl).2 fun _ state hanswer => ?_
  obtain rfl := Option.some.inj hanswer
  rw [hstate]
  have hids : ((store.items.find? deposit.id).map fun item =>
      item.program.wantedIds depositMade.current) = some depositMade.pushEventIds := by
    decide +kernel
  rw [hfound] at hids
  exact (Option.some.inj hids).symm

/-- A payment that is first made while a registration waits for the push server is left
without the event that it waits for. -/
theorem deposit_forgotten : ∃ store,
    store.Keyed ∧ store.Intact deposit.id ∧ store.items.find? deposit.id = some (.fresh deposit) ∧
      Overlaps (depositRun store).contest store ((depositRun store).early ++ (depositRun store).late)
        (depositRun store).meanwhile (depositRun store).whole (some depositMade)
        (depositRun store).ended.state.store ∧
      ((depositRun store).ended.state.store.items.find? deposit.id).map Item.state =
        some (depositMade.listing []) ∧
      ¬LeftInTurn (depositRun store).contest store deposit.id
        (heard (depositRun store).meanwhile)
        ((depositRun store).ended.state.store.items.find? deposit.id) := by
  let store : Store := (Store.empty.insert deposit).2
  have hfound : store.items.find? deposit.id = some (Item.fresh deposit) := rfl
  have hkeyed : store.Keyed := by
    have hempty : Store.empty.Keyed := keyed_of_filed .empty
    rcases Store.empty.insert_cases deposit with ⟨-, -, -, hputs⟩ | ⟨-, hrefused⟩
    · exact keyed_puts hempty hputs rfl rfl
    · cases hrefused
  have hintact : store.Intact deposit.id := fun item hitem => by
    obtain rfl := Option.some.inj (hfound.symm.trans hitem)
    rfl
  have hran : (depositRun store).ran.value = .ok (some depositMade) := by
    decide +kernel
  have hended : (depositRun store).ended.value.toBool = true := by
    decide +kernel
  have hgranted : ((depositRun store).whole.all fun entry =>
      entry.request.grants entry.answer) = true := by
    decide +kernel
  have hleft : ((depositRun store).ended.state.store.items.find? deposit.id).map Item.state =
      some (depositMade.listing []) := by
    decide +kernel
  have hoverlaps := (depositRun store).overlaps hran hended hgranted
  refine ⟨store, hkeyed, hintact, hfound, hoverlaps, hleft, fun hturn => ?_⟩
  have hserial := hturn.eq hoverlaps hkeyed hintact hfound rfl nofun fun _ => rfl
  rw [hserial] at hleft
  cases hleft

end ProgramQueue.Queue
