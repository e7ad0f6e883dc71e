import ProgramQueue.Proofs.Interleavings

/-!
# Occasions on which a program is run

A stored program is run because somebody asks for it or because one of its events fired.
When nothing is refused, what is asked for shows what the program was found as, and what it
comes to is determined by that and by what the collaborators and the clocks answer.
-/

namespace ProgramQueue.Queue

open ProgramQueue.Task (Follows follows_bind follows_bindExcept follows_liftBind follows_lift
  follows_pure follows_pureExcept follows_request)

variable {α : Type} {settings : Settings} {program : Program} {log : Log Surroundings}
  {id : String} {item seen : Item}

/-- What a program is run for. -/
inductive Occasion where
  | asked (id : String)
  | fired (event : String)

namespace Occasion

/-- The operation that runs the program, with the state that it comes to if it is run. -/
def operation (settings : Settings) : Occasion → Operation (Except Error (Option State))
  | asked id => do return (← run settings id).map some
  | fired event => onTriggerFired settings event

/-- The program that is run. -/
def programId? : Occasion → Option String
  | asked id => some id
  | fired event => Push.programIdOf? event

/-- The event that fired. -/
def event? : Occasion → Option String
  | asked _ => none
  | fired event => some event

end Occasion

/-! ## What is asked for -/

/-- A program is held from here ... -/
def opening (settings : Settings) (id : String) (now : Int) : Log Surroundings :=
  [⟨.lock id, ()⟩, ⟨.wallClock, now⟩,
    ⟨.store (.tryClaim id settings.owner now settings.lockTtl), .ok true⟩]

/-- ... to here. -/
def closing (settings : Settings) (id : String) : Log Surroundings :=
  [⟨.store (.release id settings.owner), ()⟩, ⟨.unlock id, ()⟩]

/-- Where the claim is granted, a task is carried out while the program is held. -/
theorem follows_holding {task : Operation (Except Error α)} {result : Except Error α}
    (h : (holding settings id task).Follows log result) (hgranted : Granted log) :
    ∃ now held, log = opening settings id now ++ (held ++ closing settings id) ∧
      task.Follows held result := by
  obtain ⟨_, _, _, rfl, hlock, hdated⟩ := follows_bind.1 h
  obtain rfl := follows_request.1 hlock
  obtain ⟨_, now, _, rfl, hnow, hclaimed⟩ := follows_bind.1 hdated
  obtain rfl := follows_request.1 hnow
  obtain ⟨_, claimed, _, rfl, hclaim, hrest⟩ := follows_bind.1 hclaimed
  obtain rfl := follows_request.1 hclaim
  have hgrants := hgranted ⟨.store (.tryClaim id settings.owner now settings.lockTtl), claimed⟩
    (by simp)
  match claimed with
  | .ok true =>
      obtain ⟨held, value, _, rfl, htask, hclose⟩ := follows_bind.1 hrest
      obtain ⟨_, _, _, rfl, hrelease, hlast⟩ := follows_bind.1 hclose
      obtain rfl := follows_request.1 hrelease
      obtain ⟨_, _, _, rfl, hunlock, hdone⟩ := follows_bind.1 hlast
      obtain rfl := follows_request.1 hunlock
      obtain ⟨rfl, rfl⟩ := follows_pure.1 hdone
      exact ⟨now, held, by simp [opening, closing], htask⟩
  | .ok false => cases hgrants
  | .error e => cases hgrants

/-- What a run does with a program that it found: nothing if it is over; else it is driven,
stored, settled and stored again. -/
inductive Works (settings : Settings) (id : String) (fired : Option String) (seen : Item) :
    Log Surroundings → State → Prop
  | closed (hdone : seen.state.isDone = true) : Works settings id fired seen [] seen.state
  | ran {state final : State} {driving settling : Log Surroundings}
      (hopen : seen.state.isDone = false) (hdrives : Drives settings id fired seen driving state)
      (hsettles : Settles settings seen.program state settling final) :
      Works settings id fired seen (driving ++ ⟨.store (.save state), .ok ()⟩ ::
        (settling ++ [⟨.store (.save final), .ok ()⟩])) final

theorem follows_save {state : State} {result : Except Error Unit}
    (h : (save state).run.Follows log result) (hgranted : Granted log) :
    log = [⟨.store (.save state), .ok ()⟩] ∧ result = .ok () := by
  have h : (store (.save state)).Follows log result := h
  obtain rfl := follows_request.1 h
  match result with
  | .ok () => exact ⟨rfl, rfl⟩
  | .error e => cases hgranted _ List.mem_cons_self

/-- Where storing is granted, what comes after it is carried out. -/
theorem follows_saveBind {state : State} {next : Unit → Attempt α} {result : Except Error α}
    (h : (save state >>= next).run.Follows log result) (hgranted : Granted log) :
    ∃ later, log = ⟨.store (.save state), .ok ()⟩ :: later ∧
      (next ()).run.Follows later result := by
  obtain ⟨e, rfl, hsave⟩ | ⟨_, _, later, rfl, hsave, hlater⟩ := follows_bindExcept.1 h
  · cases (follows_save hsave hgranted).2
  · obtain ⟨rfl, -⟩ := follows_save hsave (granted_append.1 hgranted).1
    exact ⟨later, rfl, hlater⟩

/-- Settling a program and storing it. -/
theorem follows_settled {state : State} {result : Except Error State}
    (h : (do
      let final ←
        if state.isDone then ExceptT.lift (finish program state)
        else registerTriggers settings program state
      save final
      return final : Attempt State).run.Follows log result) (hgranted : Granted log) :
    ∃ settling final, log = settling ++ [⟨.store (.save final), .ok ()⟩] ∧ result = .ok final ∧
      Settles settings program state settling final := by
  have hstored {settling saving : Log Surroundings} {final : State}
      (hsettles : Settles settings program state settling final)
      (hgranted : Granted (settling ++ saving))
      (h : (do save final; return final : Attempt State).run.Follows saving result) :
      ∃ settled final, settling ++ saving = settled ++ [⟨.store (.save final), .ok ()⟩] ∧
        result = .ok final ∧ Settles settings program state settled final := by
    obtain ⟨_, rfl, hdone⟩ := follows_saveBind h (granted_append.1 hgranted).2
    obtain ⟨rfl, rfl⟩ := follows_pureExcept.1 hdone
    exact ⟨settling, final, rfl, rfl, hsettles⟩
  cases hdone : state.isDone with
  | true =>
      simp only [hdone, if_true] at h
      obtain ⟨settling, final, saving, rfl, hfinish, hsave⟩ := follows_liftBind.1 h
      have hcompletes := completes_of_remote (remote_finish _ _) hfinish .empty
      exact hstored (finish_settles hdone hcompletes).2 hgranted hsave
  | false =>
      simp only [hdone, Bool.false_eq_true, if_false] at h
      have hsettles {log : Log Surroundings} {result : Except Error State}
          (h : (registerTriggers settings program state).run.Follows log result) :=
        registerTriggers_settles hdone
          (completes_of_remote (remote_registerTriggers _ _ _) h .empty)
      obtain ⟨e, rfl, herror⟩ | ⟨settling, _, saving, rfl, hregister, hsave⟩ :=
        follows_bindExcept.1 h
      · obtain ⟨-, final, heq, -⟩ := hsettles herror
        cases heq
      · obtain ⟨-, final, heq, hfinal⟩ := hsettles hregister
        cases heq
        exact hstored hfinal hgranted hsave

theorem follows_getExisting {next : Item → Attempt α} {result : Except Error α}
    (h : (getExisting id >>= next).run.Follows log result) (hgranted : Granted log)
    (hthere : ⟨.store (.get id), .ok none⟩ ∉ log) :
    ∃ seen later, log = ⟨.store (.get id), .ok (some seen)⟩ :: later ∧
      (next seen).run.Follows later result := by
  have hfound {first : Log Surroundings} {found : Except Error Item}
      (h : (getExisting id).run.Follows first found) (hgranted : Granted first)
      (hthere : ⟨.store (.get id), .ok none⟩ ∉ first) :
      ∃ seen, first = [⟨.store (.get id), .ok (some seen)⟩] ∧ found = .ok seen := by
    have hstore {first : Log Surroundings} {answer : Except Error (Option Item)}
        (h : (attempt (store (.get id))).run.Follows first answer) :
        first = [⟨.store (.get id), answer⟩] := follows_request.1 h
    obtain ⟨e, rfl, herror⟩ | ⟨_, answer, _, rfl, hanswer, hrest⟩ := follows_bindExcept.1 h
    · obtain rfl := hstore herror
      cases hgranted _ List.mem_cons_self
    · obtain rfl := hstore hanswer
      cases answer with
      | none => exact absurd List.mem_cons_self hthere
      | some seen =>
          obtain ⟨rfl, rfl⟩ := follows_pureExcept.1 hrest
          exact ⟨seen, rfl, rfl⟩
  obtain ⟨e, rfl, herror⟩ | ⟨_, seen, later, rfl, hget, hnext⟩ := follows_bindExcept.1 h
  · obtain ⟨_, -, heq⟩ := hfound herror hgranted hthere
    cases heq
  · obtain ⟨_, rfl, heq⟩ := hfound hget (granted_append.1 hgranted).1
      fun hmem => hthere (List.mem_append_left _ hmem)
    cases heq
    exact ⟨seen, later, rfl, hnext⟩

/-- A run of a program that is there comes to a state. -/
theorem follows_runHeld {fired : Option String} {result : Except Error State}
    (h : (runHeld settings id fired).run.Follows log result) (hgranted : Granted log)
    (hthere : ⟨.store (.get id), .ok none⟩ ∉ log) :
    ∃ seen work final, log = ⟨.store (.get id), .ok (some seen)⟩ :: work ∧
      result = .ok final ∧ Works settings id fired seen work final := by
  obtain ⟨seen, work, rfl, hwork⟩ := follows_getExisting h hgranted hthere
  refine ⟨seen, work, ?_⟩
  cases hopen : seen.state.isDone with
  | true =>
      rw [if_pos hopen] at hwork
      obtain ⟨rfl, rfl⟩ := follows_pureExcept.1 hwork
      exact ⟨_, rfl, rfl, .closed hopen⟩
  | false =>
      rw [if_neg (by rw [hopen]; exact Bool.false_ne_true)] at hwork
      obtain ⟨_, _, _, rfl, hnote, hdrive⟩ := follows_liftBind.1 hwork
      obtain rfl := follows_request.1 hnote
      obtain ⟨outer, driven, _, rfl, hdriven, hclock⟩ := follows_liftBind.1 hdrive
      obtain ⟨-, inner, hkept, hfollows⟩ :=
        completes_journaled (completes_of_remote (remote_journaled _) hdriven .empty)
      obtain ⟨_, now, _, rfl, hnow, hstore⟩ := follows_liftBind.1 hclock
      obtain ⟨rfl, -⟩ := completes_clock (completes_of_remote (remote_outside _) hnow .empty)
      simp only [granted_cons, granted_append] at hgranted
      obtain ⟨later, rfl, hsettle⟩ := follows_saveBind hstore hgranted.2.2.2.2
      obtain ⟨settling, final, rfl, rfl, hsettles⟩ :=
        follows_settled hsettle (granted_cons.1 hgranted.2.2.2.2).2
      have hdrives : Drives settings id fired seen _ { driven with lastRun := now } :=
        .intro hkept hfollows
      have hworks := Works.ran hopen hdrives hsettles
      exact ⟨final, rfl, rfl, by simpa using hworks⟩

/-- A program that is run for an event is looked at before it is held. -/
inductive Looks (id : String) : Occasion → Log Surroundings → Prop
  | asked : Looks id (.asked id) []
  | fired {event : String} {found : Item} (hevent : Push.programIdOf? event = some id)
      (hopen : found.state.isDone = false) :
      Looks id (.fired event) [⟨.store (.get id), .ok (some found)⟩]

/-- A program that was looked at and is not over is held and run. -/
theorem Occasion.follows_held {occasion : Occasion} {look core : Log Surroundings}
    {final : State} (hlook : Looks id occasion look)
    (hcore : (holding settings id (runHeld settings id occasion.event?).run).Follows core
      (.ok final)) :
    (occasion.operation settings).Follows (look ++ core) (.ok (some final)) := by
  cases hlook with
  | asked => exact follows_bind.2 ⟨core, _, [], by simp, hcore, .done _⟩
  | @fired event found hevent hopen =>
      rw [operation, onTriggerFired]
      simp only [hevent]
      refine follows_bind.2 ⟨_, .ok (some found), core, rfl, follows_request.2 rfl, ?_⟩
      dsimp only
      rw [if_neg (by rw [hopen]; exact Bool.false_ne_true)]
      exact follows_bind.2 ⟨core, _, [], by simp, hcore, .done _⟩

/-- Nothing more happens for an event of a program that is over. -/
theorem Occasion.follows_over {event : String} {found : Item}
    (hevent : Push.programIdOf? event = some id) (hdone : found.state.isDone = true) :
    ((fired event).operation settings).Follows [⟨.store (.get id), .ok (some found)⟩]
      (.ok none) := by
  rw [operation, onTriggerFired]
  simp only [hevent]
  refine follows_bind.2 ⟨_, .ok (some found), [], by simp, follows_request.2 rfl, ?_⟩
  dsimp only
  rw [if_pos hdone]
  exact .done _

/-- A program that is there is over when an event of it fires, or it is held and run. -/
theorem Occasion.follows_cases {occasion : Occasion} {answer : Option State}
    (hid : occasion.programId? = some id)
    (h : (occasion.operation settings).Follows log (.ok answer)) (hgranted : Granted log)
    (hthere : ⟨.store (.get id), .ok none⟩ ∉ log) :
    (∃ event found, occasion = .fired event ∧ Push.programIdOf? event = some id ∧
        log = [⟨.store (.get id), .ok (some found)⟩] ∧ found.state.isDone = true ∧
        answer = none) ∨
      ∃ look core final, log = look ++ core ∧ answer = some final ∧ Looks id occasion look ∧
        (holding settings id (runHeld settings id occasion.event?).run).Follows core
          (.ok final) := by
  cases occasion with
  | asked other =>
      obtain rfl := Option.some.inj hid
      obtain ⟨core, result, _, rfl, hcore, hdone⟩ := follows_bind.1 h
      obtain ⟨rfl, heq⟩ := follows_pure.1 hdone
      rw [List.append_nil]
      cases result with
      | error e => cases heq
      | ok final =>
          obtain rfl := Except.ok.inj heq
          exact Or.inr ⟨[], core, final, rfl, rfl, .asked, hcore⟩
  | fired event =>
      have hevent : Push.programIdOf? event = some id := hid
      rw [operation, onTriggerFired] at h
      simp only [hevent] at h
      obtain ⟨_, found, core, rfl, hfound, hrest⟩ := follows_bind.1 h
      obtain rfl := follows_request.1 hfound
      match found with
      | .error e => cases hgranted _ List.mem_cons_self
      | .ok none => exact absurd List.mem_cons_self hthere
      | .ok (some found) =>
          dsimp only at hrest
          cases hopen : found.state.isDone with
          | true =>
              rw [if_pos hopen] at hrest
              obtain ⟨rfl, heq⟩ := follows_pure.1 hrest
              exact Or.inl ⟨event, found, rfl, hevent, rfl, hopen, Except.ok.inj heq⟩
          | false =>
              rw [if_neg (by rw [hopen]; exact Bool.false_ne_true)] at hrest
              obtain ⟨core, result, _, rfl, hcore, hdone⟩ := follows_bind.1 hrest
              simp only [granted_append, List.mem_append, not_or] at hgranted hthere
              obtain ⟨now, held, rfl, hheld⟩ := follows_holding hcore hgranted.2.1
              simp only [granted_append, List.mem_append, not_or] at hgranted hthere
              obtain ⟨_, _, final, -, rfl, -⟩ :=
                follows_runHeld hheld hgranted.2.1.2.1 hthere.2.1.2.1
              obtain ⟨rfl, heq⟩ := follows_pure.1 hdone
              rw [List.append_nil]
              exact Or.inr ⟨_, _, final, rfl, Except.ok.inj heq, .fired hevent hopen, hcore⟩

/-- What is asked for on an occasion to run a program that is there. -/
inductive Runs (settings : Settings) (occasion : Occasion) (id : String) (seen : Item) :
    Log Surroundings → Option State → Prop
  | noticed {event : String} (hoccasion : occasion = .fired event)
      (hevent : Push.programIdOf? event = some id) (hdone : seen.state.isDone = true) :
      Runs settings occasion id seen [⟨.store (.get id), .ok (some seen)⟩] none
  | held {look work : Log Surroundings} {now : Int} {final : State} (hlook : Looks id occasion look)
      (hheld : (holding settings id (runHeld settings id occasion.event?).run).Follows
        (opening settings id now ++ ⟨.store (.get id), .ok (some seen)⟩ ::
          (work ++ closing settings id)) (.ok final))
      (hworks : Works settings id occasion.event? seen work final) :
      Runs settings occasion id seen (look ++ (opening settings id now ++
        ⟨.store (.get id), .ok (some seen)⟩ :: (work ++ closing settings id))) (some final)

theorem Occasion.runs {occasion : Occasion} {answer : Option State}
    (hid : occasion.programId? = some id)
    (h : (occasion.operation settings).Follows log (.ok answer)) (hgranted : Granted log)
    (hthere : ⟨.store (.get id), .ok none⟩ ∉ log) :
    ∃ seen, Runs settings occasion id seen log answer := by
  obtain ⟨event, seen, heq, hevent, rfl, hdone, rfl⟩ |
      ⟨look, core, final, rfl, rfl, hlook, hheld⟩ :=
    Occasion.follows_cases hid h hgranted hthere
  · exact ⟨seen, .noticed heq hevent hdone⟩
  · simp only [granted_append, List.mem_append, not_or] at hgranted hthere
    obtain ⟨now, _, rfl, htask⟩ := follows_holding hheld hgranted.2
    simp only [granted_append, List.mem_append, not_or] at hgranted hthere
    obtain ⟨seen, work, _, rfl, heq, hworks⟩ :=
      follows_runHeld htask hgranted.2.2.1 hthere.2.2.1
    cases heq
    exact ⟨seen, .held hlook hheld hworks⟩

/-! ## What it comes to -/

/-- A request that a collaborator or a clock answers. -/
def Request.isHeard : Request → Bool
  | .outside _ => true
  | .wallClock => true
  | _ => false

/-- What the collaborators and the clocks answered. -/
def heard (log : Log Surroundings) : Log Surroundings := log.filter (·.request.isHeard)

@[simp]
theorem heard_append (first later : Log Surroundings) :
    heard (first ++ later) = heard first ++ heard later := List.filter_append ..

/-- The same answers of the collaborators lead a task with a journal to the same value. -/
theorem kept_determined {task : Task Journaled α} {inner inner' : Log Journaled}
    {outer outer' rest rest' : Log Surroundings} {value value' : α} (hkept : Kept inner outer)
    (hkept' : Kept inner' outer') (h : task.Follows inner value) (h' : task.Follows inner' value')
    (hheard : heard outer ++ rest = heard outer' ++ rest') : value = value' ∧ rest = rest' := by
  induction h generalizing inner' outer outer' with
  | done value =>
      obtain ⟨rfl, rfl⟩ := Task.follows_done.1 h'
      cases hkept
      cases hkept'
      exact ⟨rfl, hheard⟩
  | @ask request next answer inner value hrest ih =>
      obtain ⟨answer', inner', rfl, hrest'⟩ := Task.follows_ask.1 h'
      cases request with
      | note entry =>
          cases hkept with
          | cons hkept =>
              cases hkept' with
              | cons hkept' => exact ih hkept hkept' hrest' hheard
      | ask query =>
          cases hkept with
          | cons hkept =>
              cases hkept' with
              | cons hkept' =>
                  obtain ⟨heq, hlater⟩ := List.cons.inj hheard
                  cases heq
                  exact ih hkept hkept' hrest' hlater

/-- A program is driven in the same way whatever events are listed. -/
theorem follows_drive_listing {inlineCap budget : Nat} {state final : State} {log : Log Journaled}
    (ids : List String) (h : (program.driveJournaled inlineCap budget state).Follows log final) :
    (program.driveJournaled inlineCap budget (state.listing ids)).Follows log
      (final.listing ids) := by
  induction budget generalizing state log with
  | zero =>
      obtain ⟨rfl, rfl⟩ := follows_pure.1 h
      exact .done _
  | succ budget ih =>
      unfold Program.driveJournaled at h ⊢
      have hdone : (state.listing ids).isDone = state.isDone := rfl
      rw [hdone]
      split at h
      · rename_i hover
        obtain ⟨rfl, rfl⟩ := follows_pure.1 h
        rw [if_pos hover]
        exact .done _
      · rename_i hopen
        rw [if_neg hopen]
        obtain ⟨first, next, later, rfl, hfirst, hlater⟩ := follows_bind.1 h
        refine follows_bind.2 ⟨first, next, later, rfl, hfirst, ?_⟩
        have hcurrent : (state.listing ids).current = state.current := rfl
        rw [hcurrent]
        dsimp only at hlater ⊢
        split at hlater
        · rename_i hsame
          obtain ⟨rfl, rfl⟩ := follows_pure.1 hlater
          rw [if_pos hsame]
          exact .done _
        · rename_i hchanged
          rw [if_neg hchanged]
          exact ih hlater

variable {fired : Option String} {state state' final final' : State}
  {driving driving' settling settling' work work' rest rest' : Log Surroundings} {other : Item}

theorem spendEvent_listing (fired : Option String) (state : State) :
    (spendEvent fired state).listing [] = state.listing [] := by
  cases fired <;> rfl

theorem Drives.determined (h : Drives settings id fired seen driving state)
    (h' : Drives settings id fired other driving' state') (hprogram : other.program = seen.program)
    (hstate : other.state.listing [] = seen.state.listing [])
    (hheard : heard driving ++ rest = heard driving' ++ rest') :
    state'.listing [] = state.listing [] ∧ rest = rest' := by
  obtain @⟨inner, outer, driven, now, hkept, hdrives⟩ := h
  obtain @⟨inner', outer', driven', now', hkept', hdrives'⟩ := h'
  have hdrives := follows_drive_listing [] hdrives
  have hdrives' := follows_drive_listing [] hdrives'
  rw [spendEvent_listing] at hdrives hdrives'
  rw [hprogram, hstate] at hdrives'
  have hheard : heard outer ++ (⟨.outside .clock, now⟩ :: rest) =
      heard outer' ++ (⟨.outside .clock, now'⟩ :: rest') := by
    simpa [heard, Request.isHeard] using hheard
  obtain ⟨hdriven, hrest⟩ := kept_determined hkept hkept' hdrives hdrives' hheard
  obtain ⟨hnow, rfl⟩ := List.cons.inj hrest
  cases hnow
  refine ⟨?_, rfl⟩
  exact congrArg (fun state : State => { state with lastRun := now }) hdriven.symm

theorem Drives.remote (h : Drives settings id fired seen driving state) :
    ∀ entry ∈ driving, entry.request.IsRemote := by
  cases h with
  | intro hkept =>
      refine List.forall_mem_cons.2 ⟨.note _, List.forall_mem_append.2 ⟨fun entry hentry => ?_, ?_⟩⟩
      · obtain ⟨note, -, heq⟩ | ⟨query, heq⟩ := mem_kept hkept hentry
        · exact heq ▸ .note note
        · exact heq ▸ .outside query
      · exact List.forall_mem_singleton.2 (.outside _)

theorem remote_asked {lookups : Log Outside} {asked : Log Surroundings}
    (h : Asked lookups asked) : ∀ entry ∈ asked, entry.request.IsRemote := fun entry hentry => by
  obtain ⟨own, -, rfl⟩ := mem_asked h hentry
  exact .outside _

theorem remote_push (request : Push.Request) (answer : request.Answer) :
    ∀ entry ∈ ([⟨.push request, answer⟩] : Log Surroundings), entry.request.IsRemote :=
  List.forall_mem_singleton.2 (.push request)

theorem Retires.remote {ids : List String} (h : Retires ids log) :
    ∀ entry ∈ log, entry.request.IsRemote := by
  cases h with
  | nothing => exact List.forall_mem_nil _
  | withdrawn => exact remote_push _ _

theorem Settles.remote (h : Settles settings program state settling final) :
    ∀ entry ∈ settling, entry.request.IsRemote := by
  cases h with
  | finished _ hretires htoasted =>
      refine List.forall_mem_append.2 ⟨hretires.remote, fun entry hentry => ?_⟩
      obtain ⟨message, heq⟩ := htoasted entry hentry
      exact heq ▸ .outside _
  | missed _ hasked => exact List.forall_mem_cons.2 ⟨.outside _, remote_asked hasked⟩
  | refused _ hasked =>
      exact List.forall_mem_cons.2 ⟨.outside _,
        List.forall_mem_append.2 ⟨remote_asked hasked, remote_push _ _⟩⟩
  | registered _ hasked _ _ htold =>
      refine List.forall_mem_cons.2 ⟨.outside _, List.forall_mem_append.2 ⟨remote_asked hasked, ?_⟩⟩
      rw [htold]
      split
      · exact List.forall_mem_nil _
      · exact remote_push _ _

/-- A lookup that failed was not granted. -/
theorem not_missed {lookups : Log Outside} {asked : Log Surroundings} {e : CollaboratorError}
    (hasked : Asked lookups asked) (hgranted : Granted asked) : ¬Push.Missed lookups e := by
  rintro ⟨found, wallet, -, rfl⟩
  obtain ⟨given, hmem, rfl⟩ := hasked.mem (List.mem_append_right found List.mem_cons_self)
  cases hgranted _ hmem

/-- Where all is granted, a program that is not over is registered with the push server. -/
theorem Settles.granted (h : Settles settings program state settling final)
    (hgranted : Granted settling) :
    (state.isDone = true ∧ final = { state with nextRun := never, pushEventIds := [] }) ∨
      ∃ now later, state.isDone = false ∧ heard settling = ⟨.outside .clock, now⟩ :: later ∧
        final = { state with
          pushEventIds := program.wantedIds state.current
          nextRun := nextRunTime now (program.plannedResults state.current) } := by
  cases h with
  | finished hdone => exact Or.inl ⟨hdone, rfl⟩
  | missed hopen hasked hmissed =>
      exact absurd hmissed (not_missed hasked (granted_cons.1 hgranted).2)
  | refused hopen hasked hfound hprepared hupdate =>
      simp only [granted_cons, granted_append] at hgranted
      cases hgranted.2.2.1
  | registered hopen hasked hfound hprepared htold => exact Or.inr ⟨_, _, hopen, rfl, rfl⟩

/-- What was found of a program, up to the events that were listed, and what was answered
determine what a run of it comes to. -/
theorem Works.determined (h : Works settings id fired seen work final)
    (h' : Works settings id fired other work' final') (hprogram : other.program = seen.program)
    (hstate : other.state.listing [] = seen.state.listing []) (hopen : seen.state.isDone = false)
    (hgranted : Granted work) (hgranted' : Granted work') (hheard : heard work = heard work') :
    final' = final := by
  have hopen' : (other.state.listing []).isDone = false :=
    (congrArg State.isDone hstate).trans hopen
  cases h with
  | closed hdone => cases hdone.symm.trans hopen
  | @ran state _ driving settling _ hdrives hsettles =>
      cases h' with
      | closed hdone => cases hdone.symm.trans hopen'
      | @ran state' _ driving' settling' _ hdrives' hsettles' =>
          simp only [granted_append, granted_cons] at hgranted hgranted'
          have hparts : heard driving ++ heard settling = heard driving' ++ heard settling' := by
            simpa [heard, Request.isHeard] using hheard
          obtain ⟨hsame, hsettled⟩ := hdrives.determined hdrives' hprogram hstate hparts
          have hcurrent : (state'.listing []).current = (state.listing []).current :=
            congrArg State.current hsame
          have hcurrent : state'.current = state.current := hcurrent
          have hdone : state'.isDone = state.isDone := congrArg Effect.isDone hcurrent
          obtain ⟨hover, rfl⟩ | ⟨now, later, hgoes, hclock, rfl⟩ :=
            hsettles.granted hgranted.2.2.1
          all_goals obtain ⟨hover', rfl⟩ | ⟨now', later', hgoes', hclock', rfl⟩ :=
            hsettles'.granted hgranted'.2.2.1
          · exact congrArg (fun state : State => { state with nextRun := never }) hsame
          · cases (hgoes'.symm.trans hdone).trans hover
          · cases (hover'.symm.trans hdone).trans hgoes
          · rw [hclock, hclock'] at hsettled
            obtain ⟨hnow, -⟩ := List.cons.inj hsettled
            cases hnow
            rw [hprogram, hcurrent]
            exact congrArg (fun other : State => { other with
              pushEventIds := seen.program.wantedIds state.current
              nextRun := nextRunTime now (seen.program.plannedResults state.current) }) hsame

theorem Runs.determined {occasion : Occasion} {log' : Log Surroundings}
    {answer answer' : Option State} (h : Runs settings occasion id seen log answer)
    (h' : Runs settings occasion id other log' answer') (hprogram : other.program = seen.program)
    (hstate : other.state.listing [] = seen.state.listing []) (hopen : seen.state.isDone = false)
    (hgranted : Granted log) (hgranted' : Granted log') (hheard : heard log' = heard log) :
    answer' = answer := by
  have hopen' : (other.state.listing []).isDone = false :=
    (congrArg State.isDone hstate).trans hopen
  have hlook {look : Log Surroundings} (h : Looks id occasion look) : heard look = [] := by
    cases h <;> rfl
  cases h with
  | noticed _ _ hdone => cases hdone.symm.trans hopen
  | @held look work now final hlooks _ hworks =>
      cases h' with
      | noticed _ _ hdone => cases hdone.symm.trans hopen'
      | @held look' work' now' final' hlooks' _ hworks' =>
          have hclosing : heard (closing settings id) = [] := rfl
          have hopening (now : Int) : heard (opening settings id now) = [⟨.wallClock, now⟩] := rfl
          have hget (seen : Item) (rest : Log Surroundings) :
              heard (⟨.store (.get id), .ok (some seen)⟩ :: rest) = heard rest := rfl
          simp only [heard_append, hlook hlooks, hlook hlooks', hopening, hget, hclosing,
            List.nil_append, List.append_nil, List.cons_append, List.cons.injEq] at hheard
          simp only [granted_append, granted_cons] at hgranted hgranted'
          exact congrArg some (hworks.determined hworks' hprogram hstate hopen
            hgranted.2.2.2.1 hgranted'.2.2.2.1 hheard.2.symm)

end ProgramQueue.Queue
