import ProgramQueue.Proofs.Journals
import ProgramQueue.Queue
import ProgramQueue.Queue.Session

/-!
# Operations and the store

An operation completes with a log if it follows the log and the store answers its own
requests in it.  All other answers are free.  So what holds whenever an operation
completes holds whatever the collaborators, the push server and the clocks answer.
-/

namespace ProgramQueue.Queue

open ProgramQueue.Task (Follows Relayed follows_done follows_ask follows_pure follows_bind
  follows_bindExcept follows_pureExcept follows_throw follows_lift follows_request
  follows_relay follows_run)

/-- The store answers its own requests of a log, one after the other. -/
inductive Serves : Store → Log Surroundings → Store → Prop
  | nil (store : Store) : Serves store [] store
  | store {before after : Store} {request : Store.Request} {log : Log Surroundings}
      (rest : Serves (Store.respond request before).2 log after) :
      Serves before (⟨.store request, (Store.respond request before).1⟩ :: log) after
  | other {before after : Store} {request : Request} {answer : request.Answer}
      {log : Log Surroundings} (hother : ∀ own, request ≠ .store own)
      (rest : Serves before log after) : Serves before (⟨request, answer⟩ :: log) after

@[simp]
theorem serves_nil {before after : Store} : Serves before [] after ↔ after = before := by
  constructor
  · intro h
    cases h
    rfl
  · rintro rfl
    exact .nil _

theorem serves_append {before after : Store} {first later : Log Surroundings} :
    Serves before (first ++ later) after ↔
      ∃ middle, Serves before first middle ∧ Serves middle later after := by
  constructor
  · intro h
    induction first generalizing before with
    | nil => exact ⟨before, .nil _, h⟩
    | cons entry first ih =>
        cases h with
        | store rest =>
            obtain ⟨middle, hfirst, hlater⟩ := ih rest
            exact ⟨middle, .store hfirst, hlater⟩
        | other hother rest =>
            obtain ⟨middle, hfirst, hlater⟩ := ih rest
            exact ⟨middle, .other hother hfirst, hlater⟩
  · rintro ⟨middle, hfirst, hlater⟩
    induction hfirst with
    | nil => exact hlater
    | store _ ih => exact .store (ih hlater)
    | other hother _ ih => exact .other hother (ih hlater)

/-- Requests to others leave the store as it is. -/
theorem serves_others {before after : Store} {log : Log Surroundings}
    (hothers : ∀ entry ∈ log, ∀ own, entry.request ≠ .store own) :
    Serves before log after ↔ after = before := by
  induction log with
  | nil => exact serves_nil
  | cons entry log ih =>
      have hrest := ih fun other hother => hothers other (List.mem_cons_of_mem _ hother)
      constructor
      · intro h
        cases h with
        | store => exact absurd rfl (hothers _ List.mem_cons_self _)
        | other _ rest => exact hrest.1 rest
      · intro h
        exact .other (hothers _ List.mem_cons_self) (hrest.2 h)

/-- A host leaves the requests to the store to the store. -/
theorem serves_respond {σ : Type} (host : Host σ) (request : Request) (session : Session σ)
    {log : Log Surroundings} {after : Store}
    (rest : Serves (host.respond request session).2.store log after) :
    Serves session.store (⟨request, (host.respond request session).1⟩ :: log) after := by
  cases request with
  | store request => exact .store rest
  | outside query => exact .other nofun rest
  | push request => exact .other nofun rest
  | wallClock => exact .other nofun rest
  | lock id => exact .other nofun rest
  | unlock id => exact .other nofun rest
  | note entry => exact .other nofun rest

theorem serves_log {σ α : Type} (host : Host σ) (operation : Operation α)
    (session : Session σ) :
    Serves session.store (operation.log host.world session)
      (operation.run host.world session).state.store := by
  induction operation generalizing session with
  | done value => exact .nil _
  | ask request next ih =>
      exact serves_respond host request session
        (ih (host.respond request session).1 (host.respond request session).2)

/-- An operation can complete with a log and a value, and take the store from one state
to another. -/
structure Completes {α : Type} (operation : Operation α) (before : Store)
    (log : Log Surroundings) (value : α) (after : Store) : Prop where
  follows : operation.Follows log value
  serves : Serves before log after

variable {α β : Type} {before after : Store} {log : Log Surroundings}

theorem completes_run {σ : Type} (host : Host σ) (operation : Operation α)
    (session : Session σ) :
    Completes operation session.store (operation.log host.world session)
      (operation.run host.world session).value
      (operation.run host.world session).state.store :=
  ⟨follows_run _ _ _, serves_log _ _ _⟩

theorem completes_pure {value result : α} :
    Completes (pure value) before log result after ↔
      log = [] ∧ result = value ∧ after = before := by
  constructor
  · rintro ⟨hfollows, hserves⟩
    obtain ⟨rfl, rfl⟩ := follows_pure.1 hfollows
    exact ⟨rfl, rfl, serves_nil.1 hserves⟩
  · rintro ⟨rfl, rfl, rfl⟩
    exact ⟨.done _, .nil _⟩

/-- An operation in two parts completes if its parts do, one after the other. -/
theorem completes_bind {operation : Operation α} {next : α → Operation β} {result : β} :
    Completes (operation >>= next) before log result after ↔
      ∃ first value middle later, log = first ++ later ∧
        Completes operation before first value middle ∧
        Completes (next value) middle later result after := by
  constructor
  · rintro ⟨hfollows, hserves⟩
    obtain ⟨first, value, later, rfl, hfirst, hlater⟩ := follows_bind.1 hfollows
    obtain ⟨middle, hbefore, hafter⟩ := serves_append.1 hserves
    exact ⟨first, value, middle, later, rfl, ⟨hfirst, hbefore⟩, ⟨hlater, hafter⟩⟩
  · rintro ⟨first, value, middle, later, rfl, hfirst, hlater⟩
    exact ⟨follows_bind.2 ⟨_, _, _, rfl, hfirst.follows, hlater.follows⟩,
      serves_append.2 ⟨_, hfirst.serves, hlater.serves⟩⟩

theorem completes_store {request : Store.Request} {answer : request.Answer} :
    Completes (store request) before log answer after ↔
      log = [⟨.store request, answer⟩] ∧ Store.respond request before = (answer, after) := by
  constructor
  · rintro ⟨hfollows, hserves⟩
    obtain rfl := follows_request.1 hfollows
    cases hserves with
    | store rest => exact ⟨rfl, by rw [serves_nil.1 rest]⟩
    | other hother => exact absurd rfl (hother _)
  · rintro ⟨rfl, heq⟩
    refine ⟨follows_request.2 rfl, ?_⟩
    have hserves : Serves before [⟨.store request, (Store.respond request before).1⟩] _ :=
      .store (.nil _)
    rwa [heq] at hserves

/-- Any other request may be answered in any way. -/
theorem completes_request {request : Request} {answer : request.Answer}
    (hother : ∀ own, request ≠ .store own) :
    Completes (Task.request (I := Surroundings) request) before log answer after ↔
      log = [⟨request, answer⟩] ∧ after = before := by
  constructor
  · rintro ⟨hfollows, hserves⟩
    obtain rfl := follows_request.1 hfollows
    cases hserves with
    | store => exact absurd rfl (hother _)
    | other _ rest => exact ⟨rfl, serves_nil.1 rest⟩
  · rintro ⟨rfl, rfl⟩
    exact ⟨follows_request.2 rfl, .other hother (.nil _)⟩

theorem completes_push {request : Push.Request} {answer : request.Answer} :
    Completes (push request) before log answer after ↔
      log = [⟨.push request, answer⟩] ∧ after = before :=
  completes_request nofun

theorem completes_note {entry : Note} {answer : Unit} :
    Completes (note entry) before log answer after ↔
      log = [⟨.note entry, ()⟩] ∧ after = before :=
  completes_request nofun

theorem completes_wallClock {now : Int} :
    Completes wallClock before log now after ↔
      log = [⟨.wallClock, now⟩] ∧ after = before :=
  completes_request nofun

theorem completes_lock {id : String} {answer : Unit} :
    Completes (lock id) before log answer after ↔ log = [⟨.lock id, ()⟩] ∧ after = before :=
  completes_request nofun

theorem completes_unlock {id : String} {answer : Unit} :
    Completes (unlock id) before log answer after ↔
      log = [⟨.unlock id, ()⟩] ∧ after = before :=
  completes_request nofun

/-- The log of the queue that stands for one of the collaborators. -/
abbrev Asked (inner : Log Outside) (outer : Log Surroundings) : Prop :=
  Relayed (J := Surroundings) Request.outside (fun _ answer => answer) inner outer

/-- The log of the queue that stands for one with a journal. -/
abbrev Kept (inner : Log Journaled) (outer : Log Surroundings) : Prop :=
  Relayed (J := Surroundings) Request.ofJournaled Request.answerJournaled inner outer

/-- Whatever stands for requests to the collaborators is one of them. -/
theorem mem_asked {inner : Log Outside} {outer : Log Surroundings} (h : Asked inner outer)
    {entry : Answered Surroundings} (hentry : entry ∈ outer) :
    ∃ own ∈ inner, entry = ⟨.outside own.request, own.answer⟩ := by
  obtain ⟨own, hown, given, rfl, heq⟩ := h.source hentry
  exact ⟨own, hown, by rw [heq]⟩

/-- Whatever stands for requests with a journal is an entry of it, or asks a
collaborator. -/
theorem mem_kept {inner : Log Journaled} {outer : Log Surroundings} (h : Kept inner outer)
    {entry : Answered Surroundings} (hentry : entry ∈ outer) :
    (∃ note ∈ Journaled.journal inner, entry.request = .note note) ∨
      ∃ query, entry.request = .outside query := by
  obtain ⟨⟨request, answer⟩, hown, given, rfl, -⟩ := h.source hentry
  cases request with
  | note note => exact Or.inl ⟨note, List.mem_filterMap.2 ⟨_, hown, rfl⟩, rfl⟩
  | ask query => exact Or.inr ⟨query, rfl⟩

/-- Asking the collaborators leaves the store as it is. -/
theorem completes_outside {task : Task Outside α} {value : α}
    (h : Completes (outside task) before log value after) :
    after = before ∧ ∃ inner, Asked inner log ∧ task.Follows inner value := by
  obtain ⟨inner, hasked, hinner⟩ := follows_relay h.follows
  refine ⟨(serves_others fun entry hentry own heq => ?_).1 h.serves, inner, hasked, hinner⟩
  obtain ⟨_, -, rfl⟩ := mem_asked hasked hentry
  cases heq

theorem completes_journaled {task : Task Journaled α} {value : α}
    (h : Completes (journaled task) before log value after) :
    after = before ∧ ∃ inner, Kept inner log ∧ task.Follows inner value := by
  obtain ⟨inner, hkept, hinner⟩ := follows_relay h.follows
  refine ⟨(serves_others fun entry hentry own hstore => ?_).1 h.serves, inner, hkept, hinner⟩
  obtain ⟨note, -, heq⟩ | ⟨query, heq⟩ := mem_kept hkept hentry
  · cases heq.symm.trans hstore
  · cases heq.symm.trans hstore

theorem completes_clock {now : Int64} (h : Completes clock before log now after) :
    log = [⟨.outside .clock, now⟩] ∧ after = before := by
  have h : Completes (outside Outside.clock) before log now after := h
  obtain ⟨hsame, inner, hasked, hinner⟩ := completes_outside h
  obtain rfl := follows_request.1 hinner
  cases hasked with
  | cons rest =>
      cases rest
      exact ⟨rfl, hsame⟩

/-! ## Parts that stop at the first error -/

theorem completes_bindExcept {attempt : Attempt α} {next : α → Attempt β}
    {result : Except Error β} :
    Completes (attempt >>= next).run before log result after ↔
      (∃ e, result = .error e ∧ Completes attempt.run before log (.error e) after) ∨
      ∃ first value middle later, log = first ++ later ∧
        Completes attempt.run before first (.ok value) middle ∧
        Completes (next value).run middle later result after := by
  constructor
  · rintro ⟨hfollows, hserves⟩
    obtain ⟨e, rfl, h⟩ | ⟨first, value, later, rfl, hfirst, hlater⟩ :=
      follows_bindExcept.1 hfollows
    · exact Or.inl ⟨e, rfl, h, hserves⟩
    · obtain ⟨middle, hbefore, hafter⟩ := serves_append.1 hserves
      exact Or.inr ⟨first, value, middle, later, rfl, ⟨hfirst, hbefore⟩, hlater, hafter⟩
  · rintro (⟨e, rfl, h⟩ | ⟨first, value, middle, later, rfl, hfirst, hlater⟩)
    · exact ⟨follows_bindExcept.2 (Or.inl ⟨e, rfl, h.follows⟩), h.serves⟩
    · exact ⟨follows_bindExcept.2 (Or.inr ⟨_, _, _, rfl, hfirst.follows, hlater.follows⟩),
        serves_append.2 ⟨_, hfirst.serves, hlater.serves⟩⟩

theorem completes_lift {operation : Operation α} {result : Except Error α} :
    Completes (ExceptT.lift operation : Attempt α).run before log result after ↔
      ∃ value, result = .ok value ∧ Completes operation before log value after := by
  constructor
  · rintro ⟨hfollows, hserves⟩
    obtain ⟨value, rfl, h⟩ := follows_lift.1 hfollows
    exact ⟨value, rfl, h, hserves⟩
  · rintro ⟨value, rfl, h⟩
    exact ⟨follows_lift.2 ⟨value, rfl, h.follows⟩, h.serves⟩

theorem completes_liftBind {operation : Operation α} {next : α → Attempt β}
    {result : Except Error β} :
    Completes (ExceptT.lift operation >>= next).run before log result after ↔
      ∃ first value middle later, log = first ++ later ∧
        Completes operation before first value middle ∧
        Completes (next value).run middle later result after := by
  rw [completes_bindExcept]
  constructor
  · rintro (⟨e, rfl, h⟩ | ⟨first, value, middle, later, rfl, hfirst, hlater⟩)
    · obtain ⟨value, heq, -⟩ := completes_lift.1 h
      cases heq
    · obtain ⟨_, heq, hvalue⟩ := completes_lift.1 hfirst
      cases heq
      exact ⟨first, value, middle, later, rfl, hvalue, hlater⟩
  · rintro ⟨first, value, middle, later, rfl, hfirst, hlater⟩
    exact Or.inr ⟨_, _, _, _, rfl, completes_lift.2 ⟨value, rfl, hfirst⟩, hlater⟩

theorem completes_pureExcept {value : α} {result : Except Error α} :
    Completes (pure value : Attempt α).run before log result after ↔
      log = [] ∧ result = .ok value ∧ after = before :=
  completes_pure

theorem completes_throw {e : Error} {result : Except Error α} :
    Completes (throw e : Attempt α).run before log result after ↔
      log = [] ∧ result = .error e ∧ after = before :=
  completes_pure

theorem completes_attempt {operation : Operation (Except Error α)}
    {result : Except Error α} :
    Completes (attempt operation).run before log result after ↔
      Completes operation before log result after := Iff.rfl

end ProgramQueue.Queue
