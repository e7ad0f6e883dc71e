import ProgramQueue.Journal

/-!
# Logs of a task

A log lists requests together with their answers.  A task follows a log if it
makes these requests in this order whenever it gets these answers.  Nothing is
said about where the answers come from, so what is proved of every log that a task
follows holds in every world.
-/

namespace ProgramQueue

structure Answered (I : Interface) where
  request : I.Request
  answer : I.Answer request

/-- Requests and their answers, in the order the requests were made. -/
abbrev Log (I : Interface) := List (Answered I)

namespace Task

variable {I J : Interface} {α β ε σ : Type}

/-- The log of a run in a world. -/
def log (world : World I σ) : Task I α → σ → Log I
  | done _, _ => []
  | ask r next, state =>
      let (answer, state) := world.respond r state
      ⟨r, answer⟩ :: (next answer).log world state

/-- The requests of a run are those of its log. -/
theorem log_requests (world : World I σ) (task : Task I α) (state : σ) :
    (task.log world state).map Answered.request =
      (task.run world state).requests := by
  induction task generalizing state with
  | done value => rfl
  | ask r next ih =>
      exact congrArg (r :: ·) (ih (world.respond r state).1 (world.respond r state).2)

/-- All answers in the log of a run come from the world. -/
theorem answer_of_mem_log {world : World I σ} {task : Task I α} {state : σ}
    {entry : Answered I} (h : entry ∈ task.log world state) :
    ∃ state, entry.answer = (world.respond entry.request state).1 := by
  induction task generalizing state with
  | done value => cases h
  | ask r next ih =>
      obtain rfl | hrest := List.mem_cons.1 h
      · exact ⟨state, rfl⟩
      · exact ih _ hrest

/-- With these answers a task makes these requests and comes to this value. -/
inductive Follows : Task I α → Log I → α → Prop
  | done (value : α) : Follows (.done value) [] value
  | ask {r : I.Request} {next : I.Answer r → Task I α} {answer : I.Answer r}
      {log : Log I} {value : α} (rest : Follows (next answer) log value) :
      Follows (.ask r next) (⟨r, answer⟩ :: log) value

theorem follows_run (world : World I σ) (task : Task I α) (state : σ) :
    task.Follows (task.log world state) (task.run world state).value := by
  induction task generalizing state with
  | done value => exact .done value
  | ask r next ih => exact .ask (ih _ _)

@[simp]
theorem follows_done {value result : α} {log : Log I} :
    (Task.done value : Task I α).Follows log result ↔ log = [] ∧ result = value := by
  constructor
  · intro h
    cases h
    exact ⟨rfl, rfl⟩
  · rintro ⟨rfl, rfl⟩
    exact .done _

@[simp]
theorem follows_pure {value result : α} {log : Log I} :
    (pure value : Task I α).Follows log result ↔ log = [] ∧ result = value :=
  follows_done

theorem follows_ask {r : I.Request} {next : I.Answer r → Task I α}
    {log : Log I} {value : α} :
    (Task.ask r next).Follows log value ↔
      ∃ answer rest, log = ⟨r, answer⟩ :: rest ∧ (next answer).Follows rest value := by
  constructor
  · intro h
    cases h with
    | ask rest => exact ⟨_, _, rfl, rest⟩
  · rintro ⟨answer, rest, rfl, h⟩
    exact .ask h

@[simp]
theorem follows_request {r : I.Request} {log : Log I}
    {answer : I.Answer r} :
    (Task.request r).Follows log answer ↔ log = [⟨r, answer⟩] := by
  constructor
  · intro h
    obtain ⟨given, rest, rfl, hdone⟩ := follows_ask.1 h
    obtain ⟨rfl, rfl⟩ := follows_done.1 hdone
    rfl
  · rintro rfl
    exact .ask (.done answer)

/-- A task in two parts follows what its parts follow. -/
theorem follows_bind {task : Task I α} {f : α → Task I β}
    {log : Log I} {value : β} :
    (task >>= f).Follows log value ↔
      ∃ first middle later, log = first ++ later ∧
        task.Follows first middle ∧ (f middle).Follows later value := by
  constructor
  · intro h
    induction task generalizing log with
    | done middle => exact ⟨[], middle, log, rfl, .done middle, h⟩
    | ask r next ih =>
        obtain ⟨answer, rest, rfl, hrest⟩ := follows_ask.1 h
        obtain ⟨first, middle, later, rfl, hfirst, hlater⟩ := ih answer hrest
        exact ⟨_ :: first, middle, later, rfl, .ask hfirst, hlater⟩
  · rintro ⟨first, middle, later, rfl, hfirst, hlater⟩
    induction hfirst with
    | done middle => exact hlater
    | ask _ ih => exact .ask (ih hlater)

/-- A part that may be an error stops the whole with it. -/
theorem follows_bindExcept {task : ExceptT ε (Task I) α} {f : α → ExceptT ε (Task I) β}
    {log : Log I} {result : Except ε β} :
    (task >>= f).run.Follows log result ↔
      (∃ e, result = .error e ∧ task.run.Follows log (.error e)) ∨
      ∃ first middle later, log = first ++ later ∧
        task.run.Follows first (.ok middle) ∧ (f middle).run.Follows later result := by
  change (task.run >>= ExceptT.bindCont f).Follows log result ↔ _
  rw [follows_bind]
  constructor
  · rintro ⟨first, middle, later, rfl, hfirst, hlater⟩
    cases middle with
    | error e =>
        obtain ⟨rfl, rfl⟩ := follows_pure.1 hlater
        exact Or.inl ⟨e, rfl, by rwa [List.append_nil]⟩
    | ok middle => exact Or.inr ⟨first, middle, later, rfl, hfirst, hlater⟩
  · rintro (⟨e, rfl, h⟩ | ⟨first, middle, later, rfl, hfirst, hlater⟩)
    · exact ⟨log, .error e, [], (List.append_nil log).symm, h, .done _⟩
    · exact ⟨first, .ok middle, later, rfl, hfirst, hlater⟩

theorem follows_bindOk {task : ExceptT ε (Task I) α} {f : α → ExceptT ε (Task I) β}
    {log : Log I} {value : β} :
    (task >>= f).run.Follows log (.ok value) ↔
      ∃ first middle later, log = first ++ later ∧
        task.run.Follows first (.ok middle) ∧ (f middle).run.Follows later (.ok value) := by
  rw [follows_bindExcept]
  constructor
  · rintro (⟨e, heq, -⟩ | h)
    · cases heq
    · exact h
  · exact Or.inr

/-- A part that cannot be an error comes to its value. -/
@[simp]
theorem follows_lift {task : Task I α} {log : Log I} {result : Except ε α} :
    (ExceptT.lift task : ExceptT ε (Task I) α).run.Follows log result ↔
      ∃ value, result = .ok value ∧ task.Follows log value := by
  change (task >>= fun value => pure (.ok value)).Follows log result ↔ _
  rw [follows_bind]
  constructor
  · rintro ⟨first, middle, later, rfl, hfirst, hlater⟩
    obtain ⟨rfl, rfl⟩ := follows_pure.1 hlater
    exact ⟨middle, rfl, by rwa [List.append_nil]⟩
  · rintro ⟨value, rfl, h⟩
    exact ⟨log, value, [], (List.append_nil log).symm, h, .done _⟩

/-- A part that cannot be an error is followed by the rest. -/
theorem follows_liftBind {task : Task I α} {f : α → ExceptT ε (Task I) β} {log : Log I}
    {result : Except ε β} :
    (ExceptT.lift task >>= f).run.Follows log result ↔
      ∃ first middle later, log = first ++ later ∧
        task.Follows first middle ∧ (f middle).run.Follows later result := by
  rw [follows_bindExcept]
  constructor
  · rintro (⟨e, rfl, h⟩ | ⟨first, middle, later, rfl, hfirst, hlater⟩)
    · obtain ⟨_, heq, -⟩ := follows_lift.1 h
      cases heq
    · obtain ⟨_, heq, hvalue⟩ := follows_lift.1 hfirst
      cases heq
      exact ⟨first, middle, later, rfl, hvalue, hlater⟩
  · rintro ⟨first, middle, later, rfl, hfirst, hlater⟩
    exact Or.inr ⟨first, middle, later, rfl, follows_lift.2 ⟨middle, rfl, hfirst⟩, hlater⟩

@[simp]
theorem follows_pureExcept {value : α} {log : Log I} {result : Except ε α} :
    (pure value : ExceptT ε (Task I) α).run.Follows log result ↔
      log = [] ∧ result = .ok value :=
  follows_done

@[simp]
theorem follows_throw {e : ε} {log : Log I} {result : Except ε α} :
    (throw e : ExceptT ε (Task I) α).run.Follows log result ↔
      log = [] ∧ result = .error e :=
  follows_done

/-- A part whose errors are reworded makes the same requests. -/
theorem follows_adapt {ε' : Type} {reword : ε → ε'} {task : ExceptT ε (Task I) α}
    {log : Log I} {result : Except ε' α} :
    (ExceptT.adapt reword task).run.Follows log result ↔
      ∃ given, result = given.mapError reword ∧ task.run.Follows log given := by
  change (task.run >>= fun given => pure (given.mapError reword)).Follows log result ↔ _
  rw [follows_bind]
  constructor
  · rintro ⟨first, given, later, rfl, hfirst, hlater⟩
    obtain ⟨rfl, rfl⟩ := follows_pure.1 hlater
    exact ⟨given, rfl, by rwa [List.append_nil]⟩
  · rintro ⟨given, rfl, h⟩
    exact ⟨log, given, [], (List.append_nil log).symm, h, .done _⟩

/-- The log of one interface that stands for that of another. -/
inductive Relayed (embed : I.Request → J.Request)
    (back : (r : I.Request) → J.Answer (embed r) → I.Answer r) :
    Log I → Log J → Prop
  | nil : Relayed embed back [] []
  | cons {r : I.Request} {answer : J.Answer (embed r)} {inner : Log I}
      {outer : Log J} (rest : Relayed embed back inner outer) :
      Relayed embed back (⟨r, back r answer⟩ :: inner) (⟨embed r, answer⟩ :: outer)

/-- A request stands in the log that stands for its own, with the answer it was given. -/
theorem Relayed.mem {embed : I.Request → J.Request}
    {back : (r : I.Request) → J.Answer (embed r) → I.Answer r} {inner : Log I}
    {outer : Log J} (h : Relayed embed back inner outer) {r : I.Request}
    {answer : I.Answer r} (hmem : ⟨r, answer⟩ ∈ inner) :
    ∃ given, ⟨embed r, given⟩ ∈ outer ∧ answer = back r given := by
  induction h with
  | nil => cases hmem
  | cons _ ih =>
      obtain heq | hrest := List.mem_cons.1 hmem
      · cases heq
        exact ⟨_, List.mem_cons_self, rfl⟩
      · obtain ⟨given, hgiven, heq⟩ := ih hrest
        exact ⟨given, List.mem_cons_of_mem _ hgiven, heq⟩

/-- Whatever stands in the other log stands for a request of this one. -/
theorem Relayed.source {embed : I.Request → J.Request}
    {back : (r : I.Request) → J.Answer (embed r) → I.Answer r} {inner : Log I}
    {outer : Log J} (h : Relayed embed back inner outer) {entry : Answered J}
    (hmem : entry ∈ outer) :
    ∃ own ∈ inner, ∃ given, entry = ⟨embed own.request, given⟩ ∧
      own.answer = back own.request given := by
  induction h with
  | nil => cases hmem
  | cons _ ih =>
      obtain rfl | hrest := List.mem_cons.1 hmem
      · exact ⟨_, List.mem_cons_self, _, rfl, rfl⟩
      · obtain ⟨own, hown, hentry⟩ := ih hrest
        exact ⟨own, List.mem_cons_of_mem _ hown, hentry⟩

/-- A relayed task follows a log that stands for one of the task itself. -/
theorem follows_relay {embed : I.Request → J.Request}
    {back : (r : I.Request) → J.Answer (embed r) → I.Answer r} {task : Task I α}
    {log : Log J} {value : α} (h : (task.relay embed back).Follows log value) :
    ∃ inner, Relayed embed back inner log ∧ task.Follows inner value := by
  induction task generalizing log with
  | done result =>
      obtain ⟨rfl, rfl⟩ := follows_done.1 h
      exact ⟨[], .nil, .done _⟩
  | ask r next ih =>
      obtain ⟨answer, rest, rfl, hrest⟩ := follows_ask.1 h
      obtain ⟨inner, hrelayed, hinner⟩ := ih _ hrest
      exact ⟨_ :: inner, .cons hrelayed, .ask hinner⟩

end Task

end ProgramQueue
