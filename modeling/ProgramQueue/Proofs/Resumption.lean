import ProgramQueue.Proofs.Comparisons
import ProgramQueue.Proofs.Shapes

/-!
# Stopping and going on

A drive that stops goes on where it has stopped, as if it had not been interrupted.  An
advance that leaves an effect as it is starts nothing and only reads, at whatever depth of
the tree, so it can be made a second time without a difference to anything but the reads.
-/

namespace ProgramQueue

open ProgramQueue.Task (Follows Within follows_run within_bindExcept within_request within_lift
  value_bind state_bind log_bind)

/-! ## States that cannot be told apart -/

namespace World

variable {I : Interface} {α σ : Type} {world : World I σ} {first second third : σ}

/-- What a world answers to requests that are made one after the other. -/
def answers (world : World I σ) : List I.Request → σ → Log I
  | [], _ => []
  | request :: rest, state =>
      let (answer, state) := world.respond request state
      ⟨request, answer⟩ :: world.answers rest state

/-- Two states from which a world answers whatever is asked in the same way. -/
def Agree (world : World I σ) (first second : σ) : Prop :=
  ∀ requests, world.answers requests first = world.answers requests second

theorem Agree.refl (world : World I σ) (state : σ) : world.Agree state state :=
  fun _ => rfl

theorem Agree.symm (h : world.Agree first second) : world.Agree second first :=
  fun requests => (h requests).symm

theorem Agree.trans (h : world.Agree first second) (hrest : world.Agree second third) :
    world.Agree first third := fun requests => (h requests).trans (hrest requests)

theorem Agree.respond (h : world.Agree first second) (request : I.Request) :
    (world.respond request first).1 = (world.respond request second).1 ∧
    world.Agree (world.respond request first).2 (world.respond request second).2 := by
  constructor
  · have hone := (List.cons.inj (h [request])).1
    simpa using hone
  · intro requests
    exact (List.cons.inj (h (request :: requests))).2

/-- A task comes to the same from two states that cannot be told apart. -/
theorem Agree.run (h : world.Agree first second) (task : Task I α) :
    (task.run world first).value = (task.run world second).value ∧
    world.Agree (task.run world first).state (task.run world second).state ∧
    task.log world first = task.log world second := by
  induction task generalizing first second with
  | done value => exact ⟨rfl, h, rfl⟩
  | ask request next ih =>
      obtain ⟨hanswer, hlater⟩ := h.respond request
      obtain ⟨hvalue, hstate, hlog⟩ := ih (world.respond request first).1 hlater
      simp only [Task.run, Task.log]
      rw [← hanswer]
      exact ⟨hvalue, hstate, congrArg _ hlog⟩

/-- A journal tells no states apart. -/
theorem Agree.noting {world : World Outside σ} (h : world.Agree first second) :
    world.noting.Agree first second := by
  intro requests
  induction requests generalizing first second with
  | nil => rfl
  | cons request rest ih =>
      cases request with
      | note entry => exact congrArg (_ :: ·) (ih h)
      | ask query =>
          obtain ⟨hanswer, hlater⟩ := h.respond query
          have hrest := ih hlater
          simp only [answers, World.noting] at hrest ⊢
          rw [hanswer, hrest]

end World

/-! ## Reads -/

/-- The request only reads something. -/
def Query.isRead : Query → Bool
  | balance _ _ => true
  | confirmations _ _ => true
  | rate _ => true
  | clock => true
  | _ => false

/-- No read makes a difference to what is answered later. -/
def World.Steady {σ : Type} (world : World Outside σ) : Prop :=
  ∀ query state, query.isRead = true → world.Agree (world.respond query state).2 state

namespace Journaled

/-- The request starts no step and only reads. -/
def Request.isReading : Journaled.Request → Bool
  | note (.execute _) => false
  | note _ => true
  | ask query => query.isRead

def Reading (log : Log Journaled) : Prop :=
  ∀ entry ∈ log, entry.request.isReading = true

/-- What only reads leaves a steady world as it is. -/
theorem Reading.agree {α σ : Type} {world : World Outside σ} (hsteady : world.Steady)
    {task : Task Journaled α} {start : σ} (h : Reading (task.log world.noting start)) :
    world.Agree (task.run world.noting start).state start := by
  induction task generalizing start with
  | done value => exact .refl world start
  | ask request next ih =>
      obtain ⟨hfirst, hrest⟩ := List.forall_mem_cons.1 h
      cases request with
      | note entry => exact ih () hrest
      | ask query => exact (ih _ hrest).trans (hsteady query start hfirst)

end Journaled

/-- A condition that is checked is only read. -/
theorem Condition.check_reads (condition : Condition) :
    condition.check.run.Within fun query : Query => query.isRead = true := by
  cases condition with
  | addressBalance address walletId tokenId above below =>
      rw [check]
      split
      · trivial
      · refine within_bindExcept (within_request rfl) fun balance => ?_
        refine within_bindExcept ?_ fun reached => trivial
        trivial
  | txConfs txId walletId confirmations =>
      refine within_bindExcept (within_request rfl) fun found => ?_
      cases found <;> trivial
  | priceLevel pair above below =>
      exact within_bindExcept (within_request rfl) fun rate => trivial
  | unixtime timestamp =>
      exact within_bindExcept (within_lift (within_request rfl)) fun now => trivial

/-- A condition that is checked starts nothing. -/
theorem Condition.recheck_reading {site : Site} {condition : Condition} {log : Log Journaled}
    {next : Effect} (h : (condition.recheck site).Follows log next) : Journaled.Reading log := by
  obtain ⟨inner, outer, result, rfl, hrelayed, hcheck, -⟩ := Condition.follows_recheck h
  have hreads := condition.check_reads.follows hcheck
  refine List.forall_mem_append.2 ⟨fun entry hentry => ?_, List.forall_mem_singleton.2 rfl⟩
  obtain ⟨own, hown, given, rfl, -⟩ := hrelayed.source hentry
  exact hreads own hown

namespace Effect

/-- A sequence stays as it is only if its running child does, which is not over then. -/
theorem eq_of_afterChild {count index : Nat} {next child : Effect}
    (h : afterChild count index next = .seq index child) :
    next = child ∧ child.isDone = false := by
  cases hdone : next.isDone with
  | false =>
      rw [afterChild_pending hdone] at h
      obtain rfl := (Effect.seq.inj h).2
      exact ⟨rfl, hdone⟩
  | true =>
      obtain ⟨failure, snapshot, rfl⟩ := isDone_iff.1 hdone
      cases failure with
      | some failure => cases h
      | none =>
          rw [afterChild_completed] at h
          split at h
          · cases h
          · have hindex := (Effect.seq.inj h).1
            omega

/-- Parallel children stay as they are only if each of them does and one is not over. -/
theorem eq_of_afterChildren {nexts effects : List Effect}
    (h : afterChildren nexts = .par effects) :
    nexts = effects ∧ effects.all isDone = false := by
  obtain ⟨failure, -, heq⟩ | ⟨-, -, heq⟩ | ⟨-, hopen, heq⟩ := afterChildren_cases nexts
  · cases heq.symm.trans h
  · cases heq.symm.trans h
  · obtain rfl := Effect.par.inj (heq.symm.trans h)
    exact ⟨rfl, hopen⟩

end Effect

namespace Action

/-- What holds of every advance that leaves an effect as it is.  An effect that has not begun
is never left as it is, so only what is over or waits is looked at. -/
theorem unchanged (inlineCap : Nat) {holds : Site → Action → Effect → Log Journaled → Prop}
    (ended : ∀ site action failure snapshot, holds site action (.done failure snapshot) [])
    (recheck : ∀ site (step : Step) status (condition : Condition) log,
      (condition.recheck site).Follows log (.await condition) →
      holds site (.step step status) (.await condition) log)
    (seq : ∀ site children status index running child log, children[index]? = some running →
      child.isDone = false → holds (site.below (.seq index)) running child log →
      holds site (.seq children status) (.seq index child) log)
    (par : ∀ site children status effects log, effects.all Effect.isDone = false →
      Alongside (fun site action effect log next => next = effect → holds site action effect log)
        site 0 children effects log effects →
      holds site (.par children status) (.par effects) log) :
    AdvanceCases inlineCap fun site action effect log next =>
      next ≠ .init ∧ (next = effect → holds site action effect log) where
  ended site action failure snapshot :=
    ⟨(begins inlineCap).ended site action failure snapshot, fun _ => ended _ _ _ _⟩
  misfit site action effect misfit := by
    refine ⟨(begins inlineCap).misfit site action effect misfit, ?_⟩
    rintro rfl
    exact ended _ _ _ _
  empty site action effect hempty := by
    refine ⟨(begins inlineCap).empty site action effect hempty, ?_⟩
    rintro rfl
    exact ended _ _ _ _
  opens site action log next h := ⟨h.1, fun hinit => absurd hinit h.1⟩
  execute site step status log next h := by
    have hbegun := (begins inlineCap).execute site step status log next h
    exact ⟨hbegun, fun hinit => absurd hinit hbegun⟩
  recheck site step status condition log next h := by
    refine ⟨(begins inlineCap).recheck site step status condition log next h, ?_⟩
    rintro rfl
    exact recheck _ _ _ _ _ h
  seq site children status index running child log next hrunning h := by
    constructor
    · exact (begins inlineCap).seq site children status index running child log next hrunning h.1
    · intro hsame
      obtain ⟨hnext, hopen⟩ := Effect.eq_of_afterChild hsame
      exact seq _ _ _ _ _ _ _ hrunning hopen (h.2 hnext)
  par site children status effects log nexts h := by
    constructor
    · exact (begins inlineCap).par site children status effects log nexts (h.imp And.left)
    · intro hsame
      obtain ⟨rfl, hopen⟩ := Effect.eq_of_afterChildren hsame
      exact par _ _ _ _ _ hopen (h.imp And.right)

/-- An advance that leaves an effect as it is only reads. -/
def Unmoved (_site : Site) (_action : Action) (effect : Effect) (log : Log Journaled)
    (next : Effect) : Prop :=
  next ≠ .init ∧ (next = effect → Journaled.Reading log)

theorem Alongside.unmoved {site : Site} {index : Nat} {children : List Action}
    {effects nexts : List Effect} {log : Log Journaled}
    (h : Alongside (fun _ _ effect log next => next = effect → Journaled.Reading log) site index
      children effects log nexts) (hsame : nexts = effects) : Journaled.Reading log := by
  induction h with
  | nil => exact List.forall_mem_nil _
  | cons first rest ih =>
      obtain ⟨hfirst, hrest⟩ := List.cons.inj hsame
      exact List.forall_mem_append.2 ⟨first hfirst, ih hrest⟩

theorem unmoved (inlineCap : Nat) : AdvanceCases inlineCap Unmoved := by
  apply unchanged inlineCap
  · exact fun site action failure snapshot => List.forall_mem_nil _
  · exact fun site step status condition log h => Condition.recheck_reading h
  · exact fun site children status index running child log _ _ h => h
  · exact fun site children status effects log _ h => h.unmoved rfl

end Action

/-! ## The calls of a log -/

namespace Journaled

/-- What the collaborators were asked. -/
def asked : Log Journaled → Log Outside
  | [] => []
  | ⟨.note _, _⟩ :: rest => asked rest
  | ⟨.ask query, answer⟩ :: rest => ⟨query, answer⟩ :: asked rest

/-- What the collaborators were asked before anything more was written down. -/
def askedFirst : Log Journaled → Log Outside
  | ⟨.ask query, answer⟩ :: rest => ⟨query, answer⟩ :: askedFirst rest
  | _ => []

/-- The leaves whose steps were started, each with what was asked to start it. -/
def executions : Log Journaled → List (Site × Log Outside)
  | [] => []
  | ⟨.note (.execute site), _⟩ :: rest => (site, askedFirst rest) :: executions rest
  | _ :: rest => executions rest

theorem asked_append (first later : Log Journaled) :
    asked (first ++ later) = asked first ++ asked later := by
  induction first with
  | nil => rfl
  | cons entry rest ih =>
      obtain ⟨request, answer⟩ := entry
      cases request with
      | note note => exact ih
      | ask query => exact congrArg (_ :: ·) ih

theorem asked_reading {log : Log Journaled} (h : Reading log) :
    ∀ entry ∈ asked log, entry.request.isRead = true := by
  induction log with
  | nil => exact List.forall_mem_nil _
  | cons entry rest ih =>
      obtain ⟨hfirst, hrest⟩ := List.forall_mem_cons.1 h
      obtain ⟨request, answer⟩ := entry
      cases request with
      | note note => exact ih hrest
      | ask query => exact List.forall_mem_cons.2 ⟨hfirst, ih hrest⟩

/-- What is written down ends the calls of the step that was started before. -/
theorem askedFirst_append (first : Log Journaled) (note : Note) (rest : Log Journaled) :
    askedFirst (first ++ ⟨.note note, ()⟩ :: rest) = askedFirst first := by
  induction first with
  | nil => rfl
  | cons entry first ih =>
      obtain ⟨request, answer⟩ := entry
      cases request with
      | note note => rfl
      | ask query => exact congrArg (_ :: ·) ih

/-- What only reads adds nothing to the steps that were started. -/
theorem executions_append_reading (first : Log Journaled) {note : Note} {rest : Log Journaled}
    (h : Reading (⟨.note note, ()⟩ :: rest)) :
    executions (first ++ ⟨.note note, ()⟩ :: rest) = executions first := by
  induction first with
  | nil =>
      have hnone {log : Log Journaled} (hreading : Reading log) : executions log = [] := by
        induction log with
        | nil => rfl
        | cons entry log ih =>
            obtain ⟨hentry, hlog⟩ := List.forall_mem_cons.1 hreading
            obtain ⟨request, answer⟩ := entry
            cases request with
            | ask query => exact ih hlog
            | note note =>
                cases note with
                | execute site => cases hentry
                | _ => exact ih hlog
      exact hnone h
  | cons entry first ih =>
      obtain ⟨request, answer⟩ := entry
      cases request with
      | ask query => exact ih
      | note other =>
          cases other with
          | execute site =>
              rw [List.cons_append, executions, executions, askedFirst_append, ih]
          | _ => exact ih

variable {α σ : Type}

theorem log_silent (world : World Outside σ) (task : Task Journaled α) (start : σ) :
    (silent task).log world start = asked (task.log world.noting start) := by
  induction task generalizing start with
  | done value => rfl
  | ask request next ih =>
      cases request with
      | note note => exact ih () start
      | ask query => exact congrArg (_ :: ·) (ih _ _)

theorem state_silent (world : World Outside σ) (task : Task Journaled α) (start : σ) :
    ((silent task).run world start).state = (task.run world.noting start).state := by
  induction task generalizing start with
  | done value => rfl
  | ask request next ih =>
      cases request with
      | note note => exact ih () start
      | ask query => exact ih _ _

theorem follows_asked {task : Task Journaled α} {log : Log Journaled} {value : α}
    (h : task.Follows log value) : (silent task).Follows (asked log) value := by
  induction h with
  | done value => exact .done value
  | @ask request next answer log value _ ih =>
      cases request with
      | note note => exact ih
      | ask query => exact .ask ih

end Journaled

/-! ## Drives in a row -/

/-- What a drive has come to, and all that it asked and wrote down. -/
structure Drive (σ : Type) where
  final : State
  outer : σ
  log : Log Journaled

namespace Program

variable {σ : Type} {program : Program} {inlineCap : Nat} {world : World Outside σ}
  {state : State} {start : σ}

/-- A drive in a world. -/
def driven (program : Program) (inlineCap : Nat) (world : World Outside σ) (budget : Nat)
    (state : State) (start : σ) : Drive σ :=
  let task := program.driveJournaled inlineCap budget state
  ⟨(task.run world.noting start).value, (task.run world.noting start).state,
    task.log world.noting start⟩

/-- An advance in a world, with its effect put into a state. -/
def advanced (program : Program) (inlineCap : Nat) (world : World Outside σ) (state : State)
    (start : σ) : Drive σ :=
  let task := program.advanceJournaled inlineCap state.current
  ⟨{ state with effect := some (task.run world.noting start).value },
    (task.run world.noting start).state, task.log world.noting start⟩

theorem driven_zero : program.driven inlineCap world 0 state start = ⟨state, start, []⟩ := rfl

theorem driven_isDone {budget : Nat} (hdone : state.isDone = true) :
    program.driven inlineCap world budget state start = ⟨state, start, []⟩ := by
  cases budget with
  | zero => rfl
  | succ budget =>
      rw [driven, driveJournaled, if_pos hdone]
      rfl

/-- A drive stops after an advance that leaves the effect as it is. -/
theorem driven_unchanged {budget : Nat} (hopen : ¬state.isDone = true)
    (hsame : (program.advanced inlineCap world state start).final.current = state.current) :
    program.driven inlineCap world (budget + 1) state start =
      program.advanced inlineCap world state start := by
  rw [driven, driveJournaled, if_neg hopen]
  have heffect : ((program.advanceJournaled inlineCap state.current).run world.noting start).value =
      state.current := hsame
  simp only [value_bind, state_bind, log_bind, if_pos heffect]
  exact congrArg (Drive.mk _ _) (List.append_nil _)

/-- A drive goes on after an advance that changes the effect. -/
theorem driven_changed {budget : Nat} (hopen : ¬state.isDone = true)
    (hchanged : (program.advanced inlineCap world state start).final.current ≠ state.current) :
    let once := program.advanced inlineCap world state start
    let rest := program.driven inlineCap world budget once.final once.outer
    program.driven inlineCap world (budget + 1) state start =
      ⟨rest.final, rest.outer, once.log ++ rest.log⟩ := by
  rw [driven, driveJournaled, if_neg hopen]
  have heffect : ((program.advanceJournaled inlineCap state.current).run world.noting start).value ≠
      state.current := hchanged
  simp only [value_bind, state_bind, log_bind, if_neg heffect]
  rfl

/-- An advance that leaves an effect as it is starts nothing. -/
theorem advance_reading {effect : Effect} {log : Log Journaled}
    (h : (program.advanceJournaled inlineCap effect).Follows log effect) :
    ∃ rest, log = ⟨.note (.advance program.id), ()⟩ :: rest ∧ Journaled.Reading log := by
  obtain ⟨rest, rfl, hadvance⟩ := follows_advance.1 h
  obtain ⟨-, hreading⟩ := (Action.unmoved inlineCap).holds _ hadvance
  exact ⟨rest, rfl, List.forall_mem_cons.2 ⟨rfl, hreading rfl⟩⟩

/-- An advance that leaves an effect as it is can be made again in a steady world, and then
it asks the same. -/
theorem advanced_again (hsteady : world.Steady)
    (hsame : (program.advanced inlineCap world state start).final.current = state.current) :
    let once := program.advanced inlineCap world state start
    let again := program.advanced inlineCap world once.final once.outer
    again.final = once.final ∧ world.Agree again.outer once.outer ∧ again.log = once.log ∧
      (program.advanceJournaled inlineCap once.final.current).Follows once.log
        once.final.current := by
  intro once again
  have hfollows : (program.advanceJournaled inlineCap state.current).Follows once.log
      once.final.current :=
    follows_run world.noting (program.advanceJournaled inlineCap state.current) start
  rw [hsame] at hfollows
  obtain ⟨rest, -, hreading⟩ := advance_reading hfollows
  have hkept : world.noting.Agree once.outer start := (hreading.agree hsteady).noting
  obtain ⟨hvalue, -, hlog⟩ := hkept.run (program.advanceJournaled inlineCap state.current)
  have htask : program.advanceJournaled inlineCap once.final.current =
      program.advanceJournaled inlineCap state.current := congrArg _ hsame
  have hasked : again.log = once.log := by
    change (program.advanceJournaled inlineCap once.final.current).log world.noting once.outer = _
    rw [htask, hlog]
    rfl
  refine ⟨?_, ?_, hasked, ?_⟩
  · change { once.final with effect := some ((program.advanceJournaled inlineCap
      once.final.current).run world.noting once.outer).value } = once.final
    rw [htask, hvalue]
    rfl
  · have hagain : Journaled.Reading again.log := hasked ▸ hreading
    exact hagain.agree hsteady
  · rw [hsame]
    exact hfollows

/-- How what two drives in a row have asked is related to what one drive has: it is the
same, or the last advance, which changed nothing, is made a second time. -/
inductive Repeats (program : Program) (inlineCap : Nat) (effect : Effect)
    (whole parts : Log Journaled) : Prop
  | same (hparts : parts = whole)
  | again {before once : Log Journaled} (hwhole : whole = before ++ once)
      (hparts : parts = whole ++ once)
      (hunchanged : (program.advanceJournaled inlineCap effect).Follows once effect)

theorem Repeats.after {effect : Effect} {whole parts : Log Journaled}
    (h : program.Repeats inlineCap effect whole parts) (first : Log Journaled) :
    program.Repeats inlineCap effect (first ++ whole) (first ++ parts) := by
  cases h with
  | same hparts => exact .same (congrArg _ hparts)
  | @again before once hwhole hparts hunchanged =>
      have hboth : first ++ whole = (first ++ before) ++ once := by
        rw [hwhole, List.append_assoc]
      refine .again hboth ?_ hunchanged
      rw [hparts, List.append_assoc]

/-- Two drives in a row come to what one drive comes to that has both budgets. -/
theorem driven_resumes (hsteady : world.Steady) (program : Program) (inlineCap first later : Nat)
    (state : State) (start : σ) :
    let one := program.driven inlineCap world first state start
    let two := program.driven inlineCap world later one.final one.outer
    let whole := program.driven inlineCap world (first + later) state start
    two.final = whole.final ∧ world.Agree two.outer whole.outer ∧
      program.Repeats inlineCap whole.final.current whole.log (one.log ++ two.log) := by
  induction first generalizing state start with
  | zero =>
      rw [Nat.zero_add, driven_zero]
      exact ⟨rfl, .refl world _, .same rfl⟩
  | succ first ih =>
      by_cases hopen : ¬state.isDone = true
      · rw [Nat.add_right_comm]
        by_cases hsame : (program.advanced inlineCap world state start).final.current =
            state.current
        · rw [driven_unchanged hopen hsame, driven_unchanged hopen hsame]
          have hstill : ¬(program.advanced inlineCap world state start).final.isDone = true := by
            rw [State.isDone, hsame]
            exact hopen
          obtain ⟨hfinal, houter, hlog, hunchanged⟩ := advanced_again hsteady hsame
          -- the first drive ends before its budget does, and the second begins where it ended
          cases later with
          | zero =>
              exact ⟨rfl, .refl world _, .same (List.append_nil _)⟩
          | succ later =>
              dsimp only
              rw [driven_unchanged hstill (congrArg State.current hfinal)]
              have hnothing : (program.advanced inlineCap world state start).log =
                  [] ++ (program.advanced inlineCap world state start).log := rfl
              exact ⟨hfinal, houter, .again hnothing (congrArg _ hlog) hunchanged⟩
        · rw [driven_changed hopen hsame, driven_changed hopen hsame]
          obtain ⟨hfinal, houter, hlog⟩ := ih (program.advanced inlineCap world state start).final
            (program.advanced inlineCap world state start).outer
          refine ⟨hfinal, houter, ?_⟩
          rw [List.append_assoc]
          exact hlog.after _
      · rw [not_not] at hopen
        rw [driven_isDone hopen, driven_isDone hopen]
        dsimp only
        rw [driven_isDone hopen]
        exact ⟨rfl, .refl world _, .same rfl⟩

/-- If no read makes a difference to later answers, a drive can be taken up again where it
has stopped: the state is the one that a single drive with both budgets comes to, and the
same steps are started with the same calls in the same order.  Of the calls, nothing
differs but that the reads of the last advance, which changes nothing, may be made twice. -/
theorem drive_resumes (hsteady : world.Steady) (program : Program) (inlineCap first later : Nat)
    (state : State) (start : σ) :
    let one := program.drive inlineCap first state
    let stopped := one.run world start
    let two := program.drive inlineCap later stopped.value
    let resumed := two.run world stopped.state
    let whole := program.drive inlineCap (first + later) state
    resumed.value = (whole.run world start).value ∧
    world.Agree resumed.state (whole.run world start).state ∧
    Journaled.executions ((program.driven inlineCap world first state start).log ++
        (program.driven inlineCap world later stopped.value stopped.state).log) =
      Journaled.executions (program.driven inlineCap world (first + later) state start).log ∧
    (one.log world start ++ two.log world stopped.state = whole.log world start ∨
      ∃ before reads, whole.log world start = before ++ reads ∧
        one.log world start ++ two.log world stopped.state = whole.log world start ++ reads ∧
        (∀ entry ∈ reads, entry.request.isRead = true) ∧
        (program.advance inlineCap resumed.value.current).Follows reads resumed.value.current) := by
  intro one stopped two resumed whole
  have hvalue : stopped.value = (program.driven inlineCap world first state start).final :=
    Journaled.run_silent world _ start
  have hstate : stopped.state = (program.driven inlineCap world first state start).outer :=
    Journaled.state_silent world _ start
  obtain ⟨hfinal, houter, hlog⟩ :=
    driven_resumes hsteady program inlineCap first later state start
  have hresumed : resumed.value =
      (program.driven inlineCap world (first + later) state start).final := by
    rw [← hfinal, ← hvalue, ← hstate]
    exact Journaled.run_silent world _ stopped.state
  have hparts : one.log world start ++ two.log world stopped.state =
      Journaled.asked ((program.driven inlineCap world first state start).log ++
        (program.driven inlineCap world later stopped.value stopped.state).log) := by
    rw [Journaled.asked_append]
    exact congrArg₂ _ (Journaled.log_silent world _ start)
      (Journaled.log_silent world _ stopped.state)
  have hwhole : whole.log world start =
      Journaled.asked (program.driven inlineCap world (first + later) state start).log :=
    Journaled.log_silent world _ start
  rw [← hvalue, ← hstate] at hlog
  refine ⟨hresumed.trans (Journaled.run_silent world _ start).symm, ?_, ?_⟩
  · have hagain : resumed.state =
        (program.driven inlineCap world later stopped.value stopped.state).outer :=
      Journaled.state_silent world _ stopped.state
    have hend : (whole.run world start).state =
        (program.driven inlineCap world (first + later) state start).outer :=
      Journaled.state_silent world _ start
    rw [hagain, hend, hvalue, hstate]
    exact houter
  · rw [hparts, hwhole, hresumed]
    cases hlog with
    | same hsame => exact ⟨congrArg _ hsame, Or.inl (congrArg _ hsame)⟩
    | @again before once hbefore hagain hunchanged =>
        obtain ⟨rest, rfl, hreading⟩ := advance_reading hunchanged
        constructor
        · rw [hagain, Journaled.executions_append_reading _ hreading]
        · refine Or.inr ⟨Journaled.asked before, _, ?_, ?_,
            Journaled.asked_reading hreading, Journaled.follows_asked hunchanged⟩
          · rw [hbefore, Journaled.asked_append]
          · rw [hagain, Journaled.asked_append]

/-- Payments get different ids, and no transaction is ever seen. -/
def paying : World Outside Nat where
  respond
    | .broadcast _ _, sent => (.ok (if sent = 0 then "first" else "again"), sent + 1)
    | query, sent => (Queue.grant 0 query, sent)

/-- What an errand waits for when its payment was the first one. -/
def errandPaid : State :=
  { State.fresh "errand" with
    effect := some (.par [.seq 2 (.await (.txConfs "first" "wallet" 1)), .completed]) }

/-- An errand that is interrupted while it waits for its payment has paid once; only the
look at the transaction is repeated. -/
theorem errand_resumes :
    let stopped := (errand.drive 0 4 (State.fresh "errand")).run paying 0
    let resumed := (errand.drive 0 3 stopped.value).run paying stopped.state
    paying.Steady ∧ resumed.value = errandPaid ∧ paying.Agree resumed.state 1 ∧
    Journaled.executions ((errand.driven 0 paying 4 (State.fresh "errand") 0).log ++
        (errand.driven 0 paying 3 stopped.value stopped.state).log) =
      [(⟨"errand", [.par 0, .seq 0]⟩, [⟨.toast "first", .ok ()⟩]),
        (⟨"errand", [.par 1]⟩, [⟨.toast "beside", .ok ()⟩]),
        (⟨"errand", [.par 0, .seq 2]⟩, [⟨.broadcast "wallet" [1], .ok "first"⟩])] ∧
    (errand.drive 0 3 stopped.value).log paying stopped.state =
      [⟨.confirmations "wallet" "first", .ok .unknown⟩] := by
  intro stopped resumed
  have hsteady : paying.Steady := by
    intro query sent hread
    cases query with
    | broadcast => cases hread
    | _ => exact .refl paying sent
  obtain ⟨hvalue, hagree, hexecutions, -⟩ :=
    drive_resumes hsteady errand 0 4 3 (State.fresh "errand") 0
  exact ⟨hsteady, hvalue, hagree, hexecutions, rfl⟩

end Program

end ProgramQueue
