import Mathlib.Data.List.Find
import Mathlib.Data.List.Nodup
import ProgramQueue.Proofs.Tables
import ProgramQueue.Queue.Locks

/-!
# Who has a lock

Every task that refers to a lock refers to the one that is registered under its id, and no
two tasks have the same lock.  So of the tasks of a process one at most has a program.
-/

namespace ProgramQueue.Queue.Locks

/-- What holds of the locks of a process in any order of steps. -/
structure Sound (locks : Locks) : Prop where
  once : (locks.tickets.map (·.task)).Nodup
  registered : ∀ ticket ∈ locks.tickets, locks.registry.find? ticket.id = some ticket.lock
  alone : ∀ first ∈ locks.tickets, ∀ second ∈ locks.tickets, first.lock = second.lock →
    first.stage ≠ .waiting → second.stage ≠ .waiting → first = second

variable {locks later : Locks} {ticket : LockTicket} {task other : Nat} {id : String}

/-! ## Looking up a task -/

theorem mem_of_ticket? (h : locks.ticket? task = some ticket) :
    ticket ∈ locks.tickets ∧ ticket.task = task := by
  constructor
  · exact List.mem_of_find?_eq_some h
  · simpa using List.find?_some h

theorem ticket?_of_mem (h : locks.Sound) (hmem : ticket ∈ locks.tickets) :
    locks.ticket? ticket.task = some ticket := by
  cases hfound : locks.ticket? ticket.task with
  | none =>
      have hnone := List.find?_eq_none.1 hfound ticket hmem
      exact absurd (decide_eq_true rfl) hnone
  | some found =>
      obtain ⟨hfound, heq⟩ := mem_of_ticket? hfound
      rw [List.inj_on_of_nodup_map h.once hfound hmem heq]

/-- A task has at most one program, and a program at most one task. -/
theorem Sound.holder_unique (h : locks.Sound) {first second : LockTicket}
    (hfirst : locks.ticket? task = some first) (hsecond : locks.ticket? other = some second)
    (hid : first.id = second.id) (hhas : first.stage ≠ .waiting)
    (hhas' : second.stage ≠ .waiting) : task = other := by
  obtain ⟨hmem, rfl⟩ := mem_of_ticket? hfirst
  obtain ⟨hmem', rfl⟩ := mem_of_ticket? hsecond
  have hlock : some first.lock = some second.lock := by
    rw [← h.registered first hmem, ← h.registered second hmem', hid]
  rw [h.alone first hmem second hmem' (Option.some.inj hlock) hhas hhas']

theorem ticket?_setStage (locks : Locks) (task other : Nat) (stage : LockStage) :
    (locks.setStage task stage).ticket? other =
      if other = task then (locks.ticket? other).map ({ · with stage := stage })
      else locks.ticket? other := by
  unfold ticket? setStage
  dsimp only
  rw [List.find?_map]
  have hkeeps : ((fun ticket : LockTicket => decide (ticket.task = other)) ∘ fun ticket =>
      if ticket.task = task then { ticket with stage } else ticket) =
        fun ticket => decide (ticket.task = other) := by
    funext ticket
    by_cases htask : ticket.task = task
    · simp [htask]
    · simp [htask]
  rw [hkeeps]
  cases hfound : locks.tickets.find? fun ticket => decide (ticket.task = other) with
  | none => simp
  | some ticket =>
      have htask : ticket.task = other := by simpa using List.find?_some hfound
      by_cases heq : other = task
      · simp [htask, heq]
      · simp [htask, heq]

theorem ticket?_withoutTask (locks : Locks) (task other : Nat) :
    (locks.withoutTask task).ticket? other =
      if other = task then none else locks.ticket? other := by
  unfold ticket? withoutTask
  dsimp only
  rw [List.find?_filter]
  by_cases heq : other = task
  · rw [if_pos heq, List.find?_eq_none]
    intro ticket _
    simp [heq]
  · rw [if_neg heq]
    refine List.find?_congr fun ticket _ => ?_
    by_cases htask : ticket.task = other
    · simp [htask, heq]
    · simp [htask]

/-! ## What a step keeps -/

theorem Sound.congr (h : locks.Sound) (htickets : later.tickets = locks.tickets)
    (hregistry : later.registry = locks.registry) : later.Sound := by
  obtain ⟨honce, hregistered, halone⟩ := h
  rw [← htickets] at honce hregistered halone
  rw [← hregistry] at hregistered
  exact ⟨honce, hregistered, halone⟩

/-- A task that comes to have a lock has to be the only one. -/
theorem Sound.setStage (h : locks.Sound) (hmem : ticket ∈ locks.tickets) (stage : LockStage)
    (halone : ∀ other ∈ locks.tickets, other.lock = ticket.lock → other.stage ≠ .waiting →
      other = ticket) : (locks.setStage ticket.task stage).Sound := by
  have hown {other : LockTicket} (hother : other ∈ locks.tickets)
      (htask : other.task = ticket.task) : other = ticket :=
    List.inj_on_of_nodup_map h.once hother hmem htask
  constructor
  · have htasks : (locks.setStage ticket.task stage).tickets.map (·.task) =
        locks.tickets.map (·.task) := by
      unfold Locks.setStage
      rw [List.map_map]
      refine List.map_congr_left fun other _ => ?_
      dsimp only [Function.comp]
      split <;> rfl
    rw [htasks]
    exact h.once
  · intro changed hchanged
    obtain ⟨other, hother, rfl⟩ := List.mem_map.1 hchanged
    split <;> exact h.registered other hother
  · intro changed hchanged altered haltered hlock hhas hhas'
    obtain ⟨first, hfirst, rfl⟩ := List.mem_map.1 hchanged
    obtain ⟨second, hsecond, rfl⟩ := List.mem_map.1 haltered
    -- the task that comes to have the lock may be either of the two
    by_cases hone : first.task = ticket.task
    · obtain rfl := hown hfirst hone
      by_cases htwo : second.task = first.task
      · rw [hown hsecond htwo]
      · rw [if_pos rfl, if_neg htwo] at hlock
        rw [if_neg htwo] at hhas'
        exact absurd (halone second hsecond hlock.symm hhas') fun heq => htwo (heq ▸ rfl)
    · by_cases htwo : second.task = ticket.task
      · obtain rfl := hown hsecond htwo
        rw [if_neg hone, if_pos rfl] at hlock
        rw [if_neg hone] at hhas
        exact absurd (halone first hfirst hlock hhas) fun heq => hone (heq ▸ rfl)
      · rw [if_neg hone, if_neg htwo] at hlock
        rw [if_neg hone] at hhas
        rw [if_neg htwo] at hhas'
        rw [h.alone first hfirst second hsecond hlock hhas hhas']

theorem Sound.withoutTask (h : locks.Sound) (task : Nat) : (locks.withoutTask task).Sound := by
  have hsub : (locks.withoutTask task).tickets.Sublist locks.tickets := List.filter_sublist
  constructor
  · exact (hsub.map _).nodup h.once
  · intro ticket hticket
    exact h.registered ticket (hsub.subset hticket)
  · intro first hfirst second hsecond
    exact h.alone first (hsub.subset hfirst) second (hsub.subset hsecond)

theorem Sound.ask (h : locks.Sound) (hnone : locks.ticket? task = none) {lock next : Nat}
    {registry : Table Nat} (hnew : registry.find? id = some lock)
    (hold : ∀ ticket ∈ locks.tickets, registry.find? ticket.id = some ticket.lock) :
    ({ locks with registry, next, tickets := locks.tickets ++ [⟨task, id, lock, .waiting⟩] } :
      Locks).Sound := by
  constructor
  · rw [List.map_append]
    refine List.nodup_append'.2 ⟨h.once, List.nodup_singleton _, fun other hother hsame => ?_⟩
    obtain ⟨ticket, hticket, rfl⟩ := List.mem_map.1 hother
    have hfound := List.find?_eq_none.1 hnone ticket hticket
    exact hfound (decide_eq_true (List.mem_singleton.1 hsame))
  · exact List.forall_mem_append.2 ⟨hold, List.forall_mem_singleton.2 hnew⟩
  · intro first hfirst second hsecond hlock hhas hhas'
    rcases List.mem_append.1 hfirst with hfirst | hfirst
    · rcases List.mem_append.1 hsecond with hsecond | hsecond
      · exact h.alone first hfirst second hsecond hlock hhas hhas'
      · rw [List.mem_singleton.1 hsecond] at hhas'
        exact absurd rfl hhas'
    · rw [List.mem_singleton.1 hfirst] at hhas
      exact absurd rfl hhas

/-! ## What the steps do to a task -/

theorem ticket?_ask (hnone : locks.ticket? task = none) {lock next : Nat}
    {registry : Table Nat} (other : Nat) :
    ({ locks with registry, next, tickets := locks.tickets ++ [⟨task, id, lock, .waiting⟩] } :
        Locks).ticket? other =
      if other = task then some ⟨task, id, lock, .waiting⟩ else locks.ticket? other := by
  unfold ticket? at hnone ⊢
  dsimp only
  rw [List.find?_append]
  by_cases heq : other = task
  · rw [if_pos heq, heq, hnone]
    simp
  · rw [if_neg heq]
    simp [Ne.symm heq]

/-- A task that asks waits; for the others nothing changes. -/
theorem request_cases (h : locks.Sound) (hstep : locks.request task id = some later) :
    later.Sound ∧ locks.ticket? task = none ∧
      ∃ lock, ∀ other, later.ticket? other =
        if other = task then some ⟨task, id, lock, .waiting⟩ else locks.ticket? other := by
  unfold request at hstep
  split at hstep
  · cases hstep
  · rename_i hnone
    have hnone : locks.ticket? task = none := Option.not_isSome_iff_eq_none.1 hnone
    cases hregistered : locks.registry.find? id with
    | some lock =>
        rw [hregistered] at hstep
        obtain rfl := Option.some.inj hstep
        exact ⟨h.ask hnone hregistered h.registered, hnone, lock, ticket?_ask hnone⟩
    | none =>
        rw [hregistered] at hstep
        obtain rfl := Option.some.inj hstep
        refine ⟨h.ask hnone ?_ fun ticket hticket => ?_, hnone, locks.next, ticket?_ask hnone⟩
        · rw [Table.find?_insert, if_pos rfl]
        · have hfound := h.registered ticket hticket
          have hne : ticket.id ≠ id := fun heq => by cases hfound.symm.trans (heq ▸ hregistered)
          rw [Table.find?_insert, if_neg hne]
          exact hfound

/-- A task to which a lock passes was waiting. -/
theorem grant_cases (h : locks.Sound) {lock : Nat} (hstep : locks.grant lock = some later) :
    later.Sound ∧ ∃ ticket, locks.ticket? ticket.task = some ticket ∧
      ticket.stage = .waiting ∧ ∀ other, later.ticket? other =
        if other = ticket.task then some { ticket with stage := .granted }
        else locks.ticket? other := by
  unfold grant at hstep
  split at hstep
  · cases hstep
  · rename_i hfree
    obtain ⟨ticket, hfirst, rfl⟩ := Option.map_eq_some_iff.1 hstep
    have hmem : ticket ∈ locks.tickets := List.mem_of_find?_eq_some hfirst
    have hlock : ticket.lock = lock := by simpa using List.find?_some hfirst
    have hwaiting : ∀ other ∈ locks.tickets, other.lock = lock → other.stage = .waiting := by
      intro other hother heq
      by_contra hhas
      exact hfree (List.any_eq_true.2 ⟨other, hother, by simp [heq, hhas]⟩)
    have hfound := ticket?_of_mem h hmem
    refine ⟨h.setStage hmem _ fun other hother heq hhas => ?_, ticket, hfound,
      hwaiting ticket hmem hlock, fun other => ?_⟩
    · exact absurd (hwaiting other hother (heq.trans hlock)) hhas
    · rw [ticket?_setStage]
      by_cases heq : other = ticket.task
      · rw [if_pos heq, if_pos heq, heq, hfound]
        rfl
      · rw [if_neg heq, if_neg heq]

/-- A task goes on once the lock has passed to it. -/
theorem resume_cases (h : locks.Sound) (hstep : locks.resume task = some later) :
    later.Sound ∧ ∃ ticket, locks.ticket? task = some ticket ∧ ticket.stage = .granted ∧
      ∀ other, later.ticket? other =
        if other = task then some { ticket with stage := .holding }
        else locks.ticket? other := by
  unfold resume at hstep
  split at hstep
  · rename_i owner id lock hfound
    obtain rfl := Option.some.inj hstep
    obtain ⟨hmem, rfl⟩ := mem_of_ticket? hfound
    refine ⟨h.setStage hmem _ fun other hother heq hhas => ?_, _, hfound, rfl, fun other => ?_⟩
    · exact h.alone other hother _ hmem heq hhas nofun
    · rw [ticket?_setStage]
      by_cases heq : other = owner
      · rw [if_pos heq, if_pos heq, heq, hfound]
        rfl
      · rw [if_neg heq, if_neg heq]
  · cases hstep

/-- A task that gives up did not go on yet. -/
theorem giveUp_cases (h : locks.Sound) (hstep : locks.giveUp task = some later) :
    later.Sound ∧ ∃ ticket, locks.ticket? task = some ticket ∧ ticket.stage ≠ .holding ∧
      ∀ other, later.ticket? other =
        if other = task then none else locks.ticket? other := by
  unfold giveUp at hstep
  split at hstep
  · cases hstep
  · rename_i ticket hholding hfound
    obtain rfl := Option.some.inj hstep
    refine ⟨h.withoutTask task, ticket, hfound, fun hstage => ?_, ticket?_withoutTask locks task⟩
    obtain ⟨owner, id, lock, stage⟩ := ticket
    obtain rfl : stage = .holding := hstage
    exact hholding owner id lock rfl
  · cases hstep

/-- A task that lets go of a lock had it. -/
theorem unlock_cases (h : locks.Sound) (hstep : locks.unlock task = some later) :
    later.Sound ∧ ∃ ticket, locks.ticket? task = some ticket ∧ ticket.stage = .holding ∧
      ∀ other, later.ticket? other =
        if other = task then none else locks.ticket? other := by
  unfold unlock at hstep
  split at hstep
  · rename_i owner id lock hfound
    obtain rfl := Option.some.inj hstep
    exact ⟨(h.withoutTask task).congr rfl rfl, _, hfound, rfl, ticket?_withoutTask locks task⟩
  · cases hstep

/-- Looking after the registry changes nothing for any task. -/
theorem sweep_cases (h : locks.Sound) (hstep : locks.sweep id = some later) :
    later.Sound ∧ ∀ other, later.ticket? other = locks.ticket? other := by
  unfold sweep at hstep
  split at hstep
  · cases hregistered : locks.registry.find? id with
    | none =>
        rw [hregistered] at hstep
        obtain rfl := Option.some.inj hstep
        exact ⟨h.congr rfl rfl, fun _ => rfl⟩
    | some lock =>
        simp only [hregistered] at hstep
        split at hstep
        · obtain rfl := Option.some.inj hstep
          exact ⟨h.congr rfl rfl, fun _ => rfl⟩
        · rename_i hunreferred
          obtain rfl := Option.some.inj hstep
          refine ⟨⟨h.once, fun ticket hticket => ?_, h.alone⟩, fun _ => rfl⟩
          have hfound := h.registered ticket hticket
          have hne : ticket.id ≠ id := fun heq => by
            have hlock : lock = ticket.lock :=
              Option.some.inj (hregistered.symm.trans (heq ▸ hfound))
            exact hunreferred (List.any_eq_true.2 ⟨ticket, hticket, by simp [hlock]⟩)
          rw [Table.find?_erase, if_neg hne]
          exact hfound
  · cases hstep

theorem Sound.after (h : locks.Sound) {step : LockStep} (hstep : locks.after step = some later) :
    later.Sound := by
  cases step with
  | request task id => exact (request_cases h hstep).1
  | grant lock => exact (grant_cases h hstep).1
  | resume task => exact (resume_cases h hstep).1
  | giveUp task => exact (giveUp_cases h hstep).1
  | unlock task => exact (unlock_cases h hstep).1
  | sweep id => exact (sweep_cases h hstep).1

theorem Sound.empty : Sound .empty := by
  constructor
  · exact List.nodup_nil
  · intro ticket hticket
    cases hticket
  · intro first hfirst
    cases hfirst

/-- Whatever the order of steps, a program has at most one task. -/
theorem Reachable.sound (h : locks.Reachable) : locks.Sound := by
  induction h with
  | start => exact .empty
  | step _ _ hstep ih => exact ih.after hstep

end ProgramQueue.Queue.Locks
