import ProgramQueue.Proofs.Locking

/-!
# Which locks stay registered

A lock is registered while any task waits for it or has it.  When nobody does and the
registry has been looked after, the lock is not registered any more, unless the last task
that wanted it gave up after that: whoever gives up looks after nothing, so such a lock is
left over until its id is asked for again.
-/

namespace ProgramQueue.Queue

/-- A task asks for the lock of an id, or the registration of the id is looked after. -/
def LockStep.concerns (id : String) : LockStep → Bool
  | .request _ other => other = id
  | .sweep other => other = id
  | _ => false

namespace Locks

/-! ## Steps in any order of the tasks -/

/-- A step is taken.  Tasks may have come to wait in another order than they asked, so a lock
passes to any one of those that wait for it. -/
def Leads (before : Locks) (step : LockStep) (later : Locks) : Prop :=
  ∃ tickets, tickets.Perm before.tickets ∧ { before with tickets }.after step = some later

/-- Locks that some order of steps, and of the tasks that wait, leads to. -/
inductive Arises : Locks → Prop
  | start : Arises .empty
  | step {before later : Locks} {step : LockStep} :
      Arises before → before.Leads step later → Arises later

/-- The last task that wanted the lock of an id gave up, and since then neither was the lock
asked for nor the registration of the id looked after. -/
inductive Forsaken (id : String) : Locks → Prop
  | leave {before later : Locks} {ticket : LockTicket} :
      before.Arises → ticket ∈ before.tickets → ticket.id = id →
      before.Leads (.giveUp ticket.task) later → later.isWanted id = false → Forsaken id later
  | stay {before later : Locks} {step : LockStep} :
      Forsaken id before → step.concerns id = false → before.Leads step later →
      Forsaken id later

variable {locks before later : Locks} {ticket : LockTicket} {tickets : List LockTicket}
  {step : LockStep} {task : Nat} {id : String}

/-! ## What a step makes of the locks -/

/-- The locks after each kind of step. -/
inductive Becomes (locks : Locks) : LockStep → Locks → Prop
  | joined {task lock : Nat} {id : String} (hfound : locks.registry.find? id = some lock) :
      Becomes locks (.request task id)
        { locks with tickets := locks.tickets ++ [⟨task, id, lock, .waiting⟩] }
  | opened {task : Nat} {id : String} (hnone : locks.registry.find? id = none) :
      Becomes locks (.request task id)
        { locks with
          registry := locks.registry.insert id locks.next
          tickets := locks.tickets ++ [⟨task, id, locks.next, .waiting⟩]
          next := locks.next + 1 }
  | granted {lock task : Nat} : Becomes locks (.grant lock) (locks.setStage task .granted)
  | resumed {task : Nat} : Becomes locks (.resume task) (locks.setStage task .holding)
  | gaveUp {ticket : LockTicket} (hmem : ticket ∈ locks.tickets) :
      Becomes locks (.giveUp ticket.task) (locks.withoutTask ticket.task)
  | unlocked {ticket : LockTicket} (hmem : ticket ∈ locks.tickets) :
      Becomes locks (.unlock ticket.task)
        { locks.withoutTask ticket.task with outstanding := ticket.id :: locks.outstanding }
  | kept {id : String}
      (hreferred : ∀ lock, locks.registry.find? id = some lock → locks.isReferred lock = true) :
      Becomes locks (.sweep id) { locks with outstanding := locks.outstanding.erase id }
  | dropped {id : String} {lock : Nat} (hfound : locks.registry.find? id = some lock)
      (hunreferred : locks.isReferred lock = false) :
      Becomes locks (.sweep id)
        { locks with
          registry := locks.registry.erase id
          outstanding := locks.outstanding.erase id }

theorem becomes_of_after (h : locks.after step = some later) : locks.Becomes step later := by
  cases step with
  | request task id =>
      simp only [after, request] at h
      split at h
      · cases h
      · split at h
        · obtain rfl := Option.some.inj h
          exact .joined ‹_›
        · obtain rfl := Option.some.inj h
          exact .opened ‹_›
  | grant lock =>
      simp only [after, grant] at h
      split at h
      · cases h
      · obtain ⟨ticket, -, rfl⟩ := Option.map_eq_some_iff.1 h
        exact .granted
  | resume task =>
      simp only [after, resume] at h
      split at h
      · obtain rfl := Option.some.inj h
        exact .resumed
      · cases h
  | giveUp task =>
      simp only [after, giveUp] at h
      split at h
      · cases h
      · rename_i hfound
        obtain rfl := Option.some.inj h
        obtain ⟨hmem, rfl⟩ := mem_of_ticket? hfound
        exact .gaveUp hmem
      · cases h
  | unlock task =>
      simp only [after, unlock] at h
      split at h
      · rename_i hfound
        obtain rfl := Option.some.inj h
        obtain ⟨hmem, rfl⟩ := mem_of_ticket? hfound
        exact .unlocked hmem
      · cases h
  | sweep id =>
      simp only [after, sweep] at h
      split at h
      · split at h
        · rename_i lock hfound
          split at h
          · rename_i hreferred
            obtain rfl := Option.some.inj h
            exact .kept fun other hother =>
              Option.some.inj (hfound.symm.trans hother) ▸ hreferred
          · rename_i hunreferred
            obtain rfl := Option.some.inj h
            exact .dropped hfound (Bool.eq_false_iff.2 hunreferred)
        · rename_i hnone
          obtain rfl := Option.some.inj h
          exact .kept fun lock hfound => by cases hnone.symm.trans hfound
      · cases h

/-! ## Locks are told apart by their numbers -/

/-- No lock is registered under two ids. -/
structure Numbered (locks : Locks) : Prop where
  distinct : ∀ first second lock, locks.registry.find? first = some lock →
    locks.registry.find? second = some lock → first = second
  past : ∀ id lock, locks.registry.find? id = some lock → lock < locks.next

theorem Numbered.withTickets (h : locks.Numbered) (tickets : List LockTicket) :
    Numbered { locks with tickets } := ⟨h.distinct, h.past⟩

theorem Numbered.after (h : locks.Numbered) (hstep : locks.after step = some later) :
    later.Numbered := by
  cases becomes_of_after hstep with
  | joined | granted | resumed | gaveUp | unlocked | kept => exact ⟨h.distinct, h.past⟩
  | @opened task id hnone =>
      have hfind {other : String} {lock : Nat}
          (hother : (locks.registry.insert id locks.next).find? other = some lock) :
          other = id ∧ lock = locks.next ∨
            locks.registry.find? other = some lock ∧ lock < locks.next := by
        rw [Table.find?_insert] at hother
        split at hother
        · exact .inl ⟨‹_›, (Option.some.inj hother).symm⟩
        · exact .inr ⟨hother, h.past other lock hother⟩
      constructor
      · intro first second lock hfirst hsecond
        -- a new lock has a number that no older one has
        rcases hfind hfirst with ⟨rfl, rfl⟩ | ⟨hfirst, hlt⟩
        · rcases hfind hsecond with ⟨rfl, -⟩ | ⟨-, hlt⟩
          · rfl
          · exact absurd hlt (Nat.lt_irrefl _)
        · rcases hfind hsecond with ⟨-, rfl⟩ | ⟨hsecond, -⟩
          · exact absurd hlt (Nat.lt_irrefl _)
          · exact h.distinct first second lock hfirst hsecond
      · intro other lock hother
        rcases hfind hother with ⟨-, rfl⟩ | ⟨-, hlt⟩
        · exact Nat.lt_succ_self _
        · exact Nat.lt_succ_of_lt hlt
  | @dropped id lock hfound hunreferred =>
      have hfind {other : String} {lock : Nat}
          (hother : (locks.registry.erase id).find? other = some lock) :
          locks.registry.find? other = some lock := by
        rw [Table.find?_erase] at hother
        split at hother
        · cases hother
        · exact hother
      constructor
      · intro first second lock hfirst hsecond
        exact h.distinct first second lock (hfind hfirst) (hfind hsecond)
      · intro other lock hother
        exact h.past other lock (hfind hother)

theorem Sound.perm (h : locks.Sound) (hperm : tickets.Perm locks.tickets) :
    Sound { locks with tickets } := by
  constructor
  · exact (hperm.map _).nodup_iff.2 h.once
  · intro ticket hmem
    exact h.registered ticket (hperm.mem_iff.1 hmem)
  · intro first hfirst second hsecond
    exact h.alone first (hperm.mem_iff.1 hfirst) second (hperm.mem_iff.1 hsecond)

theorem Arises.sound (h : locks.Arises) : locks.Sound := by
  induction h with
  | start => exact .empty
  | step _ hstep ih =>
      obtain ⟨tickets, hperm, hafter⟩ := hstep
      exact (ih.perm hperm).after hafter

theorem Arises.numbered (h : locks.Arises) : locks.Numbered := by
  induction h with
  | start => exact ⟨nofun, nofun⟩
  | step _ hstep ih =>
      obtain ⟨tickets, hperm, hafter⟩ := hstep
      exact (ih.withTickets tickets).after hafter

/-! ## What a step means for one id -/

theorem isWanted_iff : locks.isWanted id = true ↔ ∃ ticket ∈ locks.tickets, ticket.id = id := by
  simp [isWanted]

theorem isWanted_setStage (locks : Locks) (task : Nat) (stage : LockStage) (id : String) :
    (locks.setStage task stage).isWanted id = locks.isWanted id := by
  unfold isWanted setStage
  rw [List.any_map]
  congr 1
  funext ticket
  dsimp only [Function.comp]
  split <;> rfl

/-- A task that drops its reference is missed only for the id that it referred to. -/
theorem isWanted_withoutTask (h : locks.Sound) (hmem : ticket ∈ locks.tickets)
    (hid : ticket.id ≠ id) : (locks.withoutTask ticket.task).isWanted id = locks.isWanted id := by
  rw [Bool.eq_iff_iff, isWanted_iff, isWanted_iff]
  constructor
  · rintro ⟨other, hother, rfl⟩
    exact ⟨other, List.mem_of_mem_filter hother, rfl⟩
  · rintro ⟨other, hother, rfl⟩
    refine ⟨other, List.mem_filter.2 ⟨hother, bne_iff_ne.2 fun htask => hid ?_⟩, rfl⟩
    rw [List.inj_on_of_nodup_map h.once hmem hother htask.symm]

/-- The lock that is registered for an id is referred to only by tasks that want the id. -/
theorem isWanted_of_isReferred (h : locks.Sound) (hnumbered : locks.Numbered) {lock : Nat}
    (hfound : locks.registry.find? id = some lock) (hreferred : locks.isReferred lock = true) :
    locks.isWanted id = true := by
  obtain ⟨ticket, hmem, hlock⟩ := List.any_eq_true.1 hreferred
  obtain rfl : ticket.lock = lock := of_decide_eq_true hlock
  exact isWanted_iff.2 ⟨ticket, hmem,
    hnumbered.distinct _ _ _ (h.registered ticket hmem) hfound⟩

/-- Locks that are the same for an id. -/
structure Agree (id : String) (locks later : Locks) : Prop where
  registry : later.registry.find? id = locks.registry.find? id
  wanted : later.isWanted id = locks.isWanted id
  outstanding : id ∈ later.outstanding ↔ id ∈ locks.outstanding

/-- What a step means for an id. -/
inductive Bears (id : String) (locks later : Locks) : LockStep → Prop
  | asked {task : Nat} (hwanted : later.isWanted id = true) :
      Bears id locks later (.request task id)
  | gaveUp {ticket : LockTicket} (hmem : ticket ∈ locks.tickets) (hid : ticket.id = id)
      (hregistry : later.registry = locks.registry) : Bears id locks later (.giveUp ticket.task)
  | unlocked {task : Nat} (hwanted : locks.isWanted id = true)
      (houtstanding : id ∈ later.outstanding) : Bears id locks later (.unlock task)
  | swept (hwanted : (later.registry.find? id).isSome = true → later.isWanted id = true) :
      Bears id locks later (.sweep id)
  | aside {step : LockStep} (hother : step.concerns id = false) (hagree : Agree id locks later) :
      Bears id locks later step

theorem bears_of_after (h : locks.Sound) (hnumbered : locks.Numbered)
    (hstep : locks.after step = some later) (id : String) : Bears id locks later step := by
  cases becomes_of_after hstep with
  | @joined task lock other hfound =>
      by_cases heq : other = id
      · obtain rfl := heq
        exact .asked (isWanted_iff.2 ⟨_, List.mem_concat_self, rfl⟩)
      · refine .aside (decide_eq_false heq) ⟨rfl, ?_, Iff.rfl⟩
        simp [isWanted, heq]
  | @opened task other hnone =>
      by_cases heq : other = id
      · obtain rfl := heq
        exact .asked (isWanted_iff.2 ⟨_, List.mem_concat_self, rfl⟩)
      · refine .aside (decide_eq_false heq) ⟨?_, ?_, Iff.rfl⟩
        · rw [Table.find?_insert, if_neg (Ne.symm heq)]
        · simp [isWanted, heq]
  | granted => exact .aside rfl ⟨rfl, isWanted_setStage locks _ _ id, Iff.rfl⟩
  | resumed => exact .aside rfl ⟨rfl, isWanted_setStage locks _ _ id, Iff.rfl⟩
  | @gaveUp ticket hmem =>
      by_cases hid : ticket.id = id
      · exact .gaveUp hmem hid rfl
      · exact .aside rfl ⟨rfl, isWanted_withoutTask h hmem hid, Iff.rfl⟩
  | @unlocked ticket hmem =>
      by_cases hid : ticket.id = id
      · obtain rfl := hid
        exact .unlocked (isWanted_iff.2 ⟨ticket, hmem, rfl⟩) List.mem_cons_self
      · refine .aside rfl ⟨rfl, isWanted_withoutTask h hmem hid, ?_⟩
        exact List.mem_cons.trans (or_iff_right (Ne.symm hid))
  | @kept other hreferred =>
      by_cases heq : other = id
      · obtain rfl := heq
        refine .swept fun hsome => ?_
        obtain ⟨lock, hfound⟩ := Option.isSome_iff_exists.1 hsome
        have hwanted : locks.isWanted other = true :=
          isWanted_of_isReferred h hnumbered hfound (hreferred lock hfound)
        exact hwanted
      · exact .aside (decide_eq_false heq) ⟨rfl, rfl, List.mem_erase_of_ne (Ne.symm heq)⟩
  | @dropped other lock hfound hunreferred =>
      by_cases heq : other = id
      · obtain rfl := heq
        refine .swept fun hsome => ?_
        rw [Table.find?_erase, if_pos rfl] at hsome
        cases hsome
      · refine .aside (decide_eq_false heq) ⟨?_, rfl, List.mem_erase_of_ne (Ne.symm heq)⟩
        rw [Table.find?_erase, if_neg (Ne.symm heq)]

/-- The same holds of a step that is taken with the tasks in another order. -/
theorem Arises.bears (h : before.Arises) (hstep : before.Leads step later) (id : String) :
    Bears id before later step := by
  obtain ⟨tickets, hperm, hafter⟩ := hstep
  have hnumbered := h.numbered.withTickets tickets
  have hsame : ({ before with tickets } : Locks).isWanted id = before.isWanted id :=
    hperm.any_eq
  cases bears_of_after (h.sound.perm hperm) hnumbered hafter id with
  | asked hwanted => exact .asked hwanted
  | gaveUp hmem hid hregistry => exact .gaveUp (hperm.mem_iff.1 hmem) hid hregistry
  | unlocked hwanted houtstanding => exact .unlocked (hsame ▸ hwanted) houtstanding
  | swept hwanted => exact .swept hwanted
  | aside hother hagree =>
      exact .aside hother ⟨hagree.registry, hagree.wanted.trans hsame, hagree.outstanding⟩

/-! ## Locks that are left over -/

theorem isSome_of_isWanted (h : locks.Sound) (hwanted : locks.isWanted id = true) :
    (locks.registry.find? id).isSome = true := by
  obtain ⟨ticket, hmem, rfl⟩ := isWanted_iff.1 hwanted
  rw [h.registered ticket hmem]
  rfl

theorem Forsaken.arises (h : locks.Forsaken id) : locks.Arises := by
  induction h with
  | leave harises _ _ hstep _ => exact harises.step hstep
  | stay _ _ hstep ih => exact ih.step hstep

/-- Nobody wants the lock of a forsaken id, yet it stays registered. -/
theorem Forsaken.left_over (h : locks.Forsaken id) :
    locks.isWanted id = false ∧ (locks.registry.find? id).isSome = true := by
  induction h with
  | @leave before later ticket harises hmem hid hstep hunwanted =>
      have hwanted : before.isWanted id = true := isWanted_iff.2 ⟨ticket, hmem, hid⟩
      have hsome := isSome_of_isWanted harises.sound hwanted
      refine ⟨hunwanted, ?_⟩
      generalize hgiven : LockStep.giveUp ticket.task = step at hstep
      cases harises.bears hstep id with
      | gaveUp _ _ hregistry => rwa [hregistry]
      | aside _ hagree => rwa [hagree.registry]
      | asked | unlocked | swept => cases hgiven
  | @stay before later step hforsaken hother hstep ih =>
      obtain ⟨hunwanted, hsome⟩ := ih
      cases hforsaken.arises.bears hstep id with
      | asked | swept => cases hother.symm.trans (decide_eq_true rfl)
      | gaveUp hmem hid _ =>
          cases hunwanted.symm.trans (isWanted_iff.2 ⟨_, hmem, hid⟩)
      | unlocked hwanted _ => cases hunwanted.symm.trans hwanted
      | aside _ hagree => exact ⟨hagree.wanted.trans hunwanted, by rwa [hagree.registry]⟩

/-- A lock that is registered though nobody wants it is still to be looked after, or the last
task that wanted it gave up. -/
theorem Arises.unwanted_cases (h : locks.Arises) (hsome : (locks.registry.find? id).isSome = true)
    (hunwanted : locks.isWanted id = false) : id ∈ locks.outstanding ∨ locks.Forsaken id := by
  -- whoever leaves last either lets go, and then the id is outstanding, or gives up
  induction h with
  | start => cases hsome
  | @step before later step harises hstep ih =>
      cases harises.bears hstep id with
      | asked hwanted => cases hunwanted.symm.trans hwanted
      | gaveUp hmem hid _ => exact .inr (.leave harises hmem hid hstep hunwanted)
      | unlocked _ houtstanding => exact .inl houtstanding
      | swept hwanted => cases hunwanted.symm.trans (hwanted hsome)
      | aside hother hagree =>
          rcases ih (hagree.registry ▸ hsome) (hagree.wanted ▸ hunwanted) with
            houtstanding | hforsaken
          · exact .inl (hagree.outstanding.2 houtstanding)
          · exact .inr (.stay hforsaken hother hstep)

/-- Once the registration of an id was looked after, a lock is registered for it if some task
waits for the lock or has it, or if the last task that did gave up, and in no other case.  With
no task left the registry is empty unless some id is forsaken. -/
theorem Arises.registered_iff (h : locks.Arises) :
    (∀ id ∉ locks.outstanding,
      ((locks.registry.find? id).isSome = true ↔
        locks.isWanted id = true ∨ locks.Forsaken id) ∧
      ¬(locks.isWanted id = true ∧ locks.Forsaken id)) ∧
    (locks.outstanding = [] → locks.tickets = [] →
      (locks.registry = .empty ↔ ∀ id, ¬locks.Forsaken id)) := by
  have hexact (id : String) (hdone : id ∉ locks.outstanding) :
      (locks.registry.find? id).isSome = true ↔
        locks.isWanted id = true ∨ locks.Forsaken id := by
    constructor
    · intro hsome
      cases hwanted : locks.isWanted id with
      | true => exact .inl rfl
      | false => exact .inr ((h.unwanted_cases hsome hwanted).resolve_left hdone)
    · rintro (hwanted | hforsaken)
      · exact isSome_of_isWanted h.sound hwanted
      · exact hforsaken.left_over.2
  refine ⟨fun id hdone => ⟨hexact id hdone, ?_⟩, fun hdone hnobody => ⟨?_, ?_⟩⟩
  · rintro ⟨hwanted, hforsaken⟩
    cases hforsaken.left_over.1.symm.trans hwanted
  · intro hempty id hforsaken
    have hsome := hforsaken.left_over.2
    rw [hempty] at hsome
    cases hsome
  · intro hkept
    refine Table.ext_find? fun id => Option.not_isSome_iff_eq_none.1 fun hsome => ?_
    rcases (hexact id (hdone ▸ List.not_mem_nil)).1 hsome with hwanted | hforsaken
    · obtain ⟨ticket, hmem, -⟩ := isWanted_iff.1 hwanted
      cases hnobody ▸ hmem
    · exact hkept id hforsaken

/-! ## A run that leaves a lock over -/

theorem Reachable.arises (h : locks.Reachable) : locks.Arises := by
  induction h with
  | start => exact .start
  | step _ _ hstep ih => exact ih.step ⟨_, .rfl, hstep⟩

/-- What a run of steps leads to can be reached. -/
theorem Reachable.run (h : locks.Reachable) (steps : List LockStep)
    (hrun : steps.foldlM after locks = some later) : later.Reachable := by
  induction steps generalizing locks with
  | nil =>
      obtain rfl := Option.some.inj hrun
      exact h
  | cons step rest ih =>
      rw [List.foldlM_cons] at hrun
      obtain ⟨next, hstep, hrest⟩ := Option.bind_eq_some_iff.1 hrun
      exact ih (h.step step hstep) hrest

/-- A task has the lock of a program and another waits for it.  The first lets go of the lock,
which passes to the second, and looks after the registry, which keeps the lock for the second.
The second gives up before it has noticed that it has the lock. -/
def desertion : List LockStep :=
  [.request 1 "p1", .grant 0, .resume 1, .request 2 "p1", .unlock 1, .grant 0, .sweep "p1",
    .giveUp 2]

/-- The locks after the second task gave up. -/
def deserted : Locks := ⟨Table.empty.insert "p1" 0, [], [], 1⟩

/-- The same with a third task that waits for the lock of another program. -/
def visited : Locks :=
  ⟨(Table.empty.insert "p1" 0).insert "p2" 1, [⟨3, "p2", 1, .waiting⟩], [], 2⟩

theorem deserted_reachable : deserted.Reachable :=
  Reachable.start.run desertion rfl

theorem visited_reachable : visited.Reachable :=
  deserted_reachable.step (.request 3 "p2") rfl

/-- The lock that was given up is the only one that is left over, whether or not another is
waited for. -/
theorem first_left_over :
    (visited.Forsaken "p1" ∧ ¬visited.Forsaken "p2" ∧ ¬visited.Forsaken "p3") ∧
      ∃ id, deserted.Forsaken id := by
  obtain ⟨hids, -⟩ := Arises.registered_iff visited_reachable.arises
  obtain ⟨-, hnobody⟩ := Arises.registered_iff deserted_reachable.arises
  refine ⟨⟨?_, ?_, ?_⟩, ?_⟩
  · exact ((hids "p1" List.not_mem_nil).1.1 rfl).resolve_left (by decide)
  · exact fun hforsaken => (hids "p2" List.not_mem_nil).2 ⟨rfl, hforsaken⟩
  · exact fun hforsaken => absurd ((hids "p3" List.not_mem_nil).1.2 (.inr hforsaken)) (by decide)
  · by_contra hkept
    have hempty := (hnobody rfl rfl).2 (not_exists.1 hkept)
    exact absurd hempty (by decide)

/-- Nobody wants any lock and the registry has been looked after, yet it is not empty. -/
theorem deserted_stays_registered :
    desertion.foldlM after .empty = some deserted ∧ deserted.outstanding = [] ∧
      ¬((deserted.registry.find? "p1").isSome = true ↔ deserted.isWanted "p1" = true) ∧
      deserted.tickets = [] ∧ deserted.registry ≠ .empty :=
  ⟨rfl, rfl, by decide, rfl, by decide⟩

end Locks
end ProgramQueue.Queue
