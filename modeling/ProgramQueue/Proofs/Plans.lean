import ProgramQueue.Plan
import ProgramQueue.Proofs.Progress

/-!
# What a plan is about

A plan names leaves that are waited for, each of them once.  An advance leaves a leaf
in the plan as it was, with the condition and with the step that follows, or takes it
out; what comes into the plan had not been started.
-/

namespace ProgramQueue

open List (Subperm)

namespace Action

@[simp]
theorem plan_init (action : Action) (place : Path) (following : Option Action) :
    action.plan .init place following = [] := by
  cases action <;> simp [plan]

@[simp]
theorem plan_done (action : Action) (failure : Option Failure)
    (snapshot : Option (List Effect)) (place : Path) (following : Option Action) :
    action.plan (.done failure snapshot) place following = [] := by
  cases action <;> simp [plan]

@[simp]
theorem plan_misfit (action : Action) (misfit : Misfit) (place : Path)
    (following : Option Action) : action.plan misfit.effect place following = [] :=
  plan_done _ _ _ _ _

@[simp]
theorem plan_await (action : Action) (condition : Condition) (place : Path)
    (following : Option Action) :
    action.plan (.await condition) place following =
      [(place, .await condition, following.filter hasPushPayload)] := by
  cases action <;> simp [plan]

/-- A sequence waits for what its running child waits for.  That child is followed by the
step that starts the next one, and the last child by what follows the sequence. -/
theorem plan_running {children : List Action} {index : Nat} {running : Action}
    (hrunning : children[index]? = some running) (status : Option Status) (child : Effect)
    (place : Path) (following : Option Action) :
    (seq children status).plan (.seq index child) place following =
      running.plan child (place ++ [.seq index])
        (children[index + 1]?.elim following firstLeaf?) := by
  suffices h : ∀ (rest : List Action) (skip : Nat) (place : Path), rest[skip]? = some running →
      planSeq rest skip child place following =
        running.plan child place (rest[skip + 1]?.elim following firstLeaf?) by
    rw [plan, h children index _ hrunning]
  intro rest
  induction rest with
  | nil => intro skip place h; simp at h
  | cons first rest ih =>
      intro skip place h
      cases skip with
      | zero =>
          obtain rfl : first = running := by simpa using h
          cases rest with
          | nil => rw [planSeq.eq_def]; rfl
          | cons sibling others => rw [planSeq.eq_def]; rfl
      | succ skip => rw [planSeq, ih skip place (by simpa using h), List.getElem?_cons_succ]

/-- What follows the running child of a sequence does not depend on how far it is. -/
theorem plan_seq {children : List Action} {index : Nat} {running : Action}
    (hrunning : children[index]? = some running) (status : Option Status)
    (following : Option Action) :
    ∃ after, ∀ child place, (seq children status).plan (.seq index child) place following =
      running.plan child (place ++ [.seq index]) after :=
  ⟨_, fun child place => plan_running hrunning status child place following⟩

theorem plan_seq_none {children : List Action} {index : Nat}
    (hnone : children[index]? = none) (status : Option Status) (child : Effect)
    (place : Path) (following : Option Action) :
    (seq children status).plan (.seq index child) place following = [] := by
  suffices h : ∀ (rest : List Action) (skip : Nat) (place : Path), rest[skip]? = none →
      planSeq rest skip child place following = [] by
    rw [plan, h children index _ hnone]
  intro rest
  induction rest with
  | nil => intro skip place _; rw [planSeq]
  | cons first rest ih =>
      intro skip place h
      cases skip with
      | zero => simp at h
      | succ skip => rw [planSeq, ih skip place (by simpa using h)]

theorem planPar_init (index : Nat) (children : List Action) (place : Path) :
    planPar index children (children.map fun _ => .init) place = [] := by
  induction children generalizing index with
  | nil => simp [planPar]
  | cons child rest ih =>
      rw [List.map_cons, planPar, plan_init, List.nil_append, ih]

@[simp]
theorem plan_opened (action : Action) (place : Path) (following : Option Action) :
    action.plan action.opened place following = [] := by
  cases action with
  | seq children status =>
      cases children with
      | nil => exact plan_seq_none rfl _ _ _ _
      | cons first rest =>
          have hfirst : (first :: rest)[0]? = some first := rfl
          obtain ⟨after, hafter⟩ := plan_seq hfirst status following
          rw [opened, hafter, plan_init]
  | par children status => rw [opened, plan, planPar_init]
  | step step status => exact plan_init _ _ _

/-! ## Entries -/

/-- An entry of a plan for an action at a place: a leaf below it that has been started,
its condition, and a step only if the push server can carry it out. -/
structure IsEntry (action : Action) (effect : Effect) (place : Path)
    (entry : Path × Effect × Option Action) : Prop where
  started : ∃ below, entry.1 = place ++ below ∧ below ∉ action.unstarted effect
  awaits : ∃ condition, entry.2.1 = .await condition
  carried : ∀ step, entry.2.2 = some step → step.hasPushPayload = true

theorem IsEntry.await (action : Action) (condition : Condition) (place : Path)
    (following : Option Action) :
    IsEntry action (.await condition) place
      (place, .await condition, following.filter hasPushPayload) where
  started := ⟨[], (List.append_nil place).symm, by simp⟩
  awaits := ⟨condition, rfl⟩
  carried _ hstep := (Option.filter_eq_some_iff.1 hstep).2

mutual

/-- All entries of a plan are such. -/
theorem isEntry_of_mem : (action : Action) → ∀ {effect : Effect} {place : Path}
    {following : Option Action} {entry : Path × Effect × Option Action},
    entry ∈ action.plan effect place following → IsEntry action effect place entry
  | seq children status, effect, place, following, entry, h => by
      cases effect with
      | seq index child =>
          rw [plan] at h
          obtain ⟨running, hrunning, hentry⟩ := isEntry_of_memSeq children h
          obtain ⟨below, hplace, hbelow⟩ := hentry.started
          refine ⟨⟨.seq index :: below, by rw [hplace]; simp, ?_⟩, hentry.awaits, hentry.carried⟩
          rw [unstarted_seq hrunning, List.mem_append, mem_leavesFrom]
          rintro (hhere | ⟨offset, other, leaf, -, heq, -⟩)
          · obtain ⟨leaf, hleaf, heq⟩ := List.mem_map.1 hhere
            exact hbelow (List.tail_eq_of_cons_eq heq ▸ hleaf)
          · have := Branch.seq.inj (List.head_eq_of_cons_eq heq)
            omega
      | par effects => simp [plan] at h
      | await condition =>
          rw [plan_await, List.mem_singleton] at h
          exact h ▸ IsEntry.await _ _ _ _
      | init => simp at h
      | done failure snapshot => simp at h
  | par children status, effect, place, following, entry, h => by
      cases effect with
      | par effects =>
          rw [plan] at h
          obtain ⟨offset, below, hplace, hbelow, hawaits, hcarried⟩ :=
            isEntry_of_memPar children h
          refine ⟨⟨.par offset :: below, ?_, ?_⟩, hawaits, hcarried⟩
          · rw [hplace, Nat.zero_add]
          · rwa [unstarted, ← Nat.zero_add offset]
      | seq index child => simp [plan] at h
      | await condition =>
          rw [plan_await, List.mem_singleton] at h
          exact h ▸ IsEntry.await _ _ _ _
      | init => simp at h
      | done failure snapshot => simp at h
  | step s status, effect, place, following, entry, h => by
      cases effect with
      | await condition =>
          rw [plan_await, List.mem_singleton] at h
          exact h ▸ IsEntry.await _ _ _ _
      | seq index child => simp [plan] at h
      | par effects => simp [plan] at h
      | init => simp at h
      | done failure snapshot => simp at h

theorem isEntry_of_memSeq : (children : List Action) → ∀ {skip : Nat} {child : Effect}
    {place : Path} {following : Option Action} {entry : Path × Effect × Option Action},
    entry ∈ planSeq children skip child place following →
      ∃ running, children[skip]? = some running ∧ IsEntry running child place entry
  | [], skip, child, place, following, entry, h => by simp [planSeq] at h
  | running :: rest, 0, child, place, following, entry, h => by
      rw [planSeq.eq_def] at h
      exact ⟨running, rfl, isEntry_of_mem running h⟩
  | first :: rest, skip + 1, child, place, following, entry, h => by
      rw [planSeq] at h
      obtain ⟨running, hrunning, hentry⟩ := isEntry_of_memSeq rest h
      exact ⟨running, by simpa using hrunning, hentry⟩

theorem isEntry_of_memPar : (children : List Action) → ∀ {index : Nat}
    {effects : List Effect} {place : Path} {entry : Path × Effect × Option Action},
    entry ∈ planPar index children effects place →
      ∃ offset below, entry.1 = place ++ .par (index + offset) :: below ∧
        .par (index + offset) :: below ∉ unstartedAll index children effects ∧
        (∃ condition, entry.2.1 = .await condition) ∧
        ∀ step, entry.2.2 = some step → step.hasPushPayload = true
  | [], index, effects, place, entry, h => by simp [planPar] at h
  | child :: children, index, [], place, entry, h => by simp [planPar] at h
  | child :: children, index, effect :: effects, place, entry, h => by
      rw [planPar, List.mem_append] at h
      obtain hfirst | hrest := h
      · have hentry := isEntry_of_mem child hfirst
        obtain ⟨below, hplace, hbelow⟩ := hentry.started
        refine ⟨0, below, by rw [hplace]; simp, ?_, hentry.awaits, hentry.carried⟩
        rw [unstartedAll, List.mem_append, Nat.add_zero]
        rintro (hhere | hlater)
        · obtain ⟨leaf, hleaf, heq⟩ := List.mem_map.1 hhere
          exact hbelow (List.tail_eq_of_cons_eq heq ▸ hleaf)
        · obtain ⟨offset, leaf, heq⟩ := mem_unstartedAll hlater
          have := Branch.par.inj (List.head_eq_of_cons_eq heq)
          omega
      · obtain ⟨offset, below, hplace, hbelow, hothers⟩ := isEntry_of_memPar children hrest
        have hshift : index + 1 + offset = index + (offset + 1) := by omega
        rw [hshift] at hplace hbelow
        refine ⟨offset + 1, below, hplace, ?_, hothers⟩
        rw [unstartedAll, List.mem_append]
        rintro (hhere | hlater)
        · obtain ⟨leaf, -, heq⟩ := List.mem_map.1 hhere
          have := Branch.par.inj (List.head_eq_of_cons_eq heq)
          omega
        · exact hbelow hlater

end

mutual

/-- No place is planned twice. -/
theorem plan_nodup : (action : Action) → ∀ (effect : Effect) (place : Path)
    (following : Option Action), ((action.plan effect place following).map Prod.fst).Nodup
  | seq children _, effect, place, following => by
      cases effect with
      | seq index child =>
          rw [plan]
          exact planSeq_nodup children index child _ following
      | par effects => simp [plan]
      | await condition => simp
      | init => simp
      | done failure snapshot => simp
  | par children _, effect, place, following => by
      cases effect with
      | par effects =>
          rw [plan]
          exact planPar_nodup children 0 effects place
      | seq index child => simp [plan]
      | await condition => simp
      | init => simp
      | done failure snapshot => simp
  | step _ _, effect, place, following => by
      cases effect <;> simp [plan]

theorem planSeq_nodup : (children : List Action) → ∀ (skip : Nat) (child : Effect)
    (place : Path) (following : Option Action),
    ((planSeq children skip child place following).map Prod.fst).Nodup
  | [], skip, child, place, following => by simp [planSeq]
  | running :: rest, 0, child, place, following => by
      rw [planSeq.eq_def]
      exact plan_nodup running child place _
  | _ :: rest, skip + 1, child, place, following => by
      rw [planSeq]
      exact planSeq_nodup rest skip child place following

theorem planPar_nodup : (children : List Action) → ∀ (index : Nat) (effects : List Effect)
    (place : Path), ((planPar index children effects place).map Prod.fst).Nodup
  | [], index, effects, place => by simp [planPar]
  | _ :: _, index, [], place => by simp [planPar]
  | child :: children, index, effect :: effects, place => by
      rw [planPar, List.map_append]
      refine List.Nodup.append (plan_nodup child effect _ none)
        (planPar_nodup children (index + 1) effects place) ?_
      intro path hfirst hrest
      obtain ⟨entry, hentry, rfl⟩ := List.mem_map.1 hfirst
      obtain ⟨other, hother, heq⟩ := List.mem_map.1 hrest
      obtain ⟨below, hbelow, -⟩ := (isEntry_of_mem child hentry).started
      obtain ⟨offset, leaf, hleaf, -⟩ := isEntry_of_memPar children hother
      rw [hbelow, hleaf, List.append_assoc, List.append_cancel_left_eq] at heq
      have := Branch.par.inj (List.head_eq_of_cons_eq heq)
      omega

end

/-! ## What an advance leaves in the plan -/

/-- A planned deadline lies some time after a reading of the clock. -/
def Timed (log : Log Journaled) (awaited : Effect) : Prop :=
  ∀ timestamp, awaited = .await (.unixtime timestamp) →
    ∃ now ms, (⟨.ask .clock, now⟩ : Answered Journaled) ∈ log ∧
      timestamp = Step.addMillis now ms

theorem Timed.left {first : Log Journaled} {awaited : Effect} (h : Timed first awaited)
    (later : Log Journaled) : Timed (first ++ later) awaited := fun timestamp heq => by
  obtain ⟨now, ms, hmem, htime⟩ := h timestamp heq
  exact ⟨now, ms, List.mem_append_left _ hmem, htime⟩

theorem Timed.right {later : Log Journaled} {awaited : Effect} (h : Timed later awaited)
    (first : Log Journaled) : Timed (first ++ later) awaited := fun timestamp heq => by
  obtain ⟨now, ms, hmem, htime⟩ := h timestamp heq
  exact ⟨now, ms, List.mem_append_right _ hmem, htime⟩

/-- What is planned was planned before, or it had not been started; then a deadline
was set by the clock. -/
def Plans (_site : Site) (action : Action) (effect : Effect) (log : Log Journaled)
    (next : Effect) : Prop :=
  ∀ place following, ∀ entry ∈ action.plan next place following,
    entry ∈ action.plan effect place following ∨
      Timed log entry.2.1 ∧ ∃ below ∈ action.unstarted effect, entry.1 = place ++ below

theorem Alongside.plans {site : Site} {index : Nat} {children : List Action}
    {effects nexts : List Effect} {log : Log Journaled}
    (h : Alongside Plans site index children effects log nexts) (place : Path) :
    ∀ entry ∈ planPar index children nexts place,
      entry ∈ planPar index children effects place ∨
        Timed log entry.2.1 ∧
          ∃ below ∈ unstartedAll index children effects, entry.1 = place ++ below := by
  induction h with
  | nil => intro entry hentry; simp [planPar] at hentry
  | @cons index child children effect next effects nexts log later first rest ih =>
      intro entry hentry
      rw [planPar, List.mem_append] at hentry
      rw [planPar, List.mem_append, unstartedAll]
      obtain hfirst | hrest := hentry
      · obtain hbefore | ⟨htimed, below, hbelow, heq⟩ := first _ _ entry hfirst
        · exact Or.inl (Or.inl hbefore)
        · refine Or.inr ⟨htimed.left _, .par index :: below, ?_, by rw [heq]; simp⟩
          exact List.mem_append_left _ (List.mem_map_of_mem hbelow)
      · obtain hbefore | ⟨htimed, below, hbelow, heq⟩ := ih entry hrest
        · exact Or.inl (Or.inr hbefore)
        · exact Or.inr ⟨htimed.right _, below, List.mem_append_right _ hbelow, heq⟩

/-- A sequence whose running child is over waits for nothing. -/
theorem plan_afterChild_done {children : List Action} {status : Option Status} {index : Nat}
    {next : Effect} (hdone : next.isDone = true) (place : Path) (following : Option Action) :
    (seq children status).plan (.afterChild children.length index next) place following =
      [] := by
  obtain ⟨failure, snapshot, rfl⟩ := Effect.isDone_iff.1 hdone
  cases failure with
  | some failure => rw [Effect.afterChild_failed, plan_done]
  | none =>
      rw [Effect.afterChild_completed]
      split
      · exact plan_done _ _ _ _ _
      · have hlater : index + 1 < children.length := by omega
        obtain ⟨after, hafter⟩ :=
          plan_seq (List.getElem?_eq_getElem hlater) status following
        rw [hafter, plan_init]

/-- Every advance leaves the plan as it was, apart from leaves that it starts. -/
theorem plans (inlineCap : Nat) : AdvanceCases inlineCap Plans where
  ended site action failure snapshot place following entry hentry := Or.inl hentry
  misfit site action effect misfit place following entry hentry := by simp at hentry
  empty site action effect _ place following entry hentry := by
    simp [Effect.completed] at hentry
  opens site action log next h place following entry hentry := by
    obtain hbefore | hstarted := h place following entry hentry
    · simp at hbefore
    · rw [unstarted_opened] at hstarted
      rw [unstarted_init]
      exact Or.inr hstarted
  execute site step status log next h place following entry hentry := by
    obtain ⟨inner, outer, result, rfl, hrelayed, hstart, rfl⟩ := Step.follows_execute h
    obtain ⟨failure, heq⟩ | ⟨condition, heq, htimed⟩ := Effect.ofStart_cases hstart
    · simp [heq] at hentry
    · rw [heq, plan_await, List.mem_singleton] at hentry
      obtain rfl := hentry
      refine Or.inr ⟨fun timestamp hdeadline => ?_, [], by simp [leaves], by simp⟩
      obtain ⟨now, ms, hmem, htime⟩ := htimed timestamp (Effect.await.inj hdeadline)
      obtain ⟨given, hgiven, rfl⟩ := hrelayed.mem hmem
      refine ⟨_, ms, ?_, htime⟩
      exact List.mem_append_left _ (List.mem_cons_of_mem _ hgiven)
  recheck site step status condition log next h place following entry hentry := by
    obtain ⟨inner, outer, result, -, -, -, rfl⟩ := Condition.follows_recheck h
    obtain ⟨failure, heq⟩ | heq := Effect.ofCheck_cases (.await condition) result
    · simp [heq] at hentry
    · rw [heq] at hentry
      exact Or.inl hentry
  seq site children status index running child log next hrunning h place following
      entry hentry := by
    obtain ⟨after, hafter⟩ := plan_seq hrunning status following
    cases hdone : next.isDone with
    | false =>
        rw [Effect.afterChild_pending hdone, hafter] at hentry
        rw [hafter, unstarted_seq hrunning]
        refine (h _ _ entry hentry).imp_right ?_
        rintro ⟨htimed, below, hbelow, heq⟩
        refine ⟨htimed, .seq index :: below, ?_, by rw [heq]; simp⟩
        exact List.mem_append_left _ (List.mem_map_of_mem hbelow)
    | true => rw [plan_afterChild_done hdone] at hentry; cases hentry
  par site children status effects log nexts h place following entry hentry := by
    rw [plan, unstarted]
    refine h.plans place entry ?_
    obtain ⟨failure, -, heq⟩ | ⟨-, -, heq⟩ | ⟨-, -, heq⟩ := Effect.afterChildren_cases nexts
    · simp [heq] at hentry
    · simp [heq, Effect.completed] at hentry
    · rwa [heq, plan] at hentry

end Action

end ProgramQueue
