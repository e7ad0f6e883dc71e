import ProgramQueue.Proofs.Drives
import ProgramQueue.Proofs.Launches

/-!
# Driving a program to its end

If every step that is started succeeds and every condition that is checked is met, a
program that is driven long enough completes: it starts each leaf that was left, and
those that come before another in a sequence before it.  A leaf takes two advances and a
node without children takes one.
-/

namespace ProgramQueue

open ProgramQueue.Task (Follows follows_pure follows_bind follows_run)
open List (Subperm Perm)

namespace Journal

/-- Every step that is started succeeds, and every condition that is checked is met.  What
stands after the start of a leaf is what it came to; any other leaf was checked. -/
def Smooth : Journal → Prop
  | [] => True
  | .execute _ :: .leaf _ next :: rest => next.failure? = none ∧ Smooth rest
  | .leaf _ next :: rest => next = .completed ∧ Smooth rest
  | _ :: rest => Smooth rest

end Journal

namespace Action

/-! ## The work that is left -/

mutual

/-- How many nodes there are that could have children and have none. -/
def empties : Action → Nat
  | seq children _ => if children.isEmpty then 1 else emptiesAll children
  | par children _ => if children.isEmpty then 1 else emptiesAll children
  | step _ _ => 0

def emptiesAll : List Action → Nat
  | [] => 0
  | child :: rest => empties child + emptiesAll rest

end

/-- The advances that an action takes at most. -/
def work (action : Action) : Nat := 2 * action.leaves.length + action.empties

def workAll : List Action → Nat
  | [] => 0
  | child :: rest => child.work + workAll rest

mutual

/-- The advances that an action still takes at most. -/
def remaining : Action → Effect → Nat
  | action, .init => action.work
  | seq children _, .seq index child => remainingSeq children index child
  | par children _, .par effects => remainingAll children effects
  | _, .await _ => 1
  | _, _ => 0

/-- The same for the children of a sequence, of which so many are over. -/
def remainingSeq : List Action → Nat → Effect → Nat
  | [], _, _ => 0
  | running :: rest, 0, child => remaining running child + workAll rest
  | _ :: rest, skip + 1, child => remainingSeq rest skip child

def remainingAll : List Action → List Effect → Nat
  | child :: children, effect :: effects => remaining child effect + remainingAll children effects
  | _, _ => 0

end

theorem work_children (turn : Nat → Branch) (index : Nat) (children : List Action) :
    2 * (leavesFrom turn index children).length + emptiesAll children = workAll children := by
  induction children generalizing index with
  | nil => simp [leavesFrom, emptiesAll, workAll]
  | cons child rest ih =>
      have hrest := ih (index + 1)
      simp only [workAll, leavesFrom, List.length_append,
        List.length_map, emptiesAll, work] at hrest ⊢
      omega

theorem workAll_append (front back : List Action) :
    workAll (front ++ back) = workAll front + workAll back := by
  induction front with
  | nil => exact (Nat.zero_add _).symm
  | cons child rest ih => rw [List.cons_append, workAll, workAll, ih, Nat.add_assoc]

theorem work_seq {children : List Action} (hsome : children ≠ []) (status : Option Status) :
    (seq children status).work = workAll children := by
  rw [work, leaves, empties, if_neg (by simpa using hsome), work_children]

theorem work_par {children : List Action} (hsome : children ≠ []) (status : Option Status) :
    (par children status).work = workAll children := by
  rw [work, leaves, empties, if_neg (by simpa using hsome), work_children]

theorem work_step (s : Step) (status : Option Status) : (step s status).work = 2 := by
  simp [work, leaves, empties]

theorem work_pos : (action : Action) → 0 < action.work
  | seq [] status => by simp [work, empties]
  | seq (first :: rest) status => by
      rw [work_seq (List.cons_ne_nil _ _), workAll]
      exact Nat.add_pos_left (work_pos first) _
  | par [] status => by simp [work, empties]
  | par (first :: rest) status => by
      rw [work_par (List.cons_ne_nil _ _), workAll]
      exact Nat.add_pos_left (work_pos first) _
  | step s status => by simp [work_step]

@[simp]
theorem remaining_init (action : Action) : action.remaining .init = action.work := by
  cases action <;> simp [remaining]

@[simp]
theorem remaining_done (action : Action) (failure : Option Failure)
    (snapshot : Option (List Effect)) : action.remaining (.done failure snapshot) = 0 := by
  cases action <;> simp [remaining]

@[simp]
theorem remaining_await (action : Action) (condition : Condition) :
    action.remaining (.await condition) = 1 := by
  cases action <;> simp [remaining]

theorem remaining_seq {children : List Action} {index : Nat} {running : Action}
    (hrunning : children[index]? = some running) (status : Option Status) (child : Effect) :
    (seq children status).remaining (.seq index child) =
      running.remaining child + workAll (children.drop (index + 1)) := by
  suffices h : ∀ (rest : List Action) (skip : Nat), rest[skip]? = some running →
      remainingSeq rest skip child = running.remaining child + workAll (rest.drop (skip + 1)) by
    rw [remaining, h children index hrunning]
  intro rest
  induction rest with
  | nil => intro skip h; simp at h
  | cons first rest ih =>
      intro skip h
      cases skip with
      | zero =>
          obtain rfl : first = running := by simpa using h
          simp [remainingSeq]
      | succ skip =>
          rw [remainingSeq, ih skip (by simpa using h)]
          simp

theorem remainingAll_init (children : List Action) :
    remainingAll children (children.map fun _ => .init) = workAll children := by
  induction children with
  | nil => simp [remainingAll, workAll]
  | cons child rest ih =>
      rw [List.map_cons, remainingAll, remaining_init, ih, workAll]

theorem remaining_opened {action : Action} (hsome : action.children? ≠ some []) :
    action.remaining action.opened = action.work := by
  cases action with
  | seq children status =>
      cases children with
      | nil => exact absurd rfl hsome
      | cons first rest =>
          rw [opened, remaining_seq rfl, remaining_init, work_seq (List.cons_ne_nil _ _), workAll]
          rfl
  | par children status =>
      cases children with
      | nil => exact absurd rfl hsome
      | cons first rest =>
          rw [opened, remaining, remainingAll_init, work_par (List.cons_ne_nil _ _)]
  | step step status => exact remaining_init _

theorem remainingAll_pos {children : List Action} {effects : List Effect}
    (width : effects.length = children.length) (hopen : effects.all Effect.isDone = false)
    (h : ∀ pair ∈ children.zip effects, pair.2.isDone = false → 0 < pair.1.remaining pair.2) :
    0 < remainingAll children effects := by
  induction children generalizing effects with
  | nil =>
      rw [List.length_eq_zero_iff.1 width] at hopen
      cases hopen
  | cons child rest ih =>
      cases effects with
      | nil => cases width
      | cons effect effects =>
          rw [List.zip_cons_cons, List.forall_mem_cons] at h
          rw [remainingAll]
          cases hdone : effect.isDone with
          | false => exact Nat.add_pos_left (h.1 hdone) _
          | true =>
              rw [List.all_cons, hdone, Bool.true_and] at hopen
              exact Nat.add_pos_right _ (ih (by simpa using width) hopen h.2)

/-- Something is left of what is not over. -/
theorem Fits.remaining_pos {action : Action} {effect : Effect} (h : action.Fits effect) :
    0 < action.remaining effect := by
  induction h with
  | init action =>
      rw [remaining_init]
      exact work_pos action
  | await => simp
  | seq hrunning _ _ ih =>
      rw [remaining_seq hrunning]
      exact Nat.add_pos_left ih _
  | par width _ _ hopen ih =>
      rw [remaining]
      exact remainingAll_pos width hopen ih

theorem remainingAll_le {children : List Action} {effects : List Effect}
    (h : ∀ pair ∈ children.zip effects, pair.1.remaining pair.2 ≤ pair.1.work) :
    remainingAll children effects ≤ workAll children := by
  induction children generalizing effects with
  | nil => simp [remainingAll]
  | cons child rest ih =>
      cases effects with
      | nil => simp [remainingAll]
      | cons effect effects =>
          rw [List.zip_cons_cons, List.forall_mem_cons] at h
          rw [remainingAll, workAll]
          exact Nat.add_le_add h.1 (ih h.2)

/-- No more is left of an action than it takes from the start. -/
theorem Fits.remaining_le {action : Action} {effect : Effect} (h : action.Fits effect) :
    action.remaining effect ≤ action.work := by
  induction h with
  | init action => exact Nat.le_of_eq (remaining_init action)
  | await step status condition => simp [work_step]
  | @seq children status index running child hrunning _ _ ih =>
      obtain ⟨hindex, rfl⟩ := List.getElem?_eq_some_iff.1 hrunning
      have hsome : children ≠ [] := List.ne_nil_of_length_pos (Nat.zero_lt_of_lt hindex)
      have hsplit : workAll children =
          workAll (children.take index) +
            (children[index].work + workAll (children.drop (index + 1))) := by
        rw [← workAll, ← List.drop_eq_getElem_cons, ← workAll_append, List.take_append_drop]
      rw [remaining_seq hrunning, work_seq hsome, hsplit]
      omega
  | @par children status effects width ended _ hopen ih =>
      have hsome : children ≠ [] := by
        rintro rfl
        rw [List.length_eq_zero_iff.1 width] at hopen
        cases hopen
      rw [remaining, work_par hsome]
      apply remainingAll_le
      apply forall_children (fun action effect => action.remaining effect ≤ action.work) ended ?_ ih
      intro action
      rw [Effect.completed, remaining_done]
      exact Nat.zero_le _

/-! ## An advance in which all goes well -/

/-- What an advance comes to in which all goes well: nothing has failed, less is left to be
done, and what was to be started has been started or still is to be. -/
structure Proceeded (action : Action) (effect next : Effect) : Prop where
  unfailed : next.failure? = none
  stays : effect.isDone = true → next = effect
  shorter : effect.isDone = false → action.remaining next < action.remaining effect
  left : Perm (action.starting effect ++ action.unstarted next) (action.unstarted effect)

/-- All goes well if it does so in the journal of the advance and what comes after it, and
it does so in what comes after it. -/
def Proceeds (_site : Site) (action : Action) (effect : Effect) (log : Log Journaled)
    (next : Effect) : Prop :=
  action.Sound effect → effect.failure? = none → ∀ rest : Journal,
    (Journaled.journal log ++ rest).Smooth → rest.Smooth ∧ action.Proceeded effect next

/-- It is enough to look at what is not over. -/
theorem Proceeded.of_isOpen {action : Action} {effect next : Effect}
    (hopen : effect.isDone = false) (unfailed : next.failure? = none)
    (shorter : action.remaining next < action.remaining effect)
    (left : Perm (action.starting effect ++ action.unstarted next) (action.unstarted effect)) :
    action.Proceeded effect next where
  unfailed := unfailed
  stays hdone := by
    rw [hopen] at hdone
    cases hdone
  shorter _ := shorter
  left := left

theorem Proceeded.le {action : Action} {effect next : Effect}
    (h : action.Proceeded effect next) : action.remaining next ≤ action.remaining effect := by
  cases hdone : effect.isDone with
  | true => exact Nat.le_of_eq (congrArg action.remaining (h.stays hdone))
  | false => exact Nat.le_of_lt (h.shorter hdone)

theorem Proceeded.afterChild {children : List Action} {index : Nat} {running : Action}
    (hrunning : children[index]? = some running) (status : Option Status) {child next : Effect}
    (hopen : child.isDone = false) (h : running.Proceeded child next) :
    (seq children status).Proceeded (.seq index child)
      (.afterChild children.length index next) where
  unfailed := by
    cases hdone : next.isDone with
    | false =>
        rw [Effect.afterChild_pending hdone]
        rfl
    | true =>
        obtain ⟨snapshot, rfl⟩ := Effect.eq_done_of_isDone hdone h.unfailed
        rw [Effect.afterChild_completed]
        split <;> rfl
  stays hdone := by cases hdone
  shorter _ := by
    have hshorter := h.shorter hopen
    rw [remaining_seq hrunning]
    cases hdone : next.isDone with
    | false =>
        rw [Effect.afterChild_pending hdone, remaining_seq hrunning]
        omega
    | true =>
        obtain ⟨snapshot, rfl⟩ := Effect.eq_done_of_isDone hdone h.unfailed
        rw [Effect.afterChild_completed]
        split
        · rw [Effect.completed, remaining_done]
          omega
        · rename_i hlast
          have hlater : index + 1 < children.length := by omega
          rw [remaining_seq (List.getElem?_eq_getElem hlater), remaining_init,
            List.drop_eq_getElem_cons hlater, workAll]
          omega
  left := by
    rw [starting_seq hrunning, unstarted_seq hrunning,
      unstarted_afterChild_unfailed hrunning status h.unfailed, ← List.append_assoc,
      ← List.map_append]
    exact (h.left.map _).append_right _

/-- What parallel children come to in an advance in which all goes well. -/
structure AllProceeded (index : Nat) (children : List Action) (effects nexts : List Effect) :
    Prop where
  unfailed : ∀ next ∈ nexts, next.failure? = none
  le : remainingAll children nexts ≤ remainingAll children effects
  shorter : effects.all Effect.isDone = false →
    remainingAll children nexts < remainingAll children effects
  left : Perm (startingAll index children effects ++ unstartedAll index children nexts)
    (unstartedAll index children effects)

theorem Alongside.proceeds {site : Site} {index : Nat} {children : List Action}
    {effects nexts : List Effect} {log : Log Journaled}
    (h : Alongside Proceeds site index children effects log nexts)
    (hsound : ∀ pair ∈ children.zip effects, pair.1.Sound pair.2)
    (hunfailed : ∀ effect ∈ effects, effect.failure? = none) (rest : Journal)
    (hsmooth : (Journaled.journal log ++ rest).Smooth) :
    rest.Smooth ∧ AllProceeded index children effects nexts := by
  induction h generalizing rest with
  | nil =>
      refine ⟨hsmooth, ⟨List.forall_mem_nil _, Nat.le_refl _, ?_, ?_⟩⟩
      · intro hopen
        cases hopen
      · simp [startingAll, unstartedAll]
  | @cons index child children effect next effects nexts log later first others ih =>
      rw [List.zip_cons_cons, List.forall_mem_cons] at hsound
      rw [List.forall_mem_cons] at hunfailed
      rw [Journaled.journal_append, List.append_assoc] at hsmooth
      obtain ⟨hlater, hfirst⟩ := first hsound.1 hunfailed.1 _ hsmooth
      obtain ⟨hrest, hothers⟩ := ih hsound.2 hunfailed.2 rest hlater
      refine ⟨hrest, ⟨?_, ?_, ?_, ?_⟩⟩
      · exact List.forall_mem_cons.2 ⟨hfirst.unfailed, hothers.unfailed⟩
      · rw [remainingAll, remainingAll]
        exact Nat.add_le_add hfirst.le hothers.le
      · intro hopen
        rw [remainingAll, remainingAll]
        cases hdone : effect.isDone with
        | false => exact Nat.add_lt_add_of_lt_of_le (hfirst.shorter hdone) hothers.le
        | true =>
            rw [List.all_cons, hdone, Bool.true_and] at hopen
            exact Nat.add_lt_add_of_le_of_lt hfirst.le (hothers.shorter hopen)
      · rw [startingAll, unstartedAll, unstartedAll]
        have htogether := (hfirst.left.map (.par index :: ·)).append hothers.left
        rw [List.map_append] at htogether
        refine Perm.trans ?_ htogether
        rw [List.append_assoc, List.append_assoc]
        refine Perm.append_left _ ?_
        rw [← List.append_assoc, ← List.append_assoc]
        exact Perm.append_right _ List.perm_append_comm

/-- Parallel children that are all over leave nothing. -/
theorem unstartedAll_done {index : Nat} {children : List Action} {effects : List Effect}
    (h : effects.all Effect.isDone = true) : unstartedAll index children effects = [] := by
  induction children generalizing index effects with
  | nil => cases effects <;> simp [unstartedAll]
  | cons child rest ih =>
      cases effects with
      | nil => simp [unstartedAll]
      | cons effect effects =>
          rw [List.all_cons, Bool.and_eq_true] at h
          obtain ⟨failure, snapshot, rfl⟩ := Effect.isDone_iff.1 h.1
          rw [unstartedAll, unstarted_done, ih h.2, List.map_nil, List.append_nil]

theorem AllProceeded.afterChildren {children : List Action} {effects nexts : List Effect}
    (status : Option Status) (hopen : effects.all Effect.isDone = false)
    (h : AllProceeded 0 children effects nexts) :
    (par children status).Proceeded (.par effects) (.afterChildren nexts) := by
  obtain ⟨failure, hfailure, -⟩ | ⟨-, hdone, heq⟩ | ⟨-, -, heq⟩ :=
    Effect.afterChildren_cases nexts
  · obtain ⟨next, hnext, hfailed⟩ := List.exists_of_findSome?_eq_some hfailure
    rw [h.unfailed next hnext] at hfailed
    cases hfailed
  · have hleft := h.left
    rw [unstartedAll_done hdone] at hleft
    rw [heq]
    refine .of_isOpen rfl rfl ?_ ?_
    · rw [Effect.completed, remaining_done, remaining]
      exact Nat.zero_lt_of_lt (h.shorter hopen)
    · rw [Effect.completed, unstarted_done, starting, unstarted]
      exact hleft
  · rw [heq]
    refine .of_isOpen rfl rfl ?_ ?_
    · rw [remaining, remaining]
      exact h.shorter hopen
    · rw [starting, unstarted, unstarted]
      exact h.left

theorem proceeds (inlineCap : Nat) : NodeCases inlineCap Proceeds where
  ended site action failure snapshot _ hunfailed rest hsmooth := by
    refine ⟨hsmooth, ⟨hunfailed, fun _ => rfl, ?_, ?_⟩⟩
    · intro hopen
      cases hopen
    · rw [starting_done, unstarted_done, List.nil_append]
  misfit site action effect misfit hmisfit h := absurd h.admits hmisfit
  empty site action effect hempty hopen _ h _ rest hsmooth := by
    obtain rfl := (h.fits_of_isOpen hopen).eq_init hempty
    refine ⟨hsmooth, .of_isOpen rfl rfl ?_ ?_⟩
    · rw [Effect.completed, remaining_done, remaining_init]
      exact work_pos action
    · rw [starting_init, firsts_empty hempty, Effect.completed, unstarted_done, unstarted_init]
      cases action with
      | seq children status =>
          cases hempty
          simp [leaves, leavesFrom]
      | par children status =>
          cases hempty
          simp [leaves, leavesFrom]
      | step step status => cases hempty
  opens site action log next hsome h hsound hunfailed rest hsmooth := by
    have hopened := fits_opened hsome
    obtain ⟨hrest, hproceeded⟩ :=
      h (.fits hopened) (Effect.failure?_of_open hopened.isOpen) rest hsmooth
    refine ⟨hrest, .of_isOpen rfl hproceeded.unfailed ?_ ?_⟩
    · rw [remaining_init, ← remaining_opened hsome]
      exact hproceeded.shorter hopened.isOpen
    · have hleft := hproceeded.left
      rw [starting_opened, unstarted_opened] at hleft
      rwa [starting_init, unstarted_init]
  execute site step status log next h _ _ rest hsmooth := by
    rw [Step.journal_execute h] at hsmooth
    obtain ⟨hunfailed, hrest⟩ : next.failure? = none ∧ rest.Smooth := hsmooth
    obtain ⟨inner, outer, result, -, -, hstart, rfl⟩ := Step.follows_execute h
    rcases Effect.ofStart_cases hstart with ⟨failure, heq⟩ | ⟨condition, heq, -⟩
    · rw [heq]
      rw [heq] at hunfailed
      refine ⟨hrest, .of_isOpen rfl hunfailed ?_ ?_⟩
      · simp [work_step]
      · simp [firsts, leaves]
    · rw [heq]
      refine ⟨hrest, .of_isOpen rfl rfl ?_ ?_⟩
      · simp [work_step]
      · simp [firsts, leaves]
  recheck site step status condition log next h _ _ rest hsmooth := by
    rw [Condition.journal_recheck h] at hsmooth
    obtain ⟨rfl, hrest⟩ : next = .completed ∧ rest.Smooth := hsmooth
    refine ⟨hrest, .of_isOpen rfl rfl ?_ ?_⟩
    · simp [Effect.completed]
    · simp [Effect.completed]
  seq site children status index running child log next hrunning h hsound _ rest hsmooth := by
    have hopen : child.isDone = false := by
      cases hsound.fits_of_isOpen rfl with
      | seq _ hopen _ => exact hopen
    obtain ⟨hrest, hproceeded⟩ :=
      h (hsound.below_seq hrunning) (Effect.failure?_of_open hopen) rest hsmooth
    exact ⟨hrest, hproceeded.afterChild hrunning status hopen⟩
  par site children status effects log nexts h hsound _ rest hsmooth := by
    have hfits := hsound.fits_of_isOpen rfl
    have hunfailed : ∀ effect ∈ effects, effect.failure? = none :=
      fun effect heffect => hfits.unfailed (.par heffect .here)
    have hopen : effects.all Effect.isDone = false := by
      cases hfits with
      | par _ _ _ hopen => exact hopen
    obtain ⟨hrest, hproceeded⟩ := h.proceeds hsound.below_par hunfailed rest hsmooth
    exact ⟨hrest, hproceeded.afterChildren status hopen⟩

/-! ## What is finished is not left -/

/-- What parallel children show as completed is below one of them. -/
theorem mem_finishedAll {index : Nat} {children : List Action} {effects : List Effect}
    {place : Path} (h : place ∈ finishedAll index children effects) :
    ∃ offset below, place = .par (index + offset) :: below := by
  induction children generalizing index effects with
  | nil => simp [finishedAll] at h
  | cons child rest ih =>
      cases effects with
      | nil => simp [finishedAll] at h
      | cons effect effects =>
          rw [finishedAll, List.mem_append, List.mem_map] at h
          rcases h with ⟨below, -, rfl⟩ | hrest
          · exact ⟨0, below, rfl⟩
          · obtain ⟨offset, below, rfl⟩ := ih hrest
            exact ⟨offset + 1, below, by rw [Nat.add_assoc, Nat.add_comm 1]⟩

theorem finishedAll_apart {index : Nat} {children : List Action} {effects : List Effect}
    (h : ∀ pair ∈ children.zip effects, ∀ place ∈ pair.1.finished pair.2,
      place ∉ pair.1.unstarted pair.2) {place : Path}
    (hfinished : place ∈ finishedAll index children effects) :
    place ∉ unstartedAll index children effects := by
  induction children generalizing index effects with
  | nil => simp [finishedAll] at hfinished
  | cons child rest ih =>
      cases effects with
      | nil => simp [finishedAll] at hfinished
      | cons effect effects =>
          rw [List.zip_cons_cons, List.forall_mem_cons] at h
          rw [finishedAll, List.mem_append, List.mem_map] at hfinished
          rw [unstartedAll, List.mem_append, List.mem_map]
          rintro (⟨left, hleft, rfl⟩ | hlater)
          · rcases hfinished with ⟨below, hbelow, heq⟩ | hothers
            · obtain rfl := List.tail_eq_of_cons_eq heq
              exact h.1 _ hbelow hleft
            · obtain ⟨offset, below, heq⟩ := mem_finishedAll hothers
              have hturn := Branch.par.inj (List.head_eq_of_cons_eq heq)
              omega
          · rcases hfinished with ⟨below, hbelow, rfl⟩ | hothers
            · obtain ⟨offset, under, heq⟩ := mem_unstartedAll hlater
              have hturn := Branch.par.inj (List.head_eq_of_cons_eq heq)
              omega
            · exact ih h.2 hothers hlater

/-- What is shown as completed is not left to be started. -/
theorem Fits.finished_apart {action : Action} {effect : Effect} (h : action.Fits effect)
    {place : Path} (hfinished : place ∈ action.finished effect) :
    place ∉ action.unstarted effect := by
  induction h generalizing place with
  | init =>
      rw [finished_init] at hfinished
      cases hfinished
  | await =>
      rw [finished_await] at hfinished
      cases hfinished
  | @seq children status index running child hrunning _ _ ih =>
      rw [finished_seq hrunning, List.mem_append, mem_leavesFrom, List.mem_map] at hfinished
      rw [unstarted_seq hrunning, List.mem_append, mem_leavesFrom, List.mem_map]
      have hbefore : ∀ {i ended}, (children.take index)[i]? = some ended → i < index := by
        intro i ended hended
        have hshort := (List.getElem?_eq_some_iff.1 hended).1
        rw [List.length_take] at hshort
        omega
      rintro (⟨left, hleft, rfl⟩ | ⟨offset, other, left, hother, rfl, hleft⟩)
      · rcases hfinished with ⟨i, ended, below, hended, heq, -⟩ | ⟨below, hbelow, heq⟩
        · have hturn := Branch.seq.inj (List.head_eq_of_cons_eq heq)
          have hshort := hbefore hended
          omega
        · obtain rfl := List.tail_eq_of_cons_eq heq
          exact ih hbelow hleft
      · rcases hfinished with ⟨i, ended, below, hended, heq, -⟩ | ⟨below, hbelow, heq⟩
        · have hturn := Branch.seq.inj (List.head_eq_of_cons_eq heq)
          have hshort := hbefore hended
          omega
        · have hturn := Branch.seq.inj (List.head_eq_of_cons_eq heq)
          omega
  | par _ ended _ _ ih =>
      rw [finished] at hfinished
      rw [unstarted]
      refine finishedAll_apart ?_ hfinished
      apply forall_children (fun action effect => ∀ place ∈ action.finished effect,
        place ∉ action.unstarted effect) ended
      · intro action below _
        rw [Effect.completed, unstarted_done]
        exact List.not_mem_nil
      · intro pair hpair hopen below hbelow
        exact ih pair hpair hopen hbelow

/-! ## The leaves that a drive starts -/

/-- These places are all that an effect leaves to be started, each of them once, and what
comes before one of them in a sequence stands before it. -/
structure Covers (action : Action) (effect : Effect) (places : List Path) : Prop where
  all : Perm places (action.unstarted effect)
  inOrder : ∀ first place later, places = first ++ place :: later →
    ∀ earlier ∈ action.unstarted effect, earlier.Before place → earlier ∈ first

theorem Covers.done {action : Action} {effect : Effect} (hdone : effect.isDone = true) :
    action.Covers effect [] := by
  obtain ⟨failure, snapshot, rfl⟩ := Effect.isDone_iff.1 hdone
  refine ⟨by rw [unstarted_done], fun first place later heq => ?_⟩
  cases first <;> cases heq

/-- What an advance starts comes before what is started later on. -/
theorem Covers.advance {action : Action} {effect next : Effect} {places : List Path}
    (hfits : action.Fits effect) (hproceeded : action.Proceeded effect next)
    (hbefore : ∀ place ∈ action.starting effect, ∀ earlier ∈ action.unstarted effect,
      earlier.Before place → earlier ∈ action.finished effect)
    (h : action.Covers next places) : action.Covers effect (action.starting effect ++ places) where
  all := (h.all.append_left _).trans hproceeded.left
  inOrder first place later heq earlier hearlier hplace := by
    rcases Journal.split_append heq with ⟨between, rfl, hplaces⟩ | ⟨between, hstarting⟩
    · rw [List.mem_append]
      rcases List.mem_append.1 (hproceeded.left.symm.subset hearlier) with hnow | hlater
      · exact Or.inl hnow
      · exact Or.inr (h.inOrder between place later hplaces earlier hlater hplace)
    · -- What comes before a leaf that is started is finished, so it is not left.
      have hmem : place ∈ action.starting effect := by
        rw [hstarting]
        exact List.mem_append_right _ List.mem_cons_self
      have hfinished := hbefore place hmem earlier hearlier hplace
      exact absurd hearlier (hfits.finished_apart hfinished)

end Action

namespace Program

variable {program : Program}

/-- An advance from what a program has come to, if all goes well in it. -/
theorem advance_smooth {inlineCap : Nat} {effect next : Effect} {log : Log Journaled}
    (h : (program.action.advance inlineCap ⟨program.id, []⟩ effect).Follows log next)
    (hfits : program.action.Fits effect)
    (hleaves : program.action.unstarted effect ⊆ program.action.leaves) {rest : Journal}
    (hsmooth : (Journaled.journal log ++ rest).Smooth) :
    rest.Smooth ∧ program.action.Proceeded effect next ∧
    (Journaled.journal log).executed =
      (program.action.starting effect).map (Site.mk program.id) ∧
    ∀ place ∈ program.action.starting effect, ∀ earlier ∈ program.action.unstarted effect,
      earlier.Before place → earlier ∈ program.action.finished effect := by
  obtain ⟨hrest, hproceeded⟩ := (Action.proceeds inlineCap).holds _ h (.fits hfits)
    (Effect.failure?_of_open hfits.isOpen) rest hsmooth
  have hlaunched := (Action.launches inlineCap).holds _ h (.fits hfits)
  obtain ⟨places, hplaces, -, hbefore⟩ := (Action.starts inlineCap).holds _ h
  have hsame : program.action.starting effect = places := by
    refine List.map_injective_iff.2 (fun one other heq => ?_) (hlaunched.symm.trans hplaces)
    exact congrArg Site.place heq
  refine ⟨hrest, hproceeded, hlaunched, fun place hplace earlier hearlier => ?_⟩
  exact hbefore place (hsame ▸ hplace) earlier (hleaves hearlier)

/-- A drive that is long enough and in which all goes well completes the program and starts
all that was left. -/
theorem drive_smooth {inlineCap budget : Nat} {state final : State} {log : Log Journaled}
    (hsound : program.action.Sound state.current) (hunfailed : state.current.failure? = none)
    (hleaves : program.action.unstarted state.current ⊆ program.action.leaves)
    (hbudget : program.action.remaining state.current ≤ budget)
    (h : (program.driveJournaled inlineCap budget state).Follows log final)
    (hsmooth : (Journaled.journal log).Smooth) :
    final.current = .completed ∧
    ∃ places, (Journaled.journal log).executed = places.map (Site.mk program.id) ∧
      program.action.Covers state.current places := by
  induction budget generalizing state log with
  | zero =>
      obtain ⟨rfl, rfl⟩ := follows_pure.1 h
      cases hdone : final.current.isDone with
      | false =>
          have hpos := (hsound.fits_of_isOpen hdone).remaining_pos
          omega
      | true => exact ⟨hsound.completed_of_isDone hdone hunfailed, [], rfl, .done hdone⟩
  | succ budget ih =>
      unfold driveJournaled at h
      split at h
      · rename_i hdone
        obtain ⟨rfl, rfl⟩ := follows_pure.1 h
        exact ⟨hsound.completed_of_isDone hdone hunfailed, [], rfl, .done hdone⟩
      · rename_i hopen
        have hfits := hsound.fits_of_isOpen (by simpa [State.isDone] using hopen)
        obtain ⟨first, next, later, rfl, hfirst, hlater⟩ := follows_bind.1 h
        obtain ⟨log, rfl, hadvance⟩ := follows_advance.1 hfirst
        rw [Journaled.journal_append] at hsmooth
        obtain ⟨hrest, hproceeded, hexecuted, hbefore⟩ :=
          advance_smooth hadvance hfits hleaves hsmooth
        have hshorter := hproceeded.shorter hfits.isOpen
        have hchanged : next ≠ state.current := by
          rintro rfl
          exact Nat.lt_irrefl _ hshorter
        rw [if_neg hchanged] at hlater
        have hsoundNext : program.action.Sound
            ({ state with effect := some next } : State).current :=
          (Action.shapes inlineCap).holds _ hadvance hsound
        have hfewer : program.action.unstarted next ⊆ program.action.leaves := fun place hplace =>
          hleaves (hproceeded.left.subset (List.mem_append_right _ hplace))
        obtain ⟨hcompleted, places, hplaces, hcovers⟩ :=
          ih hsoundNext hproceeded.unfailed hfewer
            (Nat.le_of_lt_succ (Nat.lt_of_lt_of_le hshorter hbudget)) hlater hrest
        refine ⟨hcompleted, _, ?_, .advance hfits hproceeded hbefore hcovers⟩
        rw [Journaled.journal_append, Journal.executed_append, hplaces, List.map_append,
          ← hexecuted]
        rfl

/-- What a reached effect leaves to be started are leaves of the program. -/
theorem Reached.unstarted {effect : Effect} (h : program.Reached effect) :
    Subperm (program.action.unstarted effect) program.action.leaves := by
  induction h with
  | fresh => rw [Action.unstarted_init]
  | advance _ h ih =>
      obtain ⟨kept, hadvance⟩ := advance_of_follows h
      obtain ⟨places, -, hleft, -⟩ := (Action.starts _).holds _ hadvance
      exact ((List.sublist_append_right _ _).subperm.trans hleft).trans ih

/-- Nothing but the effect changes in a drive. -/
theorem drive_state {inlineCap budget : Nat} {state final : State} {log : Log Journaled}
    (h : (program.driveJournaled inlineCap budget state).Follows log final)
    (hcompleted : final.current = .completed) :
    final = { state with effect := some .completed } := by
  obtain ⟨-, effect, rfl⟩ := (plansOn inlineCap program).holds h
  cases effect with
  | none => cases hcompleted
  | some effect =>
      obtain rfl : effect = .completed := hcompleted
      rfl

section

variable {σ : Type} {inlineCap budget : Nat} {state : State} {world : World Outside σ}
  {start : σ}

/-- What is written into the journal while a program is driven in a world. -/
def driveJournal (program : Program) (inlineCap budget : Nat) (state : State)
    (world : World Outside σ) (start : σ) : Journal :=
  Journaled.journal ((program.driveJournaled inlineCap budget state).log world.noting start)

/-- From whatever a program has come to and is not over, if every step that is started
succeeds and every condition that is checked is met, two advances for each leaf and one for
each node without children are enough to complete it.  The leaves that are started are
those that were left, each once, in the order of the sequences. -/
theorem Reached.drive_completes (h : program.Reached state.current)
    (hopen : state.isDone = false)
    (hbudget : 2 * program.action.leaves.length + program.action.empties ≤ budget)
    (hsmooth : (program.driveJournal inlineCap budget state world start).Smooth) :
    ((program.drive inlineCap budget state).run world start).value =
      { state with effect := some .completed } ∧
    ∃ places : List Path,
      (program.driveJournal inlineCap budget state world start).executed =
        places.map (Site.mk program.id) ∧
      places.Nodup ∧ places.Perm (program.action.unstarted state.current) ∧
      (state.current = .init → places.Perm program.action.leaves) ∧
      ∀ first place later, places = first ++ place :: later →
        ∀ earlier ∈ program.action.unstarted state.current, earlier.Before place →
          earlier ∈ first := by
  have hfits := h.sound.fits_of_isOpen hopen
  have hrun := follows_run world.noting (program.driveJournaled inlineCap budget state) start
  have hleaves := h.unstarted
  have henough : program.action.remaining state.current ≤ budget :=
    Nat.le_trans hfits.remaining_le hbudget
  obtain ⟨hcompleted, places, hplaces, hall, hinOrder⟩ :=
    drive_smooth h.sound (Effect.failure?_of_open hopen) hleaves.subset henough hrun hsmooth
  refine ⟨?_, places, hplaces, ?_, hall, fun hfresh => ?_, hinOrder⟩
  · rw [drive, Journaled.run_silent]
    exact drive_state hrun hcompleted
  · obtain ⟨kept, hkept, hsublist⟩ := hleaves
    exact hall.nodup_iff.2 (hkept.nodup_iff.1 (hsublist.nodup (Action.leaves_nodup _)))
  · rwa [hfresh, Action.unstarted_init] at hall

end

/-- An errand that was never run is done in seven advances, if every transaction is seen
at once. -/
theorem errand_completes :
    errand.Reached (State.fresh "errand").current ∧ (State.fresh "errand").isDone = false ∧
    2 * errand.action.leaves.length + errand.action.empties = 7 ∧
    (errand.driveJournal 0 7 (State.fresh "errand") confirming ()).Smooth ∧
    ((errand.drive 0 7 (State.fresh "errand")).run confirming ()).value =
      { State.fresh "errand" with effect := some .completed } ∧
    ∃ places : List Path,
      (errand.driveJournal 0 7 (State.fresh "errand") confirming ()).executed =
        places.map (Site.mk "errand") ∧
      places.Perm [[.par 0, .seq 0], [.par 0, .seq 2], [.par 1]] := by
  have hfresh : errand.Reached (State.fresh "errand").current := .fresh
  have hbudget : 2 * errand.action.leaves.length + errand.action.empties = 7 := rfl
  have hsmooth : (errand.driveJournal 0 7 (State.fresh "errand") confirming ()).Smooth := by
    have hjournal : errand.driveJournal 0 7 (State.fresh "errand") confirming () =
        [.advance "errand", .execute ⟨"errand", [.par 0, .seq 0]⟩,
          .leaf ⟨"errand", [.par 0, .seq 0]⟩ .completed, .execute ⟨"errand", [.par 1]⟩,
          .leaf ⟨"errand", [.par 1]⟩ .completed, .advance "errand", .advance "errand",
          .execute ⟨"errand", [.par 0, .seq 2]⟩,
          .leaf ⟨"errand", [.par 0, .seq 2]⟩ (.await (.txConfs "tx" "wallet" 1)),
          .advance "errand", .leaf ⟨"errand", [.par 0, .seq 2]⟩ .completed] := rfl
    rw [hjournal]
    exact ⟨rfl, rfl, rfl, rfl, trivial⟩
  obtain ⟨hvalue, places, hplaces, -, -, hall, -⟩ :=
    hfresh.drive_completes rfl (Nat.le_of_eq hbudget) hsmooth
  exact ⟨hfresh, rfl, hbudget, hsmooth, hvalue, places, hplaces, hall rfl⟩

end Program

end ProgramQueue
