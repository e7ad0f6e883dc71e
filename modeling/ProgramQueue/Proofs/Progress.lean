import ProgramQueue.Proofs.Advance
import ProgramQueue.Proofs.Journals
import ProgramQueue.Proofs.Leaves

/-!
# What an advance does to the leaves

A leaf is started only if it was left to be started, and then it no longer is.
Before it, everything has completed that comes before it in a sequence.  What an
effect shows as completed has been reported by the journal, and a leaf that fails
stops the whole.
-/

namespace ProgramQueue

open List (Subperm)

namespace Effect

theorem afterChild_failed (count index : Nat) (failure : Failure)
    (snapshot : Option (List Effect)) :
    afterChild count index (.done (some failure) snapshot) =
      .done (some failure) snapshot := rfl

theorem afterChild_completed (count index : Nat) (snapshot : Option (List Effect)) :
    afterChild count index (.done none snapshot) =
      if count ≤ index + 1 then .completed else .seq (index + 1) .init := rfl

theorem afterChild_pending {count index : Nat} {next : Effect} (h : next.isDone = false) :
    afterChild count index next = .seq index next := by
  cases next <;> simp_all [afterChild, isDone]

/-- Parallel children fail, complete or go on. -/
theorem afterChildren_cases (nexts : List Effect) :
    (∃ failure, nexts.findSome? failure? = some failure ∧
        afterChildren nexts = .done (some failure) (some nexts)) ∨
      (nexts.findSome? failure? = none ∧ nexts.all isDone = true ∧
        afterChildren nexts = .completed) ∨
      nexts.findSome? failure? = none ∧ nexts.all isDone = false ∧
        afterChildren nexts = .par nexts := by
  unfold afterChildren
  cases hfailure : nexts.findSome? failure? with
  | some failure => exact Or.inl ⟨failure, rfl, rfl⟩
  | none =>
      cases hdone : nexts.all isDone with
      | true => exact Or.inr (Or.inl ⟨rfl, rfl, rfl⟩)
      | false => exact Or.inr (Or.inr ⟨rfl, rfl, rfl⟩)

/-- Parallel children of which none has failed and some are not over go on. -/
theorem afterChildren_pending {nexts : List Effect} (h : ∀ next ∈ nexts, next.failure? = none)
    (hopen : nexts.all isDone = false) : afterChildren nexts = .par nexts := by
  unfold afterChildren
  rw [List.findSome?_eq_none_iff.2 h, hopen]
  rfl

theorem isDone_iff {effect : Effect} :
    effect.isDone = true ↔ ∃ failure snapshot, effect = .done failure snapshot := by
  cases effect <;> simp [isDone]

theorem failure?_eq_some {effect : Effect} {failure : Failure} :
    effect.failure? = some failure ↔ ∃ snapshot, effect = .done (some failure) snapshot := by
  cases effect <;> simp [failure?]

theorem failure?_of_open {effect : Effect} (h : effect.isDone = false) :
    effect.failure? = none := by
  cases effect with
  | done failure snapshot => cases h
  | _ => rfl

/-- What is over without a failure has completed. -/
theorem eq_done_of_isDone {effect : Effect} (hdone : effect.isDone = true)
    (hfailure : effect.failure? = none) : ∃ snapshot, effect = .done none snapshot := by
  obtain ⟨failure, snapshot, rfl⟩ := isDone_iff.1 hdone
  obtain rfl : failure = none := hfailure
  exact ⟨snapshot, rfl⟩

end Effect

namespace Action

@[simp]
theorem unstarted_opened (action : Action) :
    action.unstarted action.opened = action.leaves := by
  cases action with
  | seq children status => cases children <;> simp [opened, unstarted, unstartedSeq, leaves, leavesFrom]
  | par children status =>
      rw [opened, unstarted, unstartedAll_init, leaves]
  | step step status => exact unstarted_init _

@[simp]
theorem finished_opened (action : Action) : action.finished action.opened = [] := by
  cases action with
  | seq children status => cases children <;> simp [opened, finished, finishedSeq]
  | par children status => rw [opened, finished, finishedAll_init]
  | step step status => exact finished_init _

/-! ## Leaves that are started -/

/-- The leaves that are started were left to be started, and of those no more are
left than before.  When one is started, all that comes before it is shown as
completed. -/
def Starts (site : Site) (action : Action) (effect : Effect) (log : Log Journaled)
    (next : Effect) : Prop :=
  ∃ places : List Path,
    (Journaled.journal log).executed = places.map site.reach ∧
    Subperm (places ++ action.unstarted next) (action.unstarted effect) ∧
    ∀ place ∈ places, ∀ earlier ∈ action.leaves, earlier.Before place →
      earlier ∈ action.finished effect

/-- A sequence in which nothing has failed leaves what its running child and the later
children leave. -/
theorem unstarted_afterChild_unfailed {children : List Action} {index : Nat} {running : Action}
    (hrunning : children[index]? = some running) (status : Option Status) {next : Effect}
    (hfailure : next.failure? = none) :
    (seq children status).unstarted (.afterChild children.length index next) =
      (running.unstarted next).map (.seq index :: ·) ++
        leavesFrom .seq (index + 1) (children.drop (index + 1)) := by
  cases hdone : next.isDone with
  | false => rw [Effect.afterChild_pending hdone, unstarted_seq hrunning]
  | true =>
      obtain ⟨snapshot, rfl⟩ := Effect.eq_done_of_isDone hdone hfailure
      rw [Effect.afterChild_completed, unstarted_done, List.map_nil, List.nil_append]
      split
      · rename_i hlast
        rw [Effect.completed, unstarted_done, List.drop_of_length_le hlast, leavesFrom]
      · rename_i hlast
        have hlater : index + 1 < children.length := by omega
        rw [unstarted_seq (List.getElem?_eq_getElem hlater), unstarted_init,
          List.drop_eq_getElem_cons hlater, leavesFrom]

/-- A sequence leaves no more than its running child and the later children do. -/
theorem unstarted_afterChild {children : List Action} {index : Nat} {running : Action}
    (hrunning : children[index]? = some running) (status : Option Status)
    (next : Effect) :
    List.Sublist
      ((seq children status).unstarted (.afterChild children.length index next))
      ((running.unstarted next).map (.seq index :: ·) ++
        leavesFrom .seq (index + 1) (children.drop (index + 1))) := by
  cases hfailure : next.failure? with
  | none => rw [unstarted_afterChild_unfailed hrunning status hfailure]
  | some failure =>
      obtain ⟨snapshot, rfl⟩ := Effect.failure?_eq_some.1 hfailure
      rw [Effect.afterChild_failed, unstarted_done]
      exact List.nil_sublist _

theorem Alongside.starts {site : Site} {index : Nat} {children : List Action}
    {effects nexts : List Effect} {log : Log Journaled}
    (h : Alongside Starts site index children effects log nexts) :
    ∃ places : List Path,
      (Journaled.journal log).executed = places.map site.reach ∧
      Subperm (places ++ unstartedAll index children nexts)
        (unstartedAll index children effects) ∧
      ∀ place ∈ places, ∀ earlier ∈ leavesFrom .par index children,
        earlier.Before place → earlier ∈ finishedAll index children effects := by
  induction h with
  | nil => exact ⟨[], rfl, by simp [unstartedAll], by simp⟩
  | @cons index child children effect next effects nexts log later first rest ih =>
      obtain ⟨places, hplaces, hleft, hfirst⟩ := first
      obtain ⟨others, hothers, hrest, hlater⟩ := ih
      refine ⟨places.map (.par index :: ·) ++ others, ?_, ?_, ?_⟩
      · rw [Journaled.journal_append, Journal.executed_append, hplaces, hothers,
          List.map_append, List.map_map, Site.below_reach]
        rfl
      · have hmapped := Subperm.map (List.cons_injective (a := Branch.par index)) hleft
        rw [List.map_append] at hmapped
        have htogether := hmapped.append hrest
        rw [unstartedAll, unstartedAll]
        refine List.Perm.subperm_right ?_ |>.1 htogether
        rw [List.append_assoc, List.append_assoc]
        refine List.Perm.append_left _ ?_
        rw [← List.append_assoc, ← List.append_assoc]
        exact List.Perm.append_right _ List.perm_append_comm
      · intro place hplace earlier hearlier hbefore
        rw [leavesFrom, List.mem_append, List.mem_map] at hearlier
        rw [finishedAll, List.mem_append, List.mem_map]
        rw [List.mem_append, List.mem_map] at hplace
        obtain ⟨started, hstarted, rfl⟩ | hother := hplace
        · -- Below the first child, what comes before is below it as well.
          obtain ⟨below, rfl, hbelow⟩ := Path.before_par hbefore
          obtain ⟨leaf, hleaf, heq⟩ | hmem := hearlier
          · obtain rfl := List.tail_eq_of_cons_eq heq
            exact Or.inl ⟨leaf, hfirst started hstarted leaf hleaf hbelow, rfl⟩
          · obtain ⟨offset, other, rest, -, heq, -⟩ := mem_leavesFrom.1 hmem
            have := Branch.par.inj (List.head_eq_of_cons_eq heq)
            omega
        · -- Below a later child, nothing that comes before is below the first one.
          obtain ⟨leaf, -, rfl⟩ | hmem := hearlier
          · obtain ⟨offset, started, rfl⟩ :=
              mem_unstartedAll (hrest.subset (List.mem_append_left _ hother))
            obtain ⟨below, heq, -⟩ := Path.before_par hbefore
            have := Branch.par.inj (List.head_eq_of_cons_eq heq)
            omega
          · exact Or.inr (hlater place hother earlier hmem hbefore)

/-- Every advance starts only what was left to be started. -/
theorem starts (inlineCap : Nat) : AdvanceCases inlineCap Starts where
  ended site action failure snapshot := ⟨[], rfl, by simp, by simp⟩
  misfit site action effect misfit := ⟨[], rfl, by simp, by simp⟩
  empty site action effect _ := ⟨[], rfl, by simp [Effect.completed], by simp⟩
  opens site action log next h := by
    obtain ⟨places, hplaces, hleft, horder⟩ := h
    rw [unstarted_opened] at hleft
    rw [finished_opened] at horder
    exact ⟨places, hplaces, by rwa [unstarted_init], by rwa [finished_init]⟩
  execute site step status log next h := by
    refine ⟨[[]], ?_, ?_, ?_⟩
    · rw [Step.journal_execute h, List.map_singleton, Site.reach_nil]
      rfl
    · obtain ⟨inner, outer, result, -, -, hstart, rfl⟩ := Step.follows_execute h
      obtain ⟨failure, heq⟩ | ⟨condition, heq, -⟩ := Effect.ofStart_cases hstart
      · rw [heq, unstarted_done, unstarted_init]
        exact Subperm.refl _
      · rw [heq, unstarted_await, unstarted_init]
        exact Subperm.refl _
    · intro place hplace earlier _ hbefore
      rw [List.mem_singleton.1 hplace] at hbefore
      exact absurd hbefore (Path.not_before_nil earlier)
  recheck site step status condition log next h := by
    refine ⟨[], by rw [Condition.journal_recheck h]; rfl, ?_, by simp⟩
    obtain ⟨inner, outer, result, -, -, -, rfl⟩ := Condition.follows_recheck h
    obtain ⟨failure, heq⟩ | heq := Effect.ofCheck_cases (.await condition) result
    · rw [heq, unstarted_done]
      exact List.nil_subperm
    · rw [heq]
      exact Subperm.refl _
  seq site children status index running child log next hrunning h := by
    obtain ⟨places, hplaces, hleft, horder⟩ := h
    refine ⟨places.map (.seq index :: ·), ?_, ?_, ?_⟩
    · rw [hplaces, List.map_map, Site.below_reach]
      rfl
    · refine Subperm.trans
        (((unstarted_afterChild hrunning status next).append_left _).subperm) ?_
      rw [unstarted_seq hrunning, ← List.append_assoc, ← List.map_append]
      exact (Subperm.map (List.cons_injective (a := Branch.seq index)) hleft).append
        (Subperm.refl _)
    · intro place hplace earlier hearlier hbefore
      obtain ⟨started, hstarted, rfl⟩ := List.mem_map.1 hplace
      rw [leaves, mem_leavesFrom] at hearlier
      obtain ⟨offset, other, leaf, hother, rfl, hleaf⟩ := hearlier
      rw [finished_seq hrunning, List.mem_append, List.mem_map]
      obtain ⟨i, below, hlt, heq⟩ | ⟨below, heq, hbelow⟩ := Path.before_seq hbefore
      · have hoffset := Branch.seq.inj (List.head_eq_of_cons_eq heq)
        refine Or.inl (mem_leavesFrom.2 ⟨offset, other, leaf, ?_, rfl, hleaf⟩)
        rw [List.getElem?_take_of_lt (by omega), hother]
      · have hoffset := Branch.seq.inj (List.head_eq_of_cons_eq heq)
        rw [Nat.zero_add] at hoffset
        obtain rfl := hoffset
        obtain rfl : other = running := Option.some.inj (hother.symm.trans hrunning)
        obtain rfl := List.tail_eq_of_cons_eq heq
        exact Or.inr ⟨leaf, horder started hstarted leaf hleaf hbelow, by rw [Nat.zero_add]⟩
  par site children status effects log nexts h := by
    obtain ⟨places, hplaces, hleft, horder⟩ := h.starts
    refine ⟨places, hplaces, Subperm.trans (List.Sublist.subperm ?_) hleft, ?_⟩
    · refine List.Sublist.append_left ?_ _
      obtain ⟨failure, -, heq⟩ | ⟨-, -, heq⟩ | ⟨-, -, heq⟩ := Effect.afterChildren_cases nexts
      · rw [heq, unstarted_done]
        exact List.nil_sublist _
      · rw [heq, Effect.completed, unstarted_done]
        exact List.nil_sublist _
      · rw [heq, unstarted]
    · rw [leaves, finished]
      exact horder

/-! ## Leaves that complete -/

/-- What an effect shows as completed was shown before or is in the journal. -/
def Finishes (site : Site) (action : Action) (effect : Effect) (log : Log Journaled)
    (next : Effect) : Prop :=
  ∀ place ∈ action.finished next,
    place ∈ action.finished effect ∨ (Journaled.journal log).Completed (site.reach place)

/-- What a sequence shows as completed is below earlier children, or is shown by the
child that was running. -/
theorem mem_finished_afterChild {children : List Action} {index : Nat}
    {running : Action} (hrunning : children[index]? = some running)
    (status : Option Status) {next : Effect} {place : Path}
    (h : place ∈ (seq children status).finished (.afterChild children.length index next)) :
    place ∈ leavesFrom .seq 0 (children.take index) ∨
      ∃ below ∈ running.finished next, place = .seq index :: below := by
  have hindex : index < children.length := (List.getElem?_eq_some_iff.1 hrunning).1
  have htake : children.take (index + 1) = children.take index ++ [running] := by
    rw [List.take_add_one, hrunning, Option.toList_some]
  have hthrough (hmem : place ∈ leavesFrom .seq 0 (children.take (index + 1))) :
      place ∈ leavesFrom .seq 0 (children.take index) ∨
        ∃ below ∈ running.leaves, place = .seq index :: below := by
    rw [htake, leavesFrom_append, List.mem_append, List.length_take,
      Nat.min_eq_left (Nat.le_of_lt hindex)] at hmem
    refine hmem.imp_right fun hlast => ?_
    simp only [leavesFrom, List.append_nil, Nat.zero_add, List.mem_map] at hlast
    obtain ⟨below, hbelow, rfl⟩ := hlast
    exact ⟨below, hbelow, rfl⟩
  cases hdone : next.isDone with
  | false =>
      rw [Effect.afterChild_pending hdone, finished_seq hrunning, List.mem_append,
        List.mem_map] at h
      refine h.imp_right ?_
      rintro ⟨below, hbelow, rfl⟩
      exact ⟨below, hbelow, rfl⟩
  | true =>
      cases hfailure : next.failure? with
      | some failure =>
          obtain ⟨snapshot, rfl⟩ := Effect.failure?_eq_some.1 hfailure
          rw [Effect.afterChild_failed, finished_failed] at h
          cases h
      | none =>
          obtain ⟨snapshot, rfl⟩ := Effect.eq_done_of_isDone hdone hfailure
          rw [finished_completed]
          rw [Effect.afterChild_completed] at h
          split at h
          · refine hthrough ?_
            rwa [Effect.completed, finished_completed, leaves,
              ← List.take_of_length_le (l := children) ‹_›] at h
          · rename_i hlast
            have hlater : index + 1 < children.length := by omega
            rw [finished_seq (List.getElem?_eq_getElem hlater), finished_init,
              List.map_nil, List.append_nil] at h
            exact hthrough h

theorem Alongside.finishes {site : Site} {index : Nat} {children : List Action}
    {effects nexts : List Effect} {log : Log Journaled}
    (h : Alongside Finishes site index children effects log nexts) :
    ∀ place ∈ finishedAll index children nexts,
      place ∈ finishedAll index children effects ∨
        (Journaled.journal log).Completed (site.reach place) := by
  induction h with
  | nil => intro place hplace; simp [finishedAll] at hplace
  | @cons index child children effect next effects nexts log later first rest ih =>
      intro place hplace
      rw [finishedAll, List.mem_append, List.mem_map] at hplace
      rw [finishedAll, List.mem_append, List.mem_map, Journaled.journal_append]
      obtain ⟨below, hbelow, rfl⟩ | hrest := hplace
      · obtain hbefore | hcompleted := first below hbelow
        · exact Or.inl (Or.inl ⟨below, hbefore, rfl⟩)
        · rw [Site.below_reach] at hcompleted
          exact Or.inr (hcompleted.left _)
      · obtain hbefore | hcompleted := ih place hrest
        · exact Or.inl (Or.inr hbefore)
        · exact Or.inr (hcompleted.right _)

/-- Parallel children advance in such a way that there is one next effect each. -/
theorem Alongside.length {Turn : Site → Action → Effect → Log Journaled → Effect → Prop}
    {site : Site} {index : Nat} {children : List Action} {effects nexts : List Effect}
    {log : Log Journaled} (h : Alongside Turn site index children effects log nexts) :
    nexts.length = children.length := by
  induction h with
  | nil => rfl
  | cons _ _ ih => simp [ih]

/-- Every advance reports what it completes. -/
theorem finishes (inlineCap : Nat) : AdvanceCases inlineCap Finishes where
  ended site action failure snapshot place hplace := Or.inl hplace
  misfit site action effect misfit place hplace := by
    rw [finished_misfit] at hplace
    cases hplace
  empty site action effect hempty place hplace := by
    rw [Effect.completed, finished_completed] at hplace
    cases action <;> simp_all [children?, leaves, leavesFrom]
  opens site action log next h place hplace := by
    refine (h place hplace).imp_left fun hopened => ?_
    rw [finished_opened] at hopened
    cases hopened
  execute site step status log next h place hplace := by
    obtain ⟨rfl, snapshot, rfl⟩ := mem_finished_step hplace
    rw [Step.journal_execute h, Site.reach_nil]
    exact Or.inr ⟨snapshot, by simp⟩
  recheck site step status condition log next h place hplace := by
    obtain ⟨rfl, snapshot, rfl⟩ := mem_finished_step hplace
    rw [Condition.journal_recheck h, Site.reach_nil]
    exact Or.inr ⟨snapshot, by simp⟩
  seq site children status index running child log next hrunning h place hplace := by
    rw [finished_seq hrunning, List.mem_append, List.mem_map]
    obtain hearlier | ⟨below, hbelow, rfl⟩ := mem_finished_afterChild hrunning status hplace
    · exact Or.inl (Or.inl hearlier)
    · obtain hbefore | hcompleted := h below hbelow
      · exact Or.inl (Or.inr ⟨below, hbefore, rfl⟩)
      · rw [Site.below_reach] at hcompleted
        exact Or.inr hcompleted
  par site children status effects log nexts h place hplace := by
    refine h.finishes place ?_
    obtain ⟨failure, -, heq⟩ | ⟨hnone, hall, heq⟩ | ⟨-, -, heq⟩ :=
      Effect.afterChildren_cases nexts
    · rw [heq, finished_failed] at hplace
      cases hplace
    · rw [heq, Effect.completed, finished_completed, leaves] at hplace
      rw [finishedAll_completed h.length]
      · exact hplace
      · intro effect heffect
        exact Effect.eq_done_of_isDone (List.all_eq_true.1 hall effect heffect)
          (List.findSome?_eq_none_iff.1 hnone effect heffect)
    · rwa [heq, finished] at hplace

/-! ## Leaves that fail -/

/-- A leaf that fails makes the whole fail. -/
def Stops (_site : Site) (_action : Action) (_effect : Effect) (log : Log Journaled)
    (next : Effect) : Prop :=
  (∃ site, (Journaled.journal log).Failed site) → ∃ failure, next.failure? = some failure

theorem Alongside.stops {site : Site} {index : Nat} {children : List Action}
    {effects nexts : List Effect} {log : Log Journaled}
    (h : Alongside Stops site index children effects log nexts)
    (hfailed : ∃ site, (Journaled.journal log).Failed site) :
    ∃ next ∈ nexts, ∃ failure, next.failure? = some failure := by
  induction h with
  | nil => obtain ⟨_, _, _, hmem⟩ := hfailed; simp at hmem
  | @cons index child children effect next effects nexts log later first rest ih =>
      simp only [Journaled.journal_append, Journal.failed_append, exists_or] at hfailed
      obtain hhere | hlater := hfailed
      · exact ⟨next, List.mem_cons_self, first hhere⟩
      · obtain ⟨other, hother, hfailure⟩ := ih hlater
        exact ⟨other, List.mem_cons_of_mem _ hother, hfailure⟩

/-- Every advance in which a leaf fails is the last one. -/
theorem stops (inlineCap : Nat) : AdvanceCases inlineCap Stops where
  ended site action failure snapshot := by rintro ⟨_, _, _, hmem⟩; simp at hmem
  misfit site action effect misfit := by rintro ⟨_, _, _, hmem⟩; simp at hmem
  empty site action effect _ := by rintro ⟨_, _, _, hmem⟩; simp at hmem
  opens site action log next h := h
  execute site step status log next h := by
    rintro ⟨_, failure, snapshot, hmem⟩
    rw [Step.journal_execute h] at hmem
    obtain ⟨-, rfl⟩ : _ ∧ _ := by simpa using hmem
    exact ⟨failure, rfl⟩
  recheck site step status condition log next h := by
    rintro ⟨_, failure, snapshot, hmem⟩
    rw [Condition.journal_recheck h] at hmem
    obtain ⟨-, rfl⟩ : _ ∧ _ := by simpa using hmem
    exact ⟨failure, rfl⟩
  seq site children status index running child log next _ h hfailed := by
    obtain ⟨failure, hfailure⟩ := h hfailed
    obtain ⟨snapshot, rfl⟩ := Effect.failure?_eq_some.1 hfailure
    exact ⟨failure, rfl⟩
  par site children status effects log nexts h hfailed := by
    obtain ⟨next, hnext, failure, hfailure⟩ := h.stops hfailed
    obtain ⟨first, -, heq⟩ | ⟨hnone, -, -⟩ | ⟨hnone, -, -⟩ :=
      Effect.afterChildren_cases nexts
    · exact ⟨first, by rw [heq]; rfl⟩
    · rw [List.findSome?_eq_none_iff.1 hnone next hnext] at hfailure
      cases hfailure
    · rw [List.findSome?_eq_none_iff.1 hnone next hnext] at hfailure
      cases hfailure

/-! ## What the journal is about -/

/-- The journal is about leaves below the site. -/
def Tells (site : Site) (_action : Action) (_effect : Effect) (log : Log Journaled)
    (_next : Effect) : Prop :=
  ∀ note ∈ Journaled.journal log, ∃ place,
    note = .execute (site.reach place) ∨ ∃ next, note = .leaf (site.reach place) next

theorem Tells.below {site : Site} {branch : Branch} {action : Action} {effect next : Effect}
    {log : Log Journaled} (h : Tells (site.below branch) action effect log next) :
    Tells site action effect log next := by
  intro note hnote
  obtain ⟨place, hplace⟩ := h note hnote
  rw [Site.below_reach] at hplace
  exact ⟨branch :: place, hplace⟩

theorem Alongside.tells {site : Site} {index : Nat} {children : List Action}
    {effects nexts : List Effect} {log : Log Journaled}
    (h : Alongside Tells site index children effects log nexts) :
    ∀ note ∈ Journaled.journal log, ∃ place,
      note = .execute (site.reach place) ∨ ∃ next, note = .leaf (site.reach place) next := by
  induction h with
  | nil => simp
  | cons first rest ih =>
      intro note hnote
      rw [Journaled.journal_append, List.mem_append] at hnote
      obtain hfirst | hrest := hnote
      · exact first.below note hfirst
      · exact ih note hrest

/-- Every advance writes only about leaves. -/
theorem tells (inlineCap : Nat) : AdvanceCases inlineCap Tells where
  ended site action failure snapshot := by simp [Tells]
  misfit site action effect misfit := by simp [Tells]
  empty site action effect _ := by simp [Tells]
  opens site action log next h := h
  execute site step status log next h := by
    intro note hnote
    rw [Step.journal_execute h] at hnote
    refine ⟨[], ?_⟩
    rw [Site.reach_nil]
    simp only [List.mem_cons, List.not_mem_nil, or_false] at hnote
    exact hnote.imp_right fun heq => ⟨next, heq⟩
  recheck site step status condition log next h := by
    intro note hnote
    rw [Condition.journal_recheck h, List.mem_singleton] at hnote
    exact ⟨[], Or.inr ⟨next, by rw [Site.reach_nil, hnote]⟩⟩
  seq site children status index running child log next _ h := h.below
  par site children status effects log nexts h := h.tells

end Action

end ProgramQueue
