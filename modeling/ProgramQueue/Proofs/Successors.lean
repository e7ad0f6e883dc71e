import ProgramQueue.Proofs.Launches
import ProgramQueue.Proofs.Runs

/-!
# The step that follows

The plan names a step for a condition that is waited for, by looking at the action tree
alone.  It is the step that is started next once this condition holds and no other has
come to hold: the advance that finds it so starts nothing, and the one after it starts
that step.
-/

namespace ProgramQueue

open ProgramQueue.Task (Follows follows_run)

namespace Effect

/-- Every leaf that is outstanding has been started. -/
def Started (effect : Effect) : Prop :=
  ∀ leaf ∈ effect.pendingLeaves, leaf.2 ≠ .init

theorem not_started_init : ¬Effect.init.Started := by
  intro h
  exact h ([], .init) List.mem_cons_self rfl

theorem started_seq {index : Nat} {child : Effect} (h : (Effect.seq index child).Started) :
    child.Started := by
  intro leaf hleaf
  exact h (.seq index :: leaf.1, leaf.2) (List.mem_map.2 ⟨leaf, hleaf, rfl⟩)

theorem started_par {children : List Effect} (h : (Effect.par children).Started) :
    ∀ child ∈ children, child.Started := by
  suffices hfrom : ∀ index, (∀ leaf ∈ pendingLeavesFrom index children, leaf.2 ≠ .init) →
      ∀ child ∈ children, child.Started from hfrom 0 h
  clear h
  induction children with
  | nil => intro _ _ child hchild; cases hchild
  | cons first rest ih =>
      intro index h child hchild
      rw [pendingLeavesFrom, List.forall_mem_append] at h
      rcases List.mem_cons.1 hchild with rfl | hrest
      · intro leaf hleaf
        exact h.1 (.par index :: leaf.1, leaf.2) (List.mem_map.2 ⟨leaf, hleaf, rfl⟩)
      · exact ih (index + 1) h.2 child hrest

end Effect

namespace Action

/-- Nothing is to be started of what has all been started. -/
theorem Fits.starting_eq_nil {action : Action} {effect : Effect} (h : action.Fits effect)
    (hstarted : effect.Started) : action.starting effect = [] := by
  induction h with
  | init => exact absurd hstarted Effect.not_started_init
  | await => exact starting_await _ _
  | seq hrunning _ _ ih =>
      rw [starting_seq hrunning, ih (Effect.started_seq hstarted), List.map_nil]
  | par _ ended _ _ ih =>
      rw [starting]
      have hall := forall_children
        (fun action effect => effect.Started → action.starting effect = [])
        ended (fun _ _ => starting_done _ _ _) ih
      refine startingAll_eq_nil fun pair hpair => hall pair hpair ?_
      exact Effect.started_par hstarted _ (List.of_mem_zip hpair).2

theorem Sound.starting_eq_nil {action : Action} {effect : Effect} (h : action.Sound effect)
    (hstarted : effect.Started) : action.starting effect = [] := by
  cases h with
  | fits h => exact h.starting_eq_nil hstarted
  | completed => exact starting_done _ _ _
  | stopped => exact starting_done _ _ _

/-! ## Advances that only check -/

mutual

/-- What comes of an effect when the conditions at some places are met. -/
def settle (met : Path → Bool) : Action → Effect → Effect
  | seq children _, .seq index child =>
      .afterChild children.length index
        (settleSeq (fun place => met (.seq index :: place)) children index child)
  | par children _, .par effects => .afterChildren (settleAll met 0 children effects)
  | _, .await condition => if met [] then .completed else .await condition
  | _, effect => effect

/-- The same for the child of a sequence after so many others. -/
def settleSeq (met : Path → Bool) : List Action → Nat → Effect → Effect
  | [], _, child => child
  | running :: _, 0, child => settle met running child
  | _ :: rest, skip + 1, child => settleSeq met rest skip child

def settleAll (met : Path → Bool) (index : Nat) : List Action → List Effect → List Effect
  | child :: children, effect :: effects =>
      settle (fun place => met (.par index :: place)) child effect ::
        settleAll met (index + 1) children effects
  | _, effects => effects

end

variable {met : Path → Bool}

@[simp]
theorem settle_init (action : Action) : action.settle met .init = .init := by
  cases action <;> simp [settle]

@[simp]
theorem settle_done (action : Action) (failure : Option Failure)
    (snapshot : Option (List Effect)) :
    action.settle met (.done failure snapshot) = .done failure snapshot := by
  cases action <;> simp [settle]

theorem settle_await (action : Action) (condition : Condition) :
    action.settle met (.await condition) = if met [] then .completed else .await condition := by
  cases action <;> simp [settle]

theorem settle_seq {children : List Action} {index : Nat} {running : Action}
    (hrunning : children[index]? = some running) (status : Option Status) (child : Effect) :
    (seq children status).settle met (.seq index child) =
      .afterChild children.length index
        (running.settle (fun place => met (.seq index :: place)) child) := by
  suffices h : ∀ (met : Path → Bool) (rest : List Action) (skip : Nat),
      rest[skip]? = some running → settleSeq met rest skip child = running.settle met child by
    rw [settle, h _ children index hrunning]
  intro met rest
  induction rest with
  | nil => intro skip h; simp at h
  | cons first rest ih =>
      intro skip h
      cases skip with
      | zero =>
          obtain rfl : first = running := by simpa using h
          rw [settleSeq]
      | succ skip => rw [settleSeq, ih skip (by simpa using h)]

/-- Parallel children stay as they are if no condition of theirs is met. -/
theorem settleAll_none {index : Nat} {children : List Action} {effects : List Effect}
    (hnone : ∀ other, index ≤ other → ∀ place, met (.par other :: place) = false)
    (hstays : ∀ pair ∈ children.zip effects, pair.1.settle (fun _ => false) pair.2 = pair.2) :
    settleAll met index children effects = effects := by
  induction children generalizing index effects with
  | nil => rw [settleAll.eq_def]
  | cons child rest ih =>
      cases effects with
      | nil => rw [settleAll.eq_def]
      | cons effect effects =>
          rw [List.zip_cons_cons, List.forall_mem_cons] at hstays
          have hlater : ∀ other, index + 1 ≤ other → ∀ place, met (.par other :: place) = false :=
            fun other hother => hnone other (Nat.le_of_succ_le hother)
          simp only [settleAll, hnone index (Nat.le_refl index)]
          rw [hstays.1, ih hlater hstays.2]

/-- If no condition is met, everything stays as it is. -/
theorem Fits.settle_none {action : Action} {effect : Effect} (h : action.Fits effect) :
    action.settle (fun _ => false) effect = effect := by
  induction h with
  | init => exact settle_init _
  | await => exact settle_await _ _
  | seq hrunning hopen _ ih => rw [settle_seq hrunning, ih, Effect.afterChild_pending hopen]
  | @par children status effects width ended below hopen ih =>
      have hfits : (Action.par children status).Fits (.par effects) :=
        .par width ended below hopen
      have hstays := forall_children
        (fun action effect => action.settle (fun _ => false) effect = effect)
        ended (fun _ => settle_done _ _ _) ih
      rw [settle, settleAll_none (fun _ _ _ => rfl) hstays]
      exact Effect.afterChildren_pending
        (fun effect heffect => hfits.unfailed (.par heffect .here)) hopen

theorem Sound.settle_none {action : Action} {effect : Effect} (h : action.Sound effect) :
    action.settle (fun _ => false) effect = effect := by
  cases h with
  | fits h => exact h.settle_none
  | completed => exact settle_done _ _ _
  | stopped => exact settle_done _ _ _

end Action

namespace Journal

/-- Of the conditions that are checked below a site those at some places are met, and all
others are still waited for. -/
structure Meets (journal : Journal) (site : Site) (met : Path → Bool) : Prop where
  holds : ∀ place leaf, Note.leaf (site.reach place) leaf ∈ journal → met place = true →
    leaf = .completed
  waiting : ∀ place leaf, Note.leaf (site.reach place) leaf ∈ journal → met place = false →
    leaf.isDone = false

theorem Meets.subset {journal inner : Journal} {site : Site} {met : Path → Bool}
    (h : journal.Meets site met) (hinner : inner ⊆ journal) : inner.Meets site met where
  holds place leaf hleaf := h.holds place leaf (hinner hleaf)
  waiting place leaf hleaf := h.waiting place leaf (hinner hleaf)

theorem Meets.below {journal : Journal} {site : Site} {met : Path → Bool}
    (h : journal.Meets site met) (branch : Branch) :
    journal.Meets (site.below branch) fun place => met (branch :: place) := by
  constructor
  · intro place leaf hleaf hmet
    rw [Site.below_reach] at hleaf
    exact h.holds _ leaf hleaf hmet
  · intro place leaf hleaf hmet
    rw [Site.below_reach] at hleaf
    exact h.waiting _ leaf hleaf hmet

end Journal

namespace Action

/-- An advance of what has all been started depends on the conditions that are met only. -/
def Settles (site : Site) (action : Action) (effect : Effect) (log : Log Journaled)
    (next : Effect) : Prop :=
  action.Sound effect → effect.Started → ∀ met : Path → Bool,
    (Journaled.journal log).Meets site met → next = action.settle met effect

theorem Alongside.settles {site : Site} {index : Nat} {children : List Action}
    {effects nexts : List Effect} {log : Log Journaled}
    (h : Alongside Settles site index children effects log nexts)
    (hsound : ∀ pair ∈ children.zip effects, pair.1.Sound pair.2)
    (hstarted : ∀ effect ∈ effects, effect.Started) {met : Path → Bool}
    (hmeets : (Journaled.journal log).Meets site met) :
    nexts = settleAll met index children effects := by
  induction h with
  | nil => rw [settleAll.eq_def]
  | @cons index child children effect next effects nexts log later first rest ih =>
      rw [List.zip_cons_cons, List.forall_mem_cons] at hsound
      rw [List.forall_mem_cons] at hstarted
      rw [Journaled.journal_append] at hmeets
      have hfirst := hmeets.subset (List.subset_append_left _ _)
      have hlater := hmeets.subset (List.subset_append_right _ _)
      have hnext := first hsound.1 hstarted.1 _ (hfirst.below (.par index))
      rw [settleAll, hnext, ih hsound.2 hstarted.2 hlater]

theorem settles (inlineCap : Nat) : NodeCases inlineCap Settles where
  ended site action failure snapshot _ _ met _ := by rw [settle_done]
  misfit site action effect misfit hmisfit h _ _ _ := absurd h.admits hmisfit
  empty site action effect hempty hopen _ h hstarted met _ := by
    rw [(h.fits_of_isOpen hopen).eq_init hempty] at hstarted
    exact absurd hstarted Effect.not_started_init
  opens site action log next _ _ _ hstarted := absurd hstarted Effect.not_started_init
  execute site step status log next _ _ hstarted := absurd hstarted Effect.not_started_init
  recheck site step status condition log next h _ _ met hmeets := by
    have hleaf : Note.leaf (site.reach []) next ∈ Journaled.journal log := by
      rw [Condition.journal_recheck h, Site.reach_nil]
      exact List.mem_cons_self
    rw [settle_await]
    cases hmet : met [] with
    | true => exact hmeets.holds [] next hleaf hmet
    | false =>
        have hopen := hmeets.waiting [] next hleaf hmet
        obtain ⟨inner, outer, result, -, -, -, rfl⟩ := Condition.follows_recheck h
        rcases Effect.ofCheck_cases (.await condition) result with ⟨failure, heq⟩ | heq
        · rw [heq] at hopen
          cases hopen
        · exact heq
  seq site children status index running child log next hrunning h hsound hstarted met
      hmeets := by
    have hnext := h (hsound.below_seq hrunning) (Effect.started_seq hstarted) _
      (hmeets.below (.seq index))
    rw [settle_seq hrunning, hnext]
  par site children status effects log nexts h hsound hstarted met hmeets := by
    rw [settle, h.settles hsound.below_par (Effect.started_par hstarted) hmeets]

/-! ## The step that is started first -/

mutual

/-- Built of steps and of sequences that have children. -/
def sequential : Action → Bool
  | seq children _ => !children.isEmpty && sequentialAll children
  | par _ _ => false
  | step _ _ => true

def sequentialAll : List Action → Bool
  | [] => true
  | child :: rest => sequential child && sequentialAll rest

end

theorem sequential_child {children : List Action} {status : Option Status}
    (h : (seq children status).sequential = true) {index : Nat} {child : Action}
    (hchild : children[index]? = some child) : child.sequential = true := by
  rw [sequential, Bool.and_eq_true] at h
  replace h := h.2
  induction children generalizing index with
  | nil => cases hchild
  | cons first rest ih =>
      rw [sequentialAll, Bool.and_eq_true] at h
      cases index with
      | zero =>
          obtain rfl : first = child := by simpa using hchild
          exact h.1
      | succ index => exact ih (by simpa using hchild) h.2

/-- Something is started first of steps and sequences that have children. -/
theorem firstLeaf_of_sequential : (action : Action) → action.sequential = true →
    ∃ leaf, action.firstLeaf? = some leaf
  | seq [] status, h => by simp [sequential] at h
  | seq (first :: rest) status, h => by
      have hfirst : (first :: rest)[0]? = some first := rfl
      rw [firstLeaf?]
      exact firstLeaf_of_sequential first (sequential_child h hfirst)
  | par children status, h => by cases h
  | step s status, _ => ⟨step s status, firstLeaf?.eq_4 s status⟩

/-- The step that is found by descending first children is the one that starts. -/
theorem firsts_of_firstLeaf : (action : Action) → ∀ {leaf : Action},
    action.firstLeaf? = some leaf →
    ∃ place, action.firsts = [place] ∧ action.node? place = some leaf
  | seq [] status, leaf, h => by cases h
  | seq (first :: rest) status, leaf, h => by
      rw [firstLeaf?] at h
      obtain ⟨place, hfirsts, hnode⟩ := firsts_of_firstLeaf first h
      refine ⟨.seq 0 :: place, ?_, hnode⟩
      rw [firsts, hfirsts, List.map_singleton]
  | par children status, leaf, h => by cases h
  | step s status, leaf, h => by
      rw [firstLeaf?] at h
      exact ⟨[], by rw [firsts], h⟩

/-! ## The step that is named -/

/-- What is named to follow is what follows the whole if that is complete, and else the
one step that is started next; nothing is named only because of children that are
parallel or missing. -/
def Hands (action : Action) (next : Effect) (following carried : Option Action) : Prop :=
  (next = .completed ∧ carried = following.filter hasPushPayload) ∨
  (∃ place step, action.starting next = [place] ∧ action.node? place = some step ∧
    carried = (some step).filter hasPushPayload) ∨
  (carried = none ∧ action.sequential = false)

theorem hasPushPayload_iff {action : Action} :
    action.hasPushPayload = true ↔
      ∃ transaction status, action = .step (.broadcast transaction) status := by
  constructor
  · intro h
    cases action with
    | step step status =>
        cases step with
        | broadcast transaction => exact ⟨transaction, status, rfl⟩
        | _ => cases h
    | seq children status => cases h
    | par children status => cases h
  · rintro ⟨transaction, status, rfl⟩
    rfl

/-- A step that is named to follow is a transaction to be broadcast. -/
theorem broadcast_of_carried {step action : Action}
    (h : some action = (some step).filter hasPushPayload) :
    action = step ∧ ∃ transaction status, step = .step (.broadcast transaction) status := by
  obtain ⟨hstep, hpayload⟩ := Option.filter_eq_some_iff.1 h.symm
  obtain rfl := Option.some.inj hstep
  exact ⟨rfl, hasPushPayload_iff.1 hpayload⟩

/-- What is started of an effect is not over. -/
theorem isOpen_of_starting {action : Action} {effect : Effect} {place : Path}
    (h : action.starting effect = [place]) : effect.isDone = false := by
  cases hdone : effect.isDone with
  | false => rfl
  | true =>
      obtain ⟨failure, snapshot, rfl⟩ := Effect.isDone_iff.1 hdone
      rw [starting_done] at h
      cases h

/-- A sequence hands over to its next child, or to what follows it. -/
theorem Hands.afterChild {children : List Action} {index : Nat} {running : Action}
    (hrunning : children[index]? = some running) (status : Option Status) {next : Effect}
    {following carried : Option Action}
    (h : running.Hands next (children[index + 1]?.elim following firstLeaf?) carried) :
    (seq children status).Hands (.afterChild children.length index next) following carried := by
  rcases h with ⟨rfl, hcarried⟩ | ⟨place, step, hstarts, hnode, hcarried⟩ | ⟨hcarried, hshape⟩
  · rw [Effect.completed, Effect.afterChild_completed]
    cases hsibling : children[index + 1]? with
    | none =>
        rw [hsibling] at hcarried
        rw [if_pos (List.getElem?_eq_none_iff.1 hsibling)]
        exact Or.inl ⟨rfl, hcarried⟩
    | some sibling =>
        have hlater : index + 1 < children.length := (List.getElem?_eq_some_iff.1 hsibling).1
        rw [hsibling, Option.elim_some] at hcarried
        rw [if_neg (Nat.not_le_of_lt hlater)]
        cases hleaf : sibling.firstLeaf? with
        | none =>
            refine Or.inr (Or.inr ⟨by rw [hcarried, hleaf]; rfl, ?_⟩)
            refine Bool.eq_false_iff.2 fun hsequential => ?_
            obtain ⟨step, hstep⟩ :=
              firstLeaf_of_sequential sibling (sequential_child hsequential hsibling)
            rw [hleaf] at hstep
            cases hstep
        | some step =>
            obtain ⟨place, hfirsts, hnode⟩ := firsts_of_firstLeaf sibling hleaf
            refine Or.inr (Or.inl ⟨.seq (index + 1) :: place, step, ?_, ?_, ?_⟩)
            · rw [starting_seq hsibling, starting_init, hfirsts, List.map_singleton]
            · rw [node?, hsibling]
              exact hnode
            · rw [hcarried, hleaf]
  · rw [Effect.afterChild_pending (isOpen_of_starting hstarts)]
    refine Or.inr (Or.inl ⟨.seq index :: place, step, ?_, ?_, hcarried⟩)
    · rw [starting_seq hrunning, hstarts, List.map_singleton]
    · rw [node?, hrunning]
      exact hnode
  · refine Or.inr (Or.inr ⟨hcarried, Bool.eq_false_iff.2 fun hsequential => ?_⟩)
    rw [sequential_child hsequential hrunning] at hshape
    cases hshape

/-- What parallel children wait for is waited for by one of them, and nothing follows it. -/
theorem mem_planPar {index : Nat} {children : List Action} {effects : List Effect}
    {place : Path} {entry : Path × Effect × Option Action}
    (h : entry ∈ planPar index children effects place) :
    ∃ (offset : Nat) (child : Action) (effect : Effect),
      children[offset]? = some child ∧ effects[offset]? = some effect ∧
      entry ∈ child.plan effect (place ++ [.par (index + offset)]) none := by
  induction children generalizing index effects with
  | nil => simp [planPar] at h
  | cons first rest ih =>
      cases effects with
      | nil => simp [planPar] at h
      | cons effect effects =>
          rw [planPar, List.mem_append] at h
          rcases h with hfirst | hrest
          · exact ⟨0, first, effect, rfl, rfl, hfirst⟩
          · obtain ⟨offset, child, other, hchild, hother, hentry⟩ := ih hrest
            refine ⟨offset + 1, child, other, hchild, hother, ?_⟩
            rwa [Nat.add_assoc, Nat.add_comm 1] at hentry

/-- A condition of one of the parallel children is met, and the others stay as they are. -/
theorem settleAll_single {index : Nat} {children : List Action} {effects : List Effect}
    (hstays : ∀ pair ∈ children.zip effects, pair.1.settle (fun _ => false) pair.2 = pair.2)
    {offset : Nat} {child : Action} {effect : Effect} (hchild : children[offset]? = some child)
    (heffect : effects[offset]? = some effect) (below : Path) :
    settleAll (fun place => decide (place = .par (index + offset) :: below)) index children
      effects = effects.set offset (child.settle (fun place => decide (place = below)) effect) := by
  induction children generalizing index effects offset with
  | nil => cases hchild
  | cons first rest ih =>
      cases effects with
      | nil => cases heffect
      | cons one others =>
          rw [List.zip_cons_cons, List.forall_mem_cons] at hstays
          cases offset with
          | zero =>
              obtain rfl : first = child := by simpa using hchild
              obtain rfl : one = effect := by simpa using heffect
              rw [settleAll, settleAll_none ?_ hstays.2]
              · simp
              · intro other hother place
                simp only [List.cons.injEq, Branch.par.injEq, decide_eq_false_iff_not]
                omega
          | succ offset =>
              have hapart : ∀ place : Path,
                  decide (Branch.par index :: place = .par (index + (offset + 1)) :: below) =
                    false := by
                intro place
                simp only [List.cons.injEq, Branch.par.injEq, decide_eq_false_iff_not]
                omega
              have hshift : index + (offset + 1) = index + 1 + offset := by omega
              simp only [settleAll, hapart, List.set_cons_succ]
              rw [hstays.1, hshift, ih hstays.2 hchild heffect]

/-- Of parallel children that start nothing one comes to another effect. -/
theorem startingAll_set {index : Nat} {children : List Action} {effects : List Effect}
    (hnone : ∀ pair ∈ children.zip effects, pair.1.starting pair.2 = [])
    {offset : Nat} {child : Action} (hchild : children[offset]? = some child)
    (hoffset : offset < effects.length) (next : Effect) :
    startingAll index children (effects.set offset next) =
      (child.starting next).map (.par (index + offset) :: ·) := by
  induction children generalizing index effects offset with
  | nil => cases hchild
  | cons first rest ih =>
      cases effects with
      | nil => cases hoffset
      | cons effect effects =>
          rw [List.zip_cons_cons, List.forall_mem_cons] at hnone
          cases offset with
          | zero =>
              obtain rfl : first = child := by simpa using hchild
              rw [List.set_cons_zero, startingAll, startingAll_eq_nil hnone.2, List.append_nil]
              rfl
          | succ offset =>
              rw [List.set_cons_succ, startingAll, hnone.1, List.map_nil, List.nil_append,
                ih hnone.2 hchild (by simpa using hoffset)]
              rw [Nat.add_assoc, Nat.add_comm 1]

/-- Parallel children hand over to what the one child starts that has gone on. -/
theorem Hands.afterChildren {children : List Action} {status : Option Status}
    {effects : List Effect} (hfits : (par children status).Fits (.par effects))
    (hstarted : (Effect.par effects).Started) {offset : Nat} {child : Action}
    (hchild : children[offset]? = some child) (hoffset : offset < effects.length)
    {next : Effect} {carried : Option Action} (h : child.Hands next none carried)
    (following : Option Action) :
    (par children status).Hands (.afterChildren (effects.set offset next)) following carried := by
  rcases h with ⟨-, hcarried⟩ | ⟨place, step, hstarts, hnode, hcarried⟩ | ⟨hcarried, -⟩
  · exact Or.inr (Or.inr ⟨hcarried, rfl⟩)
  · have hnext := isOpen_of_starting hstarts
    rw [Effect.afterChildren_pending]
    · refine Or.inr (Or.inl ⟨.par offset :: place, step, ?_, ?_, hcarried⟩)
      · rw [starting, startingAll_set (fun pair hpair => ?_) hchild hoffset, hstarts,
          Nat.zero_add, List.map_singleton]
        have hsound : pair.1.Sound pair.2 := Sound.below_par (.fits hfits) pair hpair
        exact hsound.starting_eq_nil (Effect.started_par hstarted _ (List.of_mem_zip hpair).2)
      · rw [node?, hchild]
        exact hnode
    · intro other hother
      rcases List.mem_or_eq_of_mem_set hother with hbefore | rfl
      · exact hfits.unfailed (.par hbefore .here)
      · exact Effect.failure?_of_open hnext
    · refine List.all_eq_false.2 ⟨_, List.mem_set hoffset _, ?_⟩
      rw [hnext]
      exact Bool.false_ne_true
  · exact Or.inr (Or.inr ⟨hcarried, rfl⟩)

/-- A leaf that is waited for, once its condition alone is met, is followed by what the
plan names. -/
theorem Fits.hands {action : Action} {effect : Effect} (h : action.Fits effect)
    (hstarted : effect.Started) {place : Path} {following : Option Action}
    {entry : Path × Effect × Option Action} (hentry : entry ∈ action.plan effect place following) :
    ∃ below, entry.1 = place ++ below ∧
      action.Hands (action.settle (fun other => decide (other = below)) effect) following
        entry.2.2 := by
  induction h generalizing place following entry with
  | init => simp at hentry
  | await step status condition =>
      rw [plan_await, List.mem_singleton] at hentry
      obtain rfl := hentry
      refine ⟨[], (List.append_nil place).symm, Or.inl ⟨?_, rfl⟩⟩
      rw [settle_await, if_pos (decide_eq_true rfl)]
  | @seq children status index running child hrunning hopen _ ih =>
      rw [plan_running hrunning] at hentry
      obtain ⟨below, hplace, hhands⟩ := ih (Effect.started_seq hstarted) hentry
      refine ⟨.seq index :: below, by rw [hplace, List.append_assoc]; rfl, ?_⟩
      simp only [settle_seq hrunning, List.cons.injEq, true_and]
      exact hhands.afterChild hrunning status
  | @par children status effects width ended below hopen ih =>
      have hfits : (Action.par children status).Fits (.par effects) :=
        .par width ended below hopen
      have hsound : ∀ pair ∈ children.zip effects, pair.1.Sound pair.2 :=
        Sound.below_par (.fits hfits)
      rw [plan] at hentry
      obtain ⟨offset, child, effect, hchild, heffect, hentry⟩ := mem_planPar hentry
      have hpair : (child, effect) ∈ children.zip effects :=
        List.mem_of_getElem? (List.getElem?_zip_eq_some.2 ⟨hchild, heffect⟩)
      have hmem : effect ∈ effects := (List.of_mem_zip hpair).2
      have hpending : effect.isDone = false := by
        cases hdone : effect.isDone with
        | false => rfl
        | true =>
            rw [ended effect hmem hdone, Effect.completed, plan_done] at hentry
            cases hentry
      obtain ⟨under, hplace, hhands⟩ :=
        ih _ hpair hpending (Effect.started_par hstarted effect hmem) hentry
      refine ⟨.par offset :: under, by rw [hplace, Nat.zero_add, List.append_assoc]; rfl, ?_⟩
      have hsingle : settleAll (fun other => decide (other = .par (0 + offset) :: under)) 0
          children effects = effects.set offset (child.settle _ effect) :=
        settleAll_single (fun pair hpair => (hsound pair hpair).settle_none) hchild heffect under
      rw [Nat.zero_add] at hsingle
      rw [settle, hsingle]
      have hoffset : offset < effects.length := (List.getElem?_eq_some_iff.1 heffect).1
      exact hhands.afterChildren hfits hstarted hchild hoffset following

end Action

namespace Program

variable {program : Program}

/-- In an advance what an entry of the plan waits for has come to hold, and all else that
is waited for is still waited for. -/
structure MeetsOnly (program : Program) (result : ExecutionResult) (log : Log Journaled) :
    Prop where
  holds : ∀ place leaf, Note.leaf ⟨program.id, place⟩ leaf ∈ Journaled.journal log →
    place.text = result.callStackId → leaf = .completed
  waiting : ∀ place leaf, Note.leaf ⟨program.id, place⟩ leaf ∈ Journaled.journal log →
    place.text ≠ result.callStackId → leaf.isDone = false

theorem MeetsOnly.meets {result : ExecutionResult} {log : Log Journaled}
    (h : program.MeetsOnly result log) {below : Path} (hbelow : result.callStackId = below.text) :
    (Journaled.journal log).Meets ⟨program.id, []⟩ fun place => decide (place = below) := by
  constructor
  · intro place leaf hleaf hmet
    refine h.holds place leaf hleaf ?_
    rw [of_decide_eq_true hmet, hbelow]
  · intro place leaf hleaf hmet
    refine h.waiting place leaf hleaf fun htext => ?_
    rw [hbelow] at htext
    exact of_decide_eq_false hmet (Path.text_injective htext)

/-- Of what has all been started an advance starts nothing, and the next one starts what
it finds when the conditions have been met. -/
theorem starts_next {effect : Effect} (hsound : program.action.Sound effect)
    (hstarted : effect.Started) {inlineCap : Nat} {log : Log Journaled} {next : Effect}
    (hadvance : (program.advanceJournaled inlineCap effect).Follows log next)
    {met : Path → Bool} (hmeets : (Journaled.journal log).Meets ⟨program.id, []⟩ met) :
    (Journaled.journal log).executed = [] ∧
    ∀ inlineCap later last, (program.advanceJournaled inlineCap next).Follows later last →
      (Journaled.journal later).executed =
        (program.action.starting (program.action.settle met effect)).map (Site.mk program.id) := by
  obtain ⟨rest, rfl, hrest⟩ := follows_advance.1 hadvance
  have hinner := hmeets.subset (List.subset_cons_self _ _)
  have hnext := (Action.settles inlineCap).holds _ hrest hsound hstarted met hinner
  constructor
  · have hlaunched := (Action.launches inlineCap).holds _ hrest hsound
    rw [hsound.starting_eq_nil hstarted] at hlaunched
    exact hlaunched
  · intro inlineCap' later last hlater
    obtain ⟨others, rfl, hothers⟩ := follows_advance.1 hlater
    have hsoundNext := (Action.shapes inlineCap).holds _ hrest hsound
    have hlaunched := (Action.launches inlineCap').holds _ hothers hsoundNext
    rw [hnext] at hlaunched
    exact hlaunched

/-- The step that the plan names for a condition is a transaction to be broadcast, and when
that condition alone has come to hold it is the one step that is started next.  In a
program of steps and sequences it is named whenever the next step is a broadcast. -/
theorem Reached.follow_up_starts_next {effect : Effect} (h : program.Reached effect)
    (hstarted : effect.Started) {result : ExecutionResult}
    (hresult : result ∈ program.plannedResults effect) :
    (∀ action, result.action = some action →
      ∃ place transaction status, action = .step (.broadcast transaction) status ∧
        program.action.node? place = some action ∧
        ∀ inlineCap log next, (program.advanceJournaled inlineCap effect).Follows log next →
          program.MeetsOnly result log →
          (Journaled.journal log).executed = [] ∧
          ∀ inlineCap later last, (program.advanceJournaled inlineCap next).Follows later last →
            (Journaled.journal later).executed = [⟨program.id, place⟩]) ∧
    (program.action.sequential = true →
      ∀ inlineCap log next, (program.advanceJournaled inlineCap effect).Follows log next →
        program.MeetsOnly result log →
        ∀ inlineCap later last, (program.advanceJournaled inlineCap next).Follows later last →
          ((∃ action, result.action = some action) ↔
            ∃ place transaction status,
              (Journaled.journal later).executed = [⟨program.id, place⟩] ∧
              program.action.node? place = some (.step (.broadcast transaction) status))) := by
  obtain ⟨⟨place, awaited, carried⟩, hentry, rfl⟩ := mem_plannedResults.1 hresult
  have hfits : program.action.Fits effect := by
    refine h.sound.fits_of_isOpen ?_
    cases hdone : effect.isDone with
    | false => rfl
    | true =>
        obtain ⟨failure, snapshot, rfl⟩ := Effect.isDone_iff.1 hdone
        simp at hentry
  obtain ⟨below, hplace, hhands⟩ := hfits.hands hstarted hentry
  obtain rfl : place = below := hplace
  -- In both advances only what the entry waits for has changed.
  have hadvances {inlineCap : Nat} {log : Log Journaled} {next : Effect}
      (hadvance : (program.advanceJournaled inlineCap effect).Follows log next)
      (hmeets : program.MeetsOnly ⟨awaited, carried, place.text⟩ log) :=
    starts_next h.sound hstarted hadvance (hmeets.meets rfl)
  constructor
  · intro action haction
    obtain rfl : carried = some action := haction
    rcases hhands with ⟨-, hcarried⟩ | ⟨leaf, step, hstarts, hnode, hcarried⟩ | ⟨hcarried, -⟩
    · cases hcarried
    · obtain ⟨hstep, hpayload⟩ := Option.filter_eq_some_iff.1 hcarried.symm
      obtain rfl : step = action := Option.some.inj hstep
      obtain ⟨transaction, status, rfl⟩ := Action.hasPushPayload_iff.1 hpayload
      refine ⟨leaf, transaction, status, rfl, hnode, fun inlineCap log next hadvance hmeets => ?_⟩
      obtain ⟨hnothing, hlater⟩ := hadvances hadvance hmeets
      refine ⟨hnothing, fun inlineCap later last hlast => ?_⟩
      rw [hlater inlineCap later last hlast, hstarts, List.map_singleton]
    · cases hcarried
  · intro hsequential inlineCap log next hadvance hmeets inlineCap' later last hlast
    obtain ⟨-, hlater⟩ := hadvances hadvance hmeets
    rw [hlater inlineCap' later last hlast]
    rcases hhands with ⟨hnext, hcarried⟩ | ⟨leaf, step, hstarts, hnode, hcarried⟩ | ⟨-, hparallel⟩
    · -- Nothing is left, so nothing is named and nothing is started.
      obtain rfl : carried = none := hcarried
      rw [hnext, Effect.completed, Action.starting_done]
      simp
    · rw [hstarts, List.map_singleton]
      constructor
      · rintro ⟨action, haction⟩
        obtain rfl : carried = some action := haction
        obtain ⟨rfl, transaction, status, rfl⟩ := Action.broadcast_of_carried hcarried
        exact ⟨leaf, transaction, status, rfl, hnode⟩
      · rintro ⟨other, transaction, status, hother, hbroadcast⟩
        obtain rfl : leaf = other := by simpa using hother
        obtain rfl := Option.some.inj (hnode.symm.trans hbroadcast)
        exact ⟨_, hcarried⟩
    · rw [hsequential] at hparallel
      cases hparallel

/-- Two payments, one after the other, and a message. -/
def relay : Program :=
  ⟨"relay", .seq [.step (.broadcast ⟨"wallet", "bitcoin", [1]⟩) none,
    .seq [.step (.broadcast ⟨"wallet", "bitcoin", [2]⟩) none,
      .step (.toast "sent") none] none] none, none⟩

/-- The first payment was sent. -/
def relaying : Effect := .seq 0 (.await (.txConfs "tx" "wallet" 1))

/-- The first payment is waited for, and the second one is named to follow it. -/
def firstSent : ExecutionResult :=
  ⟨.await (.txConfs "tx" "wallet" 1),
    some (.step (.broadcast ⟨"wallet", "bitcoin", [2]⟩) none), Path.text [.seq 0]⟩

/-- An advance of the two payments while every transaction is seen at once. -/
def relayLog (effect : Effect) : Log Journaled :=
  (relay.advanceJournaled 0 effect).log confirming.noting ()

def relayNext (effect : Effect) : Effect :=
  ((relay.advanceJournaled 0 effect).run confirming.noting ()).value

/-- Once the first payment has gone through, the second one is started next. -/
theorem relay_starts_next :
    relay.Reached relaying ∧ relaying.Started ∧ firstSent ∈ relay.plannedResults relaying ∧
    relay.MeetsOnly firstSent (relayLog relaying) ∧ relay.action.sequential = true ∧
    ∃ place, (Journaled.journal (relayLog (relayNext relaying))).executed = [⟨"relay", place⟩] ∧
      relay.action.node? place = some (.step (.broadcast ⟨"wallet", "bitcoin", [2]⟩) none) := by
  have hreached : relay.Reached relaying :=
    .advance .fresh (follows_run confirming (relay.advance 0 .init) ())
  have hstarted : relaying.Started := by
    intro leaf hleaf heq
    rw [List.mem_singleton.1 hleaf] at heq
    cases heq
  have hplanned : firstSent ∈ relay.plannedResults relaying := List.mem_singleton.2 rfl
  have hjournal : Journaled.journal (relayLog relaying) =
      [.advance "relay", .leaf ⟨"relay", [.seq 0]⟩ .completed] := rfl
  have hnotes {place : Path} {leaf : Effect}
      (hleaf : Note.leaf ⟨relay.id, place⟩ leaf ∈ Journaled.journal (relayLog relaying)) :
      place = [.seq 0] ∧ leaf = .completed := by
    rw [hjournal] at hleaf
    rcases List.mem_cons.1 hleaf with heq | hmem
    · cases heq
    · obtain ⟨hsite, hover⟩ := Note.leaf.inj (List.mem_singleton.1 hmem)
      exact ⟨congrArg Site.place hsite, hover⟩
  have hmeets : relay.MeetsOnly firstSent (relayLog relaying) := by
    constructor
    · intro place leaf hleaf _
      exact (hnotes hleaf).2
    · intro place leaf hleaf htext
      rw [(hnotes hleaf).1] at htext
      exact absurd rfl htext
  have hfirst := follows_run confirming.noting (relay.advanceJournaled 0 relaying) ()
  have hsecond := follows_run confirming.noting
    (relay.advanceJournaled 0 (relayNext relaying)) ()
  obtain ⟨hnamed, -⟩ := hreached.follow_up_starts_next hstarted hplanned
  obtain ⟨place, transaction, status, -, hnode, hadvances⟩ := hnamed _ rfl
  obtain ⟨-, hstarts⟩ := hadvances 0 _ _ hfirst hmeets
  exact ⟨hreached, hstarted, hplanned, hmeets, rfl, place, hstarts 0 _ _ hsecond, hnode⟩

end Program

end ProgramQueue
