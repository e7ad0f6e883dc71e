import ProgramQueue.Proofs.Failures

/-!
# Misfits

A stored effect may be anything, so it need not fit the action that it is said to be the
progress of.  An advance reports a misfit exactly where there is one, however deep it lies
and whatever the other branches come to, and stops the program over it.
-/

namespace ProgramQueue

open ProgramQueue.Task (follows_run)

namespace Effect

/-- Over because of a misfit, or with the snapshot of a branch that is. -/
inductive ReportsMisfit : Effect → Prop
  | root {message : String} {snapshot : Option (List Effect)} :
      ReportsMisfit (.done (some ⟨.invalidState, message⟩) snapshot)
  | branch {failure : Failure} {branches : List Effect} {branch : Effect}
      (hbranch : branch ∈ branches) (below : ReportsMisfit branch) :
      ReportsMisfit (.done (some failure) (some branches))

/-- Nothing that has failed stands in the effect. -/
def Unfailed (effect : Effect) : Prop :=
  ∀ node : Effect, node.Inside effect → node.failure? = none

/-- Nothing in the effect has failed because of a misfit. -/
def Fitting (effect : Effect) : Prop :=
  ∀ node : Effect, node.Inside effect → ∀ failure ∈ node.failure?, failure.kind ≠ .invalidState

variable {effect child next : Effect} {children nexts : List Effect}

theorem ReportsMisfit.failed (h : next.ReportsMisfit) :
    ∃ failure snapshot, next = .done (some failure) snapshot := by
  cases h with
  | root => exact ⟨_, _, rfl⟩
  | branch => exact ⟨_, _, rfl⟩

theorem ReportsMisfit.not_fitting (h : next.ReportsMisfit) : ¬next.Fitting := by
  intro hfitting
  induction h with
  | root => exact hfitting _ .here _ rfl rfl
  | branch hbranch _ ih => exact ih fun node hnode => hfitting node (.snapshot hbranch hnode)

theorem Unfailed.fitting (h : effect.Unfailed) : effect.Fitting := by
  intro node hnode failure hfailure
  cases (h node hnode).symm.trans hfailure

theorem Unfailed.seq {index : Nat} (h : (Effect.seq index child).Unfailed) : child.Unfailed :=
  fun node hnode => h node (.seq hnode)

theorem Unfailed.par (h : (Effect.par children).Unfailed) (hchild : child ∈ children) :
    child.Unfailed :=
  fun node hnode => h node (.par hchild hnode)

/-! ## What is gathered of children -/

/-- A sequence reports what its running child reports. -/
theorem ReportsMisfit.afterChild {count index : Nat} (h : next.ReportsMisfit) :
    (afterChild count index next).ReportsMisfit := by
  obtain ⟨failure, snapshot, rfl⟩ := h.failed
  rw [afterChild_failed]
  exact h

theorem Fitting.afterChild {count index : Nat} (h : next.Fitting) :
    (afterChild count index next).Fitting := by
  cases hdone : next.isDone with
  | false =>
      rw [afterChild_pending hdone]
      intro node hnode
      cases hnode with
      | here => exact nofun
      | seq below => exact h node below
  | true =>
      obtain ⟨failure, snapshot, rfl⟩ := isDone_iff.1 hdone
      cases failure with
      | some failure =>
          rw [afterChild_failed]
          exact h
      | none =>
          apply Unfailed.fitting
          rw [afterChild_completed]
          split
          · intro node hnode
            cases hnode
            rfl
          · intro node hnode
            cases hnode with
            | here => rfl
            | seq below =>
                cases below
                rfl

/-- Parallel children report what any of them reports: it is kept in the snapshot, whatever
the failure is that they are over with. -/
theorem ReportsMisfit.afterChildren (hnext : next ∈ nexts) (h : next.ReportsMisfit) :
    (afterChildren nexts).ReportsMisfit := by
  obtain ⟨failure, snapshot, rfl⟩ := h.failed
  obtain ⟨first, -, heq⟩ | ⟨hnone, -, -⟩ | ⟨hnone, -, -⟩ := afterChildren_cases nexts
  · rw [heq]
    exact .branch hnext h
  · cases List.findSome?_eq_none_iff.1 hnone _ hnext
  · cases List.findSome?_eq_none_iff.1 hnone _ hnext

theorem Fitting.afterChildren (h : ∀ next ∈ nexts, next.Fitting) :
    (afterChildren nexts).Fitting := by
  obtain ⟨first, hfirst, heq⟩ | ⟨-, -, heq⟩ | ⟨-, -, heq⟩ := afterChildren_cases nexts
  · obtain ⟨next, hnext, hfailed⟩ := List.exists_of_findSome?_eq_some hfirst
    rw [heq]
    intro node hnode
    cases hnode with
    | here =>
        intro failure hfailure
        exact h next hnext next .here failure (hfailed.trans hfailure)
    | snapshot hbranch below => exact h _ hbranch node below
  · rw [heq]
    intro node hnode
    cases hnode
    exact nofun
  · rw [heq]
    intro node hnode
    cases hnode with
    | here => exact nofun
    | par hchild below => exact h _ hchild node below

end Effect

namespace Action

/-- An effect fits an action if it could be the progress of one of this shape.  What has not
begun and what is over fit everything.  A sequence without children is over at the next
advance, so it does not matter which child it is said to run. -/
inductive Suits : Action → Effect → Prop
  | init (action : Action) : Suits action .init
  | done (action : Action) (failure : Option Failure) (snapshot : Option (List Effect)) :
      Suits action (.done failure snapshot)
  | await (step : Step) (status : Option Status) (condition : Condition) :
      Suits (.step step status) (.await condition)
  | par {children : List Action} {status : Option Status} {effects : List Effect}
      (width : effects.length = children.length)
      (below : ∀ pair ∈ children.zip effects, Suits pair.1 pair.2) :
      Suits (.par children status) (.par effects)
  | seq {children : List Action} {status : Option Status} {index : Nat} {running : Action}
      {child : Effect} (hrunning : children[index]? = some running)
      (below : Suits running child) : Suits (.seq children status) (.seq index child)
  | vacant (status : Option Status) (index : Nat) (child : Effect) :
      Suits (.seq [] status) (.seq index child)

variable {action running : Action} {children : List Action} {status : Option Status}
  {index : Nat} {effect child next : Effect} {effects nexts : List Effect}

theorem Suits.admits (h : action.Suits effect) : action.Admits effect := by
  cases h with
  | init => cases action <;> trivial
  | done => cases action <;> trivial
  | await => trivial
  | par width => exact width
  | seq hrunning => exact Or.inr (List.getElem?_eq_some_iff.1 hrunning).1
  | vacant => exact Or.inl rfl

/-- Every effect that a node without children can have fits it. -/
theorem suits_of_admits (hempty : action.children? = some []) (h : action.Admits effect) :
    action.Suits effect := by
  cases effect with
  | init => exact .init action
  | done failure snapshot => exact .done action failure snapshot
  | seq index child =>
      cases action with
      | seq children status =>
          cases hempty
          exact .vacant status index child
      | par children status => exact h.elim
      | step step status => exact h.elim
  | par effects =>
      cases action with
      | par children status =>
          cases hempty
          obtain rfl := List.length_eq_zero_iff.1 h
          exact .par rfl (List.forall_mem_nil _)
      | seq children status => exact h.elim
      | step step status => exact h.elim
  | await condition =>
      cases action with
      | step step status => exact .await step status condition
      | seq children status => exact h.elim
      | par children status => exact h.elim

theorem suits_seq (hrunning : children[index]? = some running) :
    (seq children status).Suits (.seq index child) ↔ running.Suits child := by
  constructor
  · intro h
    cases h with
    | seq hchild below =>
        obtain rfl := Option.some.inj (hrunning.symm.trans hchild)
        exact below
    | vacant => cases hrunning
  · exact .seq hrunning

theorem suits_par (width : effects.length = children.length) :
    (par children status).Suits (.par effects) ↔
      ∀ pair ∈ children.zip effects, pair.1.Suits pair.2 := by
  constructor
  · rintro (⟨⟩ | ⟨⟩ | ⟨⟩ | ⟨-, below⟩)
    exact below
  · exact .par width

/-- A node that begins fits. -/
theorem suits_opened (action : Action) (hsome : action.children? ≠ some []) :
    action.Suits action.opened := by
  cases action with
  | seq children status =>
      cases children with
      | nil => exact absurd rfl hsome
      | cons first rest => exact .seq rfl (.init first)
  | par children status =>
      refine .par (List.length_map _) fun pair hpair => ?_
      obtain ⟨child, -, heq⟩ := List.mem_map.1 (List.of_mem_zip hpair).2
      rw [← heq]
      exact .init pair.1
  | step step status => exact .init _

/-! ## What an advance reports -/

/-- A misfit is reported if there is one, and otherwise nothing that has failed because of
a misfit stands anywhere in what the node comes to. -/
def Detects (_site : Site) (action : Action) (effect : Effect) (_log : Log Journaled)
    (next : Effect) : Prop :=
  effect.Unfailed →
    (action.Suits effect ∧ next.Fitting) ∨ (¬action.Suits effect ∧ next.ReportsMisfit)

/-- Either all parallel children fit and nothing is reported, or one of them does not and
reports it. -/
theorem Alongside.detects {site : Site} {log : Log Journaled}
    (h : Alongside Detects site index children effects log nexts)
    (hunfailed : ∀ effect ∈ effects, effect.Unfailed) :
    ((∀ pair ∈ children.zip effects, pair.1.Suits pair.2) ∧ ∀ next ∈ nexts, next.Fitting) ∨
      ((∃ pair ∈ children.zip effects, ¬pair.1.Suits pair.2) ∧
        ∃ next ∈ nexts, next.ReportsMisfit) := by
  induction h with
  | nil => exact Or.inl ⟨List.forall_mem_nil _, List.forall_mem_nil _⟩
  | cons first rest ih =>
      obtain ⟨hfirst, hrest⟩ := List.forall_mem_cons.1 hunfailed
      rw [List.zip_cons_cons]
      obtain ⟨hsuits, hfitting⟩ | ⟨hmisfit, hreports⟩ := first hfirst
      · obtain ⟨hall, hnone⟩ | ⟨⟨pair, hpair, hmisfit⟩, next, hnext, hreports⟩ := ih hrest
        · exact Or.inl ⟨List.forall_mem_cons.2 ⟨hsuits, hall⟩,
            List.forall_mem_cons.2 ⟨hfitting, hnone⟩⟩
        · exact Or.inr ⟨⟨pair, List.mem_cons_of_mem _ hpair, hmisfit⟩,
            next, List.mem_cons_of_mem _ hnext, hreports⟩
      · exact Or.inr ⟨⟨_, List.mem_cons_self, hmisfit⟩, _, List.mem_cons_self, hreports⟩

/-- A leaf has nothing inside, so it is at most itself over for a reason of its own. -/
theorem Sound.fitting (h : action.Sound next)
    (hbare : ∀ node : Effect, node.Inside next → node = next) :
    next.Fitting := by
  intro node hnode failure hfailure
  obtain rfl := hbare node hnode
  obtain hkind | hkind := h.kind_of_failure hfailure
  · rw [hkind]
    exact nofun
  · rw [hkind]
    exact nofun

/-- Every advance reports exactly the misfits. -/
theorem detects (inlineCap : Nat) : NodeCases inlineCap Detects where
  ended site action failure snapshot hunfailed :=
    Or.inl ⟨.done action failure snapshot, hunfailed.fitting⟩
  misfit site action effect misfit hmisfit _ := Or.inr ⟨mt Suits.admits hmisfit, .root⟩
  empty site action effect hempty hopen hadmits hunfailed := by
    refine Or.inl ⟨suits_of_admits hempty hadmits, ?_⟩
    intro node hnode
    cases hnode
    exact nofun
  opens site action log next hsome h _ := by
    obtain ⟨-, hfitting⟩ | ⟨hmisfit, -⟩ := h fun _ => (fits_opened hsome).unfailed
    · exact Or.inl ⟨.init action, hfitting⟩
    · exact absurd (suits_opened action hsome) hmisfit
  execute site step status log next h _ := by
    refine Or.inl ⟨.init _, (sound_execute h status).fitting fun node hnode => ?_⟩
    obtain ⟨inner, outer, result, -, -, hstart, rfl⟩ := Step.follows_execute h
    obtain ⟨failure, heq⟩ | ⟨condition, heq, -⟩ := Effect.ofStart_cases hstart
    · rw [heq] at hnode ⊢
      cases hnode
      rfl
    · rw [heq] at hnode ⊢
      cases hnode
      rfl
  recheck site step status condition log next h _ := by
    have hsound : (Action.step step status).Sound next := sound_recheck h status
    refine Or.inl ⟨.await step status condition, hsound.fitting fun node hnode => ?_⟩
    obtain ⟨inner, outer, result, -, -, -, rfl⟩ := Condition.follows_recheck h
    obtain ⟨failure, heq⟩ | heq := Effect.ofCheck_cases (.await condition) result
    · rw [heq] at hnode ⊢
      cases hnode
      rfl
    · rw [heq] at hnode ⊢
      cases hnode
      rfl
  seq site children status index running child log next hrunning h hunfailed := by
    rw [suits_seq hrunning]
    exact (h hunfailed.seq).imp (And.imp_right .afterChild) (And.imp_right .afterChild)
  par site children status effects log nexts h hunfailed := by
    rw [suits_par h.width]
    obtain ⟨hall, hfitting⟩ | ⟨⟨pair, hpair, hmisfit⟩, next, hnext, hreports⟩ :=
      h.detects fun effect heffect => hunfailed.par heffect
    · exact Or.inl ⟨hall, .afterChildren hfitting⟩
    · exact Or.inr ⟨fun hall => hmisfit (hall pair hpair), .afterChildren hnext hreports⟩

end Action

namespace Program

/-- Whatever is stored as the progress of a program, as long as nothing in it has failed, and
whatever is answered: the next effect reports a misfit exactly if the stored one does not fit
the program.  The program is over with a failure then; otherwise nothing in the next effect
has failed because of a misfit. -/
theorem misfit_reported_iff (program : Program) {effect : Effect}
    (hunfailed : ∀ node : Effect, node.Inside effect → node.failure? = none) {σ : Type}
    (inlineCap : Nat) (world : World Outside σ) (outer : σ) :
    let next := ((program.advance inlineCap effect).run world outer).value
    (next.ReportsMisfit ↔ ¬program.action.Suits effect) ∧
    (¬program.action.Suits effect → ∃ failure snapshot, next = .done (some failure) snapshot) ∧
    (program.action.Suits effect → ∀ node : Effect, node.Inside next →
      ∀ failure, node.failure? = some failure → failure.kind ≠ .invalidState) := by
  obtain ⟨kept, hadvance, -⟩ := advances_run program inlineCap effect world outer
  obtain ⟨hsuits, hfitting⟩ | ⟨hmisfit, hreports⟩ :=
    (Action.detects inlineCap).holds _ hadvance hunfailed
  · exact ⟨iff_of_false (fun hreports => hreports.not_fitting hfitting) (not_not.2 hsuits),
      fun hmisfit => absurd hsuits hmisfit, fun _ => hfitting⟩
  · exact ⟨iff_of_true hreports hmisfit, fun _ => hreports.failed,
      fun hsuits => absurd hsuits hmisfit⟩

/-- The progress of an errand, but for the message beside the payment, which has parallel
children stored for it. -/
def errandMixedUp : Effect := .par [.seq 2 (.await (.txConfs "tx" "wallet" 1)), .par []]

/-- The payment is dropped in the same advance, so the program is over with the failure of the
payment, and the misfit is reported in the snapshot. -/
theorem errand_misfit_reported :
    (∀ node : Effect, node.Inside errandMixedUp → node.failure? = none) ∧
    ((errand.advance 0 errandMixedUp).run dropping ()).value =
      .done (some ⟨.execution, "transaction tx was dropped"⟩)
        (some [.failed ⟨.execution, "transaction tx was dropped"⟩,
          .failed ⟨.invalidState, "'par' effect cannot drive 'toast' action"⟩]) ∧
    ¬errand.action.Suits errandMixedUp := by
  have hunfailed : ∀ node : Effect, node.Inside errandMixedUp → node.failure? = none := by
    intro node hnode
    cases hnode with
    | here => rfl
    | par hchild below =>
        simp only [List.mem_cons, List.not_mem_nil, or_false] at hchild
        obtain rfl | rfl := hchild
        · cases below with
          | here => rfl
          | seq below =>
              cases below
              rfl
        · cases below with
          | here => rfl
          | par hchild => cases hchild
  refine ⟨hunfailed, rfl, (errand.misfit_reported_iff hunfailed 0 dropping ()).1.1 ?_⟩
  exact .branch (.tail _ (.head _)) .root

end Program

end ProgramQueue
