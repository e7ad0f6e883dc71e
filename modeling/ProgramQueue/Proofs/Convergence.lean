import Mathlib.Data.Set.Card
import Mathlib.Order.Interval.Finset.Nat
import ProgramQueue.Proofs.Completion
import ProgramQueue.Proofs.Fixpoints

/-!
# How often an effect changes

Whatever the collaborators do, an advance leaves an effect as it is, or less is left to be
done after it.  So an effect changes twice for each leaf and once for each node without
children at most, it never comes back once it has changed, and a drive that may make more
advances than that ends for another reason than its budget.
-/

namespace ProgramQueue

open ProgramQueue.Task (follows_run log_requests)

namespace Action

/-- An effect stays as it is, or less is left of it; what stays waits for something. -/
def Lessens (site : Site) (action : Action) (effect : Effect) (log : Log Journaled)
    (next : Effect) : Prop :=
  Stays site action effect log next ∧
    (action.Sound effect → next = effect ∨ action.remaining next < action.remaining effect)

/-- Whatever is not over has more left than what is over. -/
theorem Sound.lessens_of_isDone {action : Action} {effect next : Effect}
    (h : action.Sound effect) (hopen : effect.isDone = false) (hdone : next.isDone = true) :
    action.remaining next < action.remaining effect := by
  obtain ⟨failure, snapshot, rfl⟩ := Effect.isDone_iff.1 hdone
  rw [remaining_done]
  exact (h.fits_of_isOpen hopen).remaining_pos

theorem lessens_afterChild {children : List Action} {index : Nat} {running : Action}
    (hrunning : children[index]? = some running) (status : Option Status) {child next : Effect}
    (hsound : (seq children status).Sound (.seq index child))
    (h : next = child ∨ running.remaining next < running.remaining child) :
    Effect.afterChild children.length index next = .seq index child ∨
      (seq children status).remaining (.afterChild children.length index next) <
        (seq children status).remaining (.seq index child) := by
  have hfits := hsound.fits_of_isOpen rfl
  cases hdone : next.isDone with
  | false =>
      rw [Effect.afterChild_pending hdone]
      refine h.imp (congrArg _) fun hless => ?_
      rw [remaining_seq hrunning, remaining_seq hrunning]
      exact Nat.add_lt_add_right hless _
  | true =>
      right
      obtain ⟨failure, snapshot, rfl⟩ := Effect.isDone_iff.1 hdone
      cases failure with
      | some failure => exact hsound.lessens_of_isDone rfl rfl
      | none =>
          rw [Effect.afterChild_completed]
          split
          · exact hsound.lessens_of_isDone rfl rfl
          · rename_i hlast
            have hlater : index + 1 < children.length := by omega
            have hpos : 0 < running.remaining child := by
              cases hfits with
              | seq hchild _ below =>
                  obtain rfl := Option.some.inj (hrunning.symm.trans hchild)
                  exact below.remaining_pos
            rw [remaining_seq (List.getElem?_eq_getElem hlater), remaining_seq hrunning,
              remaining_init, List.drop_eq_getElem_cons hlater, workAll]
            omega

theorem Alongside.lessens {site : Site} {index : Nat} {children : List Action}
    {effects nexts : List Effect} {log : Log Journaled}
    (h : Alongside Lessens site index children effects log nexts)
    (hsound : ∀ pair ∈ children.zip effects, pair.1.Sound pair.2) :
    nexts = effects ∨ remainingAll children nexts < remainingAll children effects := by
  induction h with
  | nil => exact Or.inl rfl
  | cons first rest ih =>
      rw [List.zip_cons_cons, List.forall_mem_cons] at hsound
      rw [remainingAll, remainingAll]
      obtain rfl | hfirst := first.2 hsound.1
      · refine (ih hsound.2).imp (congrArg _) fun hrest => ?_
        exact Nat.add_lt_add_left hrest _
      · obtain rfl | hrest := ih hsound.2
        · exact Or.inr (Nat.add_lt_add_right hfirst _)
        · exact Or.inr (Nat.add_lt_add hfirst hrest)

theorem lessens_afterChildren {children : List Action} (status : Option Status)
    {effects nexts : List Effect} (hsound : (par children status).Sound (.par effects))
    (h : nexts = effects ∨ remainingAll children nexts < remainingAll children effects) :
    Effect.afterChildren nexts = .par effects ∨
      (par children status).remaining (.afterChildren nexts) <
        (par children status).remaining (.par effects) := by
  obtain ⟨failure, -, heq⟩ | ⟨-, -, heq⟩ | ⟨-, -, heq⟩ := Effect.afterChildren_cases nexts
  · rw [heq]
    exact Or.inr (hsound.lessens_of_isDone rfl rfl)
  · rw [heq]
    exact Or.inr (hsound.lessens_of_isDone rfl rfl)
  · rw [heq, remaining, remaining]
    exact h.imp_left (congrArg _)

/-- Whatever is answered, an advance changes nothing or leaves less to be done. -/
theorem lessens (inlineCap : Nat) : NodeCases inlineCap Lessens where
  ended site action failure snapshot := by
    constructor
    · exact (stays inlineCap).ended site action failure snapshot
    · intro _
      exact Or.inl rfl
  misfit site action effect misfit hmisfit := by
    constructor
    · exact (stays inlineCap).misfit site action effect misfit
    · intro hsound
      exact absurd hsound.admits hmisfit
  empty site action effect hempty hopen _ := by
    constructor
    · exact (stays inlineCap).empty site action effect hempty
    · intro hsound
      exact Or.inr (hsound.lessens_of_isDone hopen rfl)
  opens site action log next hsome h := by
    constructor
    · exact (stays inlineCap).opens site action log next h.1
    · intro _
      rw [remaining_init, ← remaining_opened hsome]
      refine (h.2 (.fits (fits_opened hsome))).imp_left fun hsame => ?_
      -- A node that has just begun waits for nothing, so it cannot have stayed as it is.
      obtain ⟨hplanned, -⟩ := h.1.2 hsame (fits_opened hsome).isOpen [] none
      exact absurd (plan_opened action [] none) hplanned
  execute site step status log next h := by
    constructor
    · exact (stays inlineCap).execute site step status log next h
    · intro hsound
      obtain ⟨inner, outer, result, -, -, hstart, rfl⟩ := Step.follows_execute h
      right
      obtain ⟨failure, heq⟩ | ⟨condition, heq, -⟩ := Effect.ofStart_cases hstart
      · rw [heq]
        exact hsound.lessens_of_isDone rfl rfl
      · rw [heq, remaining_await, remaining_init, work_step]
        exact Nat.one_lt_two
  recheck site step status condition log next h := by
    constructor
    · exact (stays inlineCap).recheck site step status condition log next h
    · intro hsound
      obtain ⟨inner, outer, result, -, -, -, rfl⟩ := Condition.follows_recheck h
      obtain ⟨failure, heq⟩ | heq := Effect.ofCheck_cases (.await condition) result
      · rw [heq]
        exact Or.inr (hsound.lessens_of_isDone rfl rfl)
      · exact Or.inl heq
  seq site children status index running child log next hrunning h := by
    constructor
    · exact (stays inlineCap).seq site children status index running child log next hrunning h.1
    · intro hsound
      exact lessens_afterChild hrunning status hsound (h.2 (hsound.below_seq hrunning))
  par site children status effects log nexts h := by
    constructor
    · exact (stays inlineCap).par site children status effects log nexts (h.imp And.left)
    · intro hsound
      exact lessens_afterChildren status hsound (h.lessens hsound.below_par)

end Action

/-- What surrounds one advance: the collaborators, and the cap on delays. -/
structure Surrounding where
  {σ : Type}
  world : World Outside σ
  outer : σ
  inlineCap : Nat

namespace Program

variable {program : Program}

/-- The effect that a program comes to by one advance. -/
def next (program : Program) (surrounding : Surrounding) (effect : Effect) : Effect :=
  ((program.advance surrounding.inlineCap effect).run surrounding.world surrounding.outer).value

/-- The effect of a program after so many advances, each in surroundings of its own. -/
def effectAfter (program : Program) (start : Effect) (surroundings : Nat → Surrounding) :
    Nat → Effect
  | 0 => start
  | turn + 1 => program.next (surroundings turn) (program.effectAfter start surroundings turn)

theorem Reached.next {effect : Effect} (h : program.Reached effect) (surrounding : Surrounding) :
    program.Reached (program.next surrounding effect) :=
  h.advance (follows_run surrounding.world (program.advance surrounding.inlineCap effect)
    surrounding.outer)

theorem Reached.effectAfter {start : Effect} (h : program.Reached start)
    (surroundings : Nat → Surrounding) (turn : Nat) :
    program.Reached (program.effectAfter start surroundings turn) := by
  induction turn with
  | zero => exact h
  | succ turn ih => exact ih.next (surroundings turn)

/-- What is left to be done of whatever a program has come to. -/
theorem Reached.remaining_le {effect : Effect} (h : program.Reached effect) :
    program.action.remaining effect ≤ program.action.work := by
  cases hdone : effect.isDone with
  | false => exact (h.sound.fits_of_isOpen hdone).remaining_le
  | true =>
      obtain ⟨failure, snapshot, rfl⟩ := Effect.isDone_iff.1 hdone
      rw [Action.remaining_done]
      exact Nat.zero_le _

theorem Reached.lessens {effect next : Effect} {inlineCap : Nat} {log : Log Journaled}
    (h : program.Reached effect)
    (hadvance : (program.advanceJournaled inlineCap effect).Follows log next) :
    next = effect ∨ program.action.remaining next < program.action.remaining effect := by
  obtain ⟨rest, -, hrest⟩ := follows_advance.1 hadvance
  exact ((Action.lessens inlineCap).holds _ hrest).2 h.sound

theorem Reached.next_lessens {effect : Effect} (h : program.Reached effect)
    (surrounding : Surrounding) :
    program.next surrounding effect = effect ∨
      program.action.remaining (program.next surrounding effect) <
        program.action.remaining effect := by
  obtain ⟨kept, hkept⟩ := Journaled.follows_silent (follows_run surrounding.world
    (program.advance surrounding.inlineCap effect) surrounding.outer)
  exact h.lessens hkept

/-! ## Without end -/

section

variable {start : Effect} (h : program.Reached start) (surroundings : Nat → Surrounding)

include h

theorem Reached.remaining_antitone : Antitone fun turn =>
    program.action.remaining (program.effectAfter start surroundings turn) := by
  apply antitone_nat_of_succ_le
  intro turn
  obtain hsame | hless := (h.effectAfter surroundings turn).next_lessens (surroundings turn)
  · exact Nat.le_of_eq (congrArg _ hsame)
  · exact Nat.le_of_lt hless

theorem Reached.remaining_of_changed {turn later : Nat}
    (hchanged : program.effectAfter start surroundings (turn + 1) ≠
      program.effectAfter start surroundings turn) (hlater : turn < later) :
    program.action.remaining (program.effectAfter start surroundings later) <
      program.action.remaining (program.effectAfter start surroundings turn) := by
  obtain hsame | hless := (h.effectAfter surroundings turn).next_lessens (surroundings turn)
  · exact absurd hsame hchanged
  · exact Nat.lt_of_le_of_lt (h.remaining_antitone surroundings hlater) hless

/-- The advances that change the effect are told apart by what was left before them. -/
theorem Reached.changes_le :
    {turn | program.effectAfter start surroundings (turn + 1) ≠
      program.effectAfter start surroundings turn}.encard ≤ program.action.work := by
  have hmaps : Set.MapsTo
      (fun turn => program.action.remaining (program.effectAfter start surroundings turn))
      {turn | program.effectAfter start surroundings (turn + 1) ≠
        program.effectAfter start surroundings turn}
      (Finset.Icc 1 program.action.work) := by
    intro turn hchanged
    have hless := h.remaining_of_changed surroundings hchanged (Nat.lt_succ_self turn)
    have hbound := (h.effectAfter surroundings turn).remaining_le
    exact Finset.mem_coe.2 (Finset.mem_Icc.2 ⟨Nat.zero_lt_of_lt hless, hbound⟩)
  have hinjective : Set.InjOn
      (fun turn => program.action.remaining (program.effectAfter start surroundings turn))
      {turn | program.effectAfter start surroundings (turn + 1) ≠
        program.effectAfter start surroundings turn} := by
    intro turn hturn other hother hsame
    rcases Nat.lt_trichotomy turn other with hlt | rfl | hlt
    · exact absurd hsame (h.remaining_of_changed surroundings hturn hlt).ne'
    · rfl
    · exact absurd hsame (h.remaining_of_changed surroundings hother hlt).ne
  refine (Set.encard_le_encard_of_injOn hmaps hinjective).trans ?_
  rw [Set.encard_coe_eq_coe_finsetCard, Nat.card_Icc, Nat.add_sub_cancel]

/-- An effect that comes back has not changed in between. -/
theorem Reached.never_returns {first between last : Nat} (hfirst : first ≤ between)
    (hlast : between ≤ last)
    (hreturns : program.effectAfter start surroundings last =
      program.effectAfter start surroundings first) :
    program.effectAfter start surroundings between =
      program.effectAfter start surroundings first := by
  induction between, hfirst using Nat.le_induction with
  | base => rfl
  | succ turn hturn ih =>
      have hsame := ih (Nat.le_of_succ_le hlast)
      by_contra hchanged
      rw [← hsame] at hchanged
      have hless := h.remaining_of_changed surroundings hchanged hlast
      rw [hreturns, hsame] at hless
      exact Nat.lt_irrefl _ hless

end

/-! ## A drive that is long enough -/

variable {σ : Type} {inlineCap budget : Nat} {state : State} {world : World Outside σ} {outer : σ}

/-- A drive ends since the program is over or its last advance has changed nothing, and it
would be the same with any larger budget. -/
structure Rests (program : Program) (inlineCap : Nat) (world : World Outside σ) (budget : Nat)
    (state : State) (outer : σ) : Prop where
  ends : (program.driven inlineCap world budget state outer).final.isDone = true ∨
    ∃ before last, (program.driven inlineCap world budget state outer).log = before ++ last ∧
      (program.advanceJournaled inlineCap
        (program.driven inlineCap world budget state outer).final.current).Follows last
        (program.driven inlineCap world budget state outer).final.current
  same : ∀ more, program.driven inlineCap world (budget + more) state outer =
    program.driven inlineCap world budget state outer

theorem rests_done (hdone : state.isDone = true) :
    program.Rests inlineCap world budget state outer where
  ends := by
    rw [driven_isDone hdone]
    exact Or.inl hdone
  same more := by rw [driven_isDone hdone, driven_isDone hdone]

theorem rests_unchanged (hopen : ¬state.isDone = true)
    (hsame : (program.advanced inlineCap world state outer).final.current = state.current) :
    program.Rests inlineCap world (budget + 1) state outer where
  ends := by
    have hfollows : (program.advanceJournaled inlineCap state.current).Follows
        (program.advanced inlineCap world state outer).log
        (program.advanced inlineCap world state outer).final.current :=
      follows_run world.noting (program.advanceJournaled inlineCap state.current) outer
    rw [driven_unchanged hopen hsame]
    refine Or.inr ⟨[], (program.advanced inlineCap world state outer).log, rfl, ?_⟩
    rw [hsame] at hfollows ⊢
    exact hfollows
  same more := by
    rw [Nat.add_right_comm, driven_unchanged hopen hsame, driven_unchanged hopen hsame]

theorem rests_changed (hopen : ¬state.isDone = true)
    (hchanged : (program.advanced inlineCap world state outer).final.current ≠ state.current)
    (hrest : program.Rests inlineCap world budget
      (program.advanced inlineCap world state outer).final
      (program.advanced inlineCap world state outer).outer) :
    program.Rests inlineCap world (budget + 1) state outer where
  ends := by
    rw [driven_changed hopen hchanged]
    refine hrest.ends.imp_right ?_
    rintro ⟨before, last, hlog, hunchanged⟩
    refine ⟨(program.advanced inlineCap world state outer).log ++ before, last, ?_, hunchanged⟩
    rw [List.append_assoc, ← hlog]
  same more := by
    rw [Nat.add_right_comm, driven_changed hopen hchanged, driven_changed hopen hchanged,
      hrest.same]

/-- A drive comes to rest if it may make more advances than are left. -/
theorem Reached.rests (h : program.Reached state.current)
    (hbudget : program.action.remaining state.current < budget) :
    program.Rests inlineCap world budget state outer := by
  induction budget generalizing state outer with
  | zero => exact absurd hbudget (Nat.not_lt_zero _)
  | succ budget ih =>
      by_cases hopen : ¬state.isDone = true
      · by_cases hsame : (program.advanced inlineCap world state outer).final.current =
            state.current
        · exact rests_unchanged hopen hsame
        · have hfollows : (program.advanceJournaled inlineCap state.current).Follows
              (program.advanced inlineCap world state outer).log
              (program.advanced inlineCap world state outer).final.current :=
            follows_run world.noting (program.advanceJournaled inlineCap state.current) outer
          have hless := (h.lessens hfollows).resolve_left hsame
          refine rests_changed hopen hsame (ih (h.advance (Journaled.follows_asked hfollows)) ?_)
          exact Nat.lt_of_lt_of_le hless (Nat.le_of_lt_succ hbudget)
      · exact rests_done (not_not.1 hopen)

/-- A drive without its journal. -/
theorem drive_run (program : Program) (inlineCap : Nat) (world : World Outside σ) (budget : Nat)
    (state : State) (outer : σ) :
    (program.drive inlineCap budget state).run world outer =
      ⟨(program.driven inlineCap world budget state outer).final,
        (program.driven inlineCap world budget state outer).outer,
        (Journaled.asked (program.driven inlineCap world budget state outer).log).map
          Answered.request⟩ := by
  have hlog : (program.drive inlineCap budget state).log world outer =
      Journaled.asked (program.driven inlineCap world budget state outer).log :=
    Journaled.log_silent world _ outer
  rw [← hlog, log_requests]
  exact congrArg₂ (Run.mk · · _) (Journaled.run_silent world _ outer)
    (Journaled.state_silent world _ outer)

/-- How soon a program comes to rest, whatever surrounds its advances. -/
structure Converges (program : Program) (bound : Nat) : Prop where
  /-- At most so many advances from the start change the effect. -/
  changes : ∀ surroundings : Nat → Surrounding,
    {turn | program.effectAfter .init surroundings (turn + 1) ≠
      program.effectAfter .init surroundings turn}.encard ≤ bound
  /-- An effect that comes back was there all the time. -/
  acyclic : ∀ (surroundings : Nat → Surrounding) (first between last : Nat),
    first ≤ between → between ≤ last →
    program.effectAfter .init surroundings last = program.effectAfter .init surroundings first →
    program.effectAfter .init surroundings between = program.effectAfter .init surroundings first
  /-- A drive with a larger budget ends since the program is over or since its last advance has
  changed nothing. -/
  ends : ∀ {σ : Type} (world : World Outside σ) (outer : σ) (inlineCap budget : Nat)
    (state : State), program.Reached state.current → bound < budget →
    let drive := program.drive inlineCap budget state
    let final := (drive.run world outer).value
    final.isDone = true ∨ ∃ before last, drive.log world outer = before ++ last ∧
      (program.advance inlineCap final.current).Follows last final.current
  /-- It would do the same with any budget above its own. -/
  same : ∀ {σ : Type} (world : World Outside σ) (outer : σ) (inlineCap budget more : Nat)
    (state : State), program.Reached state.current → bound < budget →
    (program.drive inlineCap (budget + more) state).run world outer =
      (program.drive inlineCap budget state).run world outer

/-- The effect of a program changes at most twice for each leaf and once for each node
without children. -/
theorem effect_converges (program : Program) :
    program.Converges (2 * program.action.leaves.length + program.action.empties) where
  changes surroundings := Reached.changes_le .fresh surroundings
  acyclic surroundings first between last hfirst hlast hreturns :=
    Reached.never_returns .fresh surroundings hfirst hlast hreturns
  ends world outer inlineCap budget state h hbudget := by
    have hrests : program.Rests inlineCap world budget state outer :=
      h.rests (Nat.lt_of_le_of_lt h.remaining_le hbudget)
    dsimp only
    rw [drive_run]
    refine hrests.ends.imp_right ?_
    rintro ⟨before, last, hlog, hunchanged⟩
    refine ⟨Journaled.asked before, Journaled.asked last, ?_, Journaled.follows_asked hunchanged⟩
    rw [← Journaled.asked_append, ← hlog]
    exact Journaled.log_silent world _ outer
  same world outer inlineCap budget more state h hbudget := by
    have hrests : program.Rests inlineCap world budget state outer :=
      h.rests (Nat.lt_of_le_of_lt h.remaining_le hbudget)
    rw [drive_run, drive_run, hrests.same]

/-- Transactions are first seen after five advances. -/
def slowly (turn : Nat) : Surrounding :=
  if turn < 5 then ⟨paying, turn, 0⟩ else ⟨confirming, (), 0⟩

/-- The effect of an errand changes seven times at most.  A drive that could make eight
advances ends while the errand waits for its payment, since nothing changes any more. -/
theorem errand_converges :
    errand.Reached (State.fresh "errand").current ∧
    {turn | errand.effectAfter .init slowly (turn + 1) ≠
      errand.effectAfter .init slowly turn}.encard ≤ 7 ∧
    errand.effectAfter .init slowly 5 = errand.effectAfter .init slowly 3 ∧
    errand.effectAfter .init slowly 4 = errand.effectAfter .init slowly 3 ∧
    (∃ before last, (errand.drive 0 8 (State.fresh "errand")).log paying 0 = before ++ last ∧
      (errand.advance 0 errandPaid.current).Follows last errandPaid.current) ∧
    (errand.drive 0 (8 + 100) (State.fresh "errand")).run paying 0 =
      (errand.drive 0 8 (State.fresh "errand")).run paying 0 := by
  have hfresh : errand.Reached (State.fresh "errand").current := .fresh
  have hconverges : errand.Converges 7 := effect_converges errand
  have hreturns : errand.effectAfter .init slowly 5 = errand.effectAfter .init slowly 3 := rfl
  refine ⟨hfresh, hconverges.changes slowly, hreturns,
    hconverges.acyclic slowly 3 4 5 (by decide) (by decide) hreturns, ?_,
    hconverges.same paying 0 0 8 100 _ hfresh (by decide)⟩
  exact (hconverges.ends paying 0 0 8 _ hfresh (by decide)).resolve_left Bool.false_ne_true

end Program

end ProgramQueue
