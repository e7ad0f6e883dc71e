import ProgramQueue.Proofs.Histories

/-!
# The shape of an effect

An effect that a program comes to is over, or it has the shape of the part of the action
tree that is in progress.  A failure stops the whole program, so nothing that has failed
stands inside an effect that is not over.
-/

namespace ProgramQueue

open ProgramQueue.Task (Follows follows_run follows_bind follows_request)

namespace Effect

/-- A node of an effect: the effect itself, or a node of one of its children or of one of
the branches that it keeps of parallel children that failed. -/
inductive Inside (node : Effect) : Effect → Prop
  | here : Inside node node
  | seq {index : Nat} {child : Effect} (below : Inside node child) :
      Inside node (.seq index child)
  | par {children : List Effect} {child : Effect} (hchild : child ∈ children)
      (below : Inside node child) : Inside node (.par children)
  | snapshot {failure : Option Failure} {branches : List Effect} {branch : Effect}
      (hbranch : branch ∈ branches) (below : Inside node branch) :
      Inside node (.done failure (some branches))

end Effect

namespace Action

/-- An effect that is not over has the shape of the action tree: a sequence runs one of its
children, and of parallel children some are not over and the others have completed. -/
inductive Fits : Action → Effect → Prop
  | init (action : Action) : Fits action .init
  | await (step : Step) (status : Option Status) (condition : Condition) :
      Fits (.step step status) (.await condition)
  | seq {children : List Action} {status : Option Status} {index : Nat} {running : Action}
      {child : Effect} (hrunning : children[index]? = some running)
      (hopen : child.isDone = false) (below : Fits running child) :
      Fits (.seq children status) (.seq index child)
  | par {children : List Action} {status : Option Status} {effects : List Effect}
      (width : effects.length = children.length)
      (ended : ∀ effect ∈ effects, effect.isDone = true → effect = .completed)
      (below : ∀ pair ∈ children.zip effects, pair.2.isDone = false → Fits pair.1 pair.2)
      (hopen : effects.all Effect.isDone = false) :
      Fits (.par children status) (.par effects)

/-- An effect that an action can come to: it fits, or all has completed, or a collaborator
was asked for something that was wrong or that failed. -/
inductive Sound (action : Action) : Effect → Prop
  | fits {effect : Effect} (h : action.Fits effect) : Sound action effect
  | completed : Sound action .completed
  | stopped {failure : Failure} {snapshot : Option (List Effect)}
      (hkind : failure.kind = .validation ∨ failure.kind = .execution) :
      Sound action (.done (some failure) snapshot)

/-! ## What fits -/

theorem Fits.isOpen {action : Action} {effect : Effect} (h : action.Fits effect) :
    effect.isDone = false := by
  cases h <;> rfl

theorem Fits.admits {action : Action} {effect : Effect} (h : action.Fits effect) :
    action.Admits effect := by
  cases h with
  | init => cases action <;> trivial
  | await => trivial
  | seq hrunning => exact Or.inr (List.getElem?_eq_some_iff.1 hrunning).1
  | par width => exact width

theorem Sound.admits {action : Action} {effect : Effect} (h : action.Sound effect) :
    action.Admits effect := by
  cases h with
  | fits h => exact h.admits
  | completed => cases action <;> trivial
  | stopped => cases action <;> trivial

/-- What an action has come to and is not over fits. -/
theorem Sound.fits_of_isOpen {action : Action} {effect : Effect} (h : action.Sound effect)
    (hopen : effect.isDone = false) : action.Fits effect := by
  cases h with
  | fits h => exact h
  | completed => cases hopen
  | stopped => cases hopen

theorem Sound.completed_of_isDone {action : Action} {effect : Effect} (h : action.Sound effect)
    (hdone : effect.isDone = true) (hfailure : effect.failure? = none) :
    effect = .completed := by
  cases h with
  | fits h =>
      rw [h.isOpen] at hdone
      cases hdone
  | completed => rfl
  | stopped => cases hfailure

theorem Sound.kind_of_failure {action : Action} {effect : Effect} (h : action.Sound effect)
    {failure : Failure} (hfailure : effect.failure? = some failure) :
    failure.kind = .validation ∨ failure.kind = .execution := by
  cases h with
  | fits h =>
      obtain ⟨snapshot, rfl⟩ := Effect.failure?_eq_some.1 hfailure
      cases h
  | completed => cases hfailure
  | stopped hkind =>
      cases hfailure
      exact hkind

/-- The running child of a sequence fits. -/
theorem Sound.below_seq {children : List Action} {status : Option Status} {index : Nat}
    {running : Action} {child : Effect} (hrunning : children[index]? = some running)
    (h : (Action.seq children status).Sound (.seq index child)) : running.Sound child := by
  cases h.fits_of_isOpen rfl with
  | seq hchild _ below =>
      obtain rfl := Option.some.inj (hrunning.symm.trans hchild)
      exact .fits below

/-- What holds of a child that has completed, and of each one that is not over, holds of all
parallel children. -/
theorem forall_children (P : Action → Effect → Prop) {children : List Action}
    {effects : List Effect}
    (ended : ∀ effect ∈ effects, effect.isDone = true → effect = .completed)
    (hcompleted : ∀ action, P action .completed)
    (hopen : ∀ pair ∈ children.zip effects, pair.2.isDone = false → P pair.1 pair.2) :
    ∀ pair ∈ children.zip effects, P pair.1 pair.2 := by
  intro pair hpair
  cases hdone : pair.2.isDone with
  | true =>
      rw [ended pair.2 (List.of_mem_zip hpair).2 hdone]
      exact hcompleted pair.1
  | false => exact hopen pair hpair hdone

/-- Parallel children have each come to their effects. -/
theorem Sound.below_par {children : List Action} {status : Option Status}
    {effects : List Effect} (h : (Action.par children status).Sound (.par effects)) :
    ∀ pair ∈ children.zip effects, pair.1.Sound pair.2 := by
  cases h.fits_of_isOpen rfl with
  | par _ ended below _ =>
      apply forall_children Sound ended
      · intro action
        exact .completed
      · intro pair hpair hopen
        exact .fits (below pair hpair hopen)

/-- A node that has begun fits, its children not being started. -/
theorem fits_opened {action : Action} (hsome : action.children? ≠ some []) :
    action.Fits action.opened := by
  cases action with
  | seq children status =>
      cases children with
      | nil => exact absurd rfl hsome
      | cons first rest => exact .seq rfl rfl (.init first)
  | par children status =>
      refine .par (List.length_map _) ?_ ?_ ?_
      · intro effect heffect hdone
        obtain ⟨child, -, rfl⟩ := List.mem_map.1 heffect
        cases hdone
      · intro pair hpair _
        obtain ⟨child, -, heq⟩ := List.mem_map.1 (List.of_mem_zip hpair).2
        rw [← heq]
        exact .init pair.1
      · cases children with
        | nil => exact absurd rfl hsome
        | cons first rest => rfl
  | step step status => exact .init _

/-- What fits an action without children has not begun. -/
theorem Fits.eq_init {action : Action} {effect : Effect} (h : action.Fits effect)
    (hempty : action.children? = some []) : effect = .init := by
  cases h with
  | init => rfl
  | await => cases hempty
  | seq hrunning =>
      cases hempty
      cases hrunning
  | par width _ _ hopen =>
      cases hempty
      rw [List.length_eq_zero_iff.1 width] at hopen
      cases hopen

/-- Of parallel children with an effect each, every effect is the effect of one. -/
theorem exists_mem_zip {children : List Action} {effects : List Effect}
    (width : effects.length = children.length) {effect : Effect} (h : effect ∈ effects) :
    ∃ child, (child, effect) ∈ children.zip effects := by
  rw [← List.map_snd_zip (Nat.le_of_eq width)] at h
  obtain ⟨⟨child, _⟩, hpair, rfl⟩ := List.mem_map.1 h
  exact ⟨child, hpair⟩

/-- Nothing inside an effect that fits has failed. -/
theorem Fits.unfailed {action : Action} {effect : Effect} (h : action.Fits effect)
    {node : Effect} (hnode : node.Inside effect) : node.failure? = none := by
  induction h with
  | init =>
      cases hnode with
      | here => rfl
  | await =>
      cases hnode with
      | here => rfl
  | seq _ _ _ ih =>
      cases hnode with
      | here => rfl
      | seq below => exact ih below
  | par width ended _ _ ih =>
      cases hnode with
      | here => rfl
      | @par _ child hchild below =>
          cases hdone : child.isDone with
          | true =>
              rw [ended child hchild hdone] at below
              cases below with
              | here => rfl
          | false =>
              obtain ⟨action, hpair⟩ := exists_mem_zip width hchild
              exact ih _ hpair hdone below

/-! ## What an advance makes of it -/

/-- An action that has come to an effect comes to the next one. -/
def Shapes (_site : Site) (action : Action) (effect : Effect) (_log : Log Journaled)
    (next : Effect) : Prop :=
  action.Sound effect → action.Sound next

theorem toFailure_kind (error : CollaboratorError) :
    error.toFailure.kind = .validation ∨ error.toFailure.kind = .execution := by
  cases error with
  | walletNotFound walletId => exact Or.inl rfl
  | pluginNotFound pluginId => exact Or.inl rfl
  | invalid reason => exact Or.inl rfl
  | failed reason => exact Or.inr rfl
  | unavailable reason => exact Or.inr rfl

theorem sound_execute {inlineCap : Nat} {site : Site} {step : Step} {log : Log Journaled}
    {next : Effect} (h : (step.execute inlineCap site).Follows log next)
    (status : Option Status) : (Action.step step status).Sound next := by
  obtain ⟨inner, outer, result, -, -, hstart, rfl⟩ := Step.follows_execute h
  cases result with
  | error e => exact .stopped (toFailure_kind e)
  | ok effect =>
      rcases Step.start_comes hstart with rfl | ⟨condition, rfl, -⟩
      · exact .completed
      · exact .fits (.await step status condition)

theorem sound_recheck {site : Site} {step : Step} {condition : Condition} {log : Log Journaled}
    {next : Effect} (h : (condition.recheck site).Follows log next)
    (status : Option Status) : (Action.step step status).Sound next := by
  obtain ⟨inner, outer, result, -, -, -, rfl⟩ := Condition.follows_recheck h
  cases result with
  | ok found =>
      cases found with
      | pending => exact .fits (.await step status condition)
      | satisfied => exact .completed
      | failed reason => exact .stopped (Or.inr rfl)
  | error e =>
      rw [Effect.ofCheck]
      split_ifs
      · exact .fits (.await step status condition)
      · exact .stopped (toFailure_kind e)

theorem Sound.afterChild {children : List Action} {status : Option Status} {index : Nat}
    {running : Action} (hrunning : children[index]? = some running) {next : Effect}
    (h : running.Sound next) :
    (Action.seq children status).Sound (.afterChild children.length index next) := by
  cases h with
  | fits h =>
      rw [Effect.afterChild_pending h.isOpen]
      exact .fits (.seq hrunning h.isOpen h)
  | completed =>
      rw [Effect.completed, Effect.afterChild_completed]
      split
      · exact .completed
      · rename_i hlast
        have hlater : index + 1 < children.length := by omega
        exact .fits (.seq (List.getElem?_eq_getElem hlater) rfl (.init _))
  | stopped hkind =>
      rw [Effect.afterChild_failed]
      exact .stopped hkind

theorem Alongside.shapes {site : Site} {index : Nat} {children : List Action}
    {effects nexts : List Effect} {log : Log Journaled}
    (h : Alongside Shapes site index children effects log nexts)
    (hsound : ∀ pair ∈ children.zip effects, pair.1.Sound pair.2) :
    ∀ pair ∈ children.zip nexts, pair.1.Sound pair.2 := by
  induction h with
  | nil => exact hsound
  | cons first rest ih =>
      rw [List.zip_cons_cons, List.forall_mem_cons] at hsound
      rw [List.zip_cons_cons, List.forall_mem_cons]
      exact ⟨first hsound.1, ih hsound.2⟩

theorem Sound.afterChildren {children : List Action} {status : Option Status}
    {nexts : List Effect} (width : nexts.length = children.length)
    (h : ∀ pair ∈ children.zip nexts, pair.1.Sound pair.2) :
    (Action.par children status).Sound (.afterChildren nexts) := by
  obtain ⟨failure, hfailure, heq⟩ | ⟨-, -, heq⟩ | ⟨hnone, hopen, heq⟩ :=
    Effect.afterChildren_cases nexts
  · obtain ⟨next, hnext, hfailed⟩ := List.exists_of_findSome?_eq_some hfailure
    obtain ⟨child, hpair⟩ := exists_mem_zip width hnext
    rw [heq]
    exact .stopped ((h _ hpair).kind_of_failure hfailed)
  · rw [heq]
    exact .completed
  · rw [heq]
    refine .fits (.par width ?_ ?_ hopen)
    · intro next hnext hdone
      obtain ⟨child, hpair⟩ := exists_mem_zip width hnext
      exact (h _ hpair).completed_of_isDone hdone (List.findSome?_eq_none_iff.1 hnone next hnext)
    · intro pair hpair hpending
      exact (h pair hpair).fits_of_isOpen hpending

/-- Every advance takes what an action can come to to what it can come to. -/
theorem shapes (inlineCap : Nat) : NodeCases inlineCap Shapes where
  ended site action failure snapshot h := h
  misfit site action effect misfit hmisfit h := absurd h.admits hmisfit
  empty site action effect _ _ _ _ := .completed
  opens site action log next hsome h _ := h (.fits (fits_opened hsome))
  execute site step status log next h _ := sound_execute h status
  recheck site step status condition log next h _ := sound_recheck h status
  seq site children status index running child log next hrunning h hsound := by
    have hnext := h (hsound.below_seq hrunning)
    exact hnext.afterChild hrunning
  par site children status effects log nexts h hsound := by
    have hnexts := h.shapes hsound.below_par
    exact Sound.afterChildren h.length hnexts

/-- What has been advanced has been started. -/
def Begins (_site : Site) (_action : Action) (_effect : Effect) (_log : Log Journaled)
    (next : Effect) : Prop :=
  next ≠ .init

theorem begins (inlineCap : Nat) : AdvanceCases inlineCap Begins where
  ended site action failure snapshot := by
    intro heq
    cases heq
  misfit site action effect misfit := by
    intro heq
    cases heq
  empty site action effect _ := by
    intro heq
    cases heq
  opens site action log next h := h
  execute site step status log next h := by
    intro heq
    obtain ⟨inner, outer, result, -, -, hstart, rfl⟩ := Step.follows_execute h
    rcases Effect.ofStart_cases hstart with ⟨failure, hnext⟩ | ⟨condition, hnext, -⟩
    · rw [hnext] at heq
      cases heq
    · rw [hnext] at heq
      cases heq
  recheck site step status condition log next h := by
    intro heq
    obtain ⟨inner, outer, result, -, -, -, rfl⟩ := Condition.follows_recheck h
    rcases Effect.ofCheck_cases (.await condition) result with ⟨failure, hnext⟩ | hnext
    · rw [hnext] at heq
      cases heq
    · rw [hnext] at heq
      cases heq
  seq site children status index running child log next _ h := by
    intro heq
    unfold Effect.afterChild at heq
    split at heq
    · cases heq
    · split_ifs at heq
      cases heq
    · cases heq
  par site children status effects log nexts h := by
    intro heq
    obtain ⟨failure, -, hnext⟩ | ⟨-, -, hnext⟩ | ⟨-, -, hnext⟩ :=
      Effect.afterChildren_cases nexts
    · rw [hnext] at heq
      cases heq
    · rw [hnext] at heq
      cases heq
    · rw [hnext] at heq
      cases heq

end Action

namespace Program

/-- An effect that a program comes to by advances from the start, whatever is answered
and whatever the cap on delays in each of them. -/
inductive Reached (program : Program) : Effect → Prop
  | fresh : Reached program .init
  | advance {effect next : Effect} {inlineCap : Nat} {log : Log Outside}
      (before : Reached program effect)
      (h : (program.advance inlineCap effect).Follows log next) : Reached program next

variable {program : Program}

/-- An advance of a program is one of its action. -/
theorem follows_advance {inlineCap : Nat} {effect next : Effect} {log : Log Journaled} :
    (program.advanceJournaled inlineCap effect).Follows log next ↔
      ∃ rest, log = ⟨.note (.advance program.id), ()⟩ :: rest ∧
        (program.action.advance inlineCap ⟨program.id, []⟩ effect).Follows rest next := by
  constructor
  · intro h
    obtain ⟨written, _, rest, rfl, hwritten, hadvance⟩ := follows_bind.1 h
    obtain rfl := follows_request.1 hwritten
    exact ⟨rest, rfl, hadvance⟩
  · rintro ⟨rest, rfl, hadvance⟩
    exact .ask hadvance

/-- An advance follows what it would follow with a journal. -/
theorem advance_of_follows {inlineCap : Nat} {effect next : Effect} {log : Log Outside}
    (h : (program.advance inlineCap effect).Follows log next) :
    ∃ kept, (program.action.advance inlineCap ⟨program.id, []⟩ effect).Follows kept next := by
  obtain ⟨kept, hkept⟩ := Journaled.follows_silent h
  obtain ⟨rest, -, hadvance⟩ := follows_advance.1 hkept
  exact ⟨rest, hadvance⟩

theorem Reached.sound {effect : Effect} (h : program.Reached effect) :
    program.action.Sound effect := by
  induction h with
  | fresh => exact .fits (.init _)
  | advance _ h ih =>
      obtain ⟨kept, hadvance⟩ := advance_of_follows h
      exact (Action.shapes _).holds _ hadvance ih

/-- Whatever a program has come to fits its action tree, or is over without a misfit.
Nothing that has failed stands inside what is not over, and what has been advanced has
been started. -/
theorem Reached.keeps_shape {effect : Effect} (h : program.Reached effect) :
    program.action.Sound effect ∧
    (effect.isDone = false → ∀ node : Effect, node.Inside effect → node.failure? = none) ∧
    ∀ inlineCap log next, (program.advance inlineCap effect).Follows log next →
      next ≠ .init := by
  refine ⟨h.sound, ?_, ?_⟩
  · intro hopen node hnode
    exact (h.sound.fits_of_isOpen hopen).unfailed hnode
  · intro inlineCap log next hnext
    obtain ⟨kept, hadvance⟩ := advance_of_follows hnext
    exact (Action.begins inlineCap).holds _ hadvance

/-- Every collaborator does what it is asked, and every transaction is seen at once. -/
def confirming : World Outside Unit where
  respond
    | .confirmations _ _, _ => (.ok .confirmed, ())
    | query, _ => (Queue.grant 0 query, ())

/-- A message, a part that is left out, and a payment; another message beside them. -/
def errand : Program :=
  ⟨"errand", .par [.seq [.step (.toast "first") none, .seq [] none,
    .step (.broadcast ⟨"wallet", "bitcoin", [1]⟩) none] none, .step (.toast "beside") none] none,
    none⟩

/-- What an errand has come to once its payment was sent. -/
def errandSent : Effect := .par [.seq 2 (.await (.txConfs "tx" "wallet" 1)), .completed]

theorem errand_keeps_shape :
    errand.Reached errandSent ∧ errand.action.Sound errandSent ∧
    (∀ node : Effect, node.Inside errandSent → node.failure? = none) ∧
    ∀ inlineCap log next, (errand.advance inlineCap errandSent).Follows log next →
      next ≠ .init := by
  have hlater {effect : Effect} (h : errand.Reached effect) :
      errand.Reached ((errand.advance 0 effect).run (Queue.Host.granting 0).outside ()).value :=
    h.advance (follows_run (Queue.Host.granting 0).outside (errand.advance 0 effect) ())
  have hreached : errand.Reached errandSent := hlater (hlater (hlater .fresh))
  obtain ⟨hsound, hunfailed, hbegun⟩ := hreached.keeps_shape
  exact ⟨hreached, hsound, hunfailed rfl, hbegun⟩

end Program

end ProgramQueue
