import ProgramQueue.Plan
import ProgramQueue.Store.Transcription

/-!
# What a text keeps of a record

Everything but the rates.  A record whose rates come back from their texts is read as it
was written, and so is every record without a rate.
-/

namespace ProgramQueue

namespace Effect

theorem transcribedList_eq (children : List Effect) :
    transcribedList children = children.map transcribed := by
  induction children with
  | nil => rfl
  | cons child rest ih => rw [transcribedList, ih, List.map_cons]

@[simp]
theorem transcribed_seq (index : Nat) (child : Effect) :
    (seq index child).transcribed = seq index child.transcribed := rfl

@[simp]
theorem transcribed_par (children : List Effect) :
    (par children).transcribed = par (children.map transcribed) := by
  rw [transcribed, transcribedList_eq]

@[simp]
theorem transcribed_await (condition : Condition) :
    (await condition).transcribed = await condition.transcribed := rfl

@[simp]
theorem transcribed_init : init.transcribed = init := rfl

@[simp]
theorem transcribed_done (failure : Option Failure) (snapshot : Option (List Effect)) :
    (done failure snapshot).transcribed = done failure (snapshot.map (·.map transcribed)) := by
  cases snapshot with
  | none => rfl
  | some branches => rw [transcribed, transcribedList_eq, Option.map_some]

@[simp]
theorem isDone_transcribed (effect : Effect) : effect.transcribed.isDone = effect.isDone := by
  cases effect <;> simp [isDone]

@[simp]
theorem failure_transcribed (effect : Effect) : effect.transcribed.failure? = effect.failure? := by
  cases effect <;> simp [failure?]

@[simp]
theorem isTriggerable_transcribed (effect : Effect) :
    effect.transcribed.isTriggerable = effect.isTriggerable := by
  cases effect with
  | await condition => cases condition <;> rfl
  | _ => simp [isTriggerable]

theorem map_transcribed_eq_self {effects : List Effect} :
    effects.map transcribed = effects ↔ ∀ effect ∈ effects, effect.transcribed = effect := by
  induction effects with
  | nil => simp
  | cons effect rest ih => simp [ih]

end Effect

/-! ## What is planned -/

namespace Action

/-- An entry of a plan with the rates as their texts are read. -/
def rereadEntry (entry : Path × Effect × Option Action) : Path × Effect × Option Action :=
  (entry.1, entry.2.1.transcribed, entry.2.2)

mutual

theorem plan_transcribed : (action : Action) → (effect : Effect) → (place : Path) →
    (following : Option Action) → action.plan effect.transcribed place following =
      (action.plan effect place following).map rereadEntry
  | seq children status, .seq index child, place, following => by
      rw [Effect.transcribed_seq, plan, plan]
      exact planSeq_transcribed children index child _ following
  | par children status, .par effects, place, following => by
      rw [Effect.transcribed_par, plan, plan]
      exact planPar_transcribed 0 children effects place
  | step own status, .seq index child, place, following => rfl
  | step own status, .par effects, place, following => by
      rw [Effect.transcribed_par]
      rfl
  | seq children status, .par effects, place, following => by
      rw [Effect.transcribed_par]
      rfl
  | par children status, .seq index child, place, following => rfl
  | action, .await condition, place, following => by cases action <;> rfl
  | action, .init, place, following => by cases action <;> rfl
  | action, .done failure snapshot, place, following => by
      rw [Effect.transcribed_done]
      cases action <;> rfl

theorem planSeq_transcribed : (children : List Action) → (skip : Nat) → (child : Effect) →
    (place : Path) → (following : Option Action) →
      planSeq children skip child.transcribed place following =
        (planSeq children skip child place following).map rereadEntry
  | [], _, _, _, _ => rfl
  | running :: rest, 0, child, place, following => by
      rw [planSeq.eq_def, planSeq.eq_def]
      exact plan_transcribed running child place _
  | _ :: rest, skip + 1, child, place, following =>
      planSeq_transcribed rest skip child place following

theorem planPar_transcribed (index : Nat) : (children : List Action) → (effects : List Effect) →
    (place : Path) → planPar index children (effects.map Effect.transcribed) place =
      (planPar index children effects place).map rereadEntry
  | [], _, _ => rfl
  | _ :: _, [], _ => rfl
  | child :: children, effect :: effects, place => by
      rw [List.map_cons, planPar, planPar, List.map_append, plan_transcribed child,
        planPar_transcribed (index + 1) children]

end

end Action

/-- A program waits for the same, with its rates as their texts are read. -/
theorem Program.plannedResults_transcribed (program : Program) (effect : Effect) :
    program.plannedResults effect.transcribed =
      (program.plannedResults effect).map fun result =>
        { result with effect := result.effect.transcribed } := by
  rw [plannedResults, Action.plan_transcribed, plannedResults, List.map_map, List.map_map]
  rfl

/-! ## States and records -/

namespace State

@[simp]
theorem transcribed_programId (state : State) : state.transcribed.programId = state.programId := rfl

@[simp]
theorem transcribed_pushEventIds (state : State) :
    state.transcribed.pushEventIds = state.pushEventIds := rfl

@[simp]
theorem transcribed_lastRun (state : State) : state.transcribed.lastRun = state.lastRun := rfl

@[simp]
theorem transcribed_nextRun (state : State) : state.transcribed.nextRun = state.nextRun := rfl

@[simp]
theorem transcribed_effect (state : State) :
    state.transcribed.effect = state.effect.map Effect.transcribed := rfl

@[simp]
theorem transcribed_fresh (id : String) : (fresh id).transcribed = fresh id := rfl

@[simp]
theorem current_transcribed (state : State) :
    state.transcribed.current = state.current.transcribed := by
  cases h : state.effect <;> simp [current, h]

@[simp]
theorem isDone_transcribed (state : State) : state.transcribed.isDone = state.isDone := by
  simp [isDone]

theorem isDue_transcribed (state : State) (now : Int64) :
    state.transcribed.isDue now = state.isDue now := by
  rw [isDue, isDue, isDone_transcribed, transcribed_nextRun]

/-- A state comes back as it was just if its effect does. -/
theorem transcribed_eq_self {state : State} :
    state.transcribed = state ↔ state.current.transcribed = state.current := by
  obtain ⟨id, effect, ids, last, next⟩ := state
  cases effect <;> simp [transcribed, current]

end State

namespace Item

@[simp]
theorem transcribed_program (item : Item) : item.transcribed.program = item.program := rfl

@[simp]
theorem transcribed_state (item : Item) : item.transcribed.state = item.state.transcribed := rfl

@[simp]
theorem transcribed_fresh (program : Program) : (fresh program).transcribed = fresh program := rfl

theorem transcribed_eq_self {item : Item} :
    item.transcribed = item ↔ item.state.current.transcribed = item.state.current := by
  rw [← State.transcribed_eq_self]
  obtain ⟨program, state⟩ := item
  simp [transcribed]

end Item

end ProgramQueue
