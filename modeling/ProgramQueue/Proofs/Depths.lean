import ProgramQueue.Proofs.Drives
import ProgramQueue.Proofs.Leaves
import ProgramQueue.Proofs.Transcriptions
import ProgramQueue.Store

/-!
# How deep records nest

A record nests two levels deeper than the action of its program or the effect that was
stored, whichever is the deeper.  While a program runs, its effect nests no deeper than
its action does; what is written of a failure may take one level more.
-/

namespace ProgramQueue

open ProgramQueue.Task (Follows)

/-! ## Depths of what is written -/

namespace Wire

variable {α β : Type} {name : String} {read : Reader α} {write : α → Json}

@[simp]
theorem tagged_depth (word : String) (members : List (String × Json)) :
    (tagged word members).depth = Json.depthOfMembers members + 1 := by
  simp [tagged, Json.depth, Json.depthOfMembers]

namespace Record

@[simp]
theorem write_depth (record : Record α) (values : α) :
    (record.write values).depth = Json.depthOfMembers (record.members values) + 1 := by
  rw [Record.write, Json.depth]

@[simp]
theorem depth_nil : Json.depthOfMembers (Record.nil.members ()) = 0 := rfl

@[simp]
theorem depth_required (tail : Record β) (value : α) (values : β) :
    Json.depthOfMembers ((Record.cons (.required name read write) tail).members (value, values)) =
      max (write value).depth (Json.depthOfMembers (tail.members values)) := by
  simp [members, Field.required, Json.depthOfMembers]

@[simp]
theorem depth_defaulted (default : α) (tail : Record β) (value : α) (values : β) :
    Json.depthOfMembers
        ((Record.cons (.defaulted name default read write) tail).members (value, values)) =
      max (write value).depth (Json.depthOfMembers (tail.members values)) := by
  simp [members, Field.defaulted, Json.depthOfMembers]

@[simp]
theorem depth_optional (tail : Record β) (value : Option α) (values : β) :
    Json.depthOfMembers ((Record.cons (.optional name read write) tail).members (value, values)) =
      max ((value.map fun present => (write present).depth).getD 0)
        (Json.depthOfMembers (tail.members values)) := by
  cases value <;> simp [members, Field.optional, Json.depthOfMembers]

end Record

/-- A member that holds no array and no object adds no level, whether it is there or not. -/
@[simp]
theorem depth_flat (value : Option α) : (value.map fun _ => 0).getD 0 = 0 := by
  cases value <;> rfl

theorem strs_depth (texts : List String) : (strs texts).depth = 1 := by
  have hitems : Json.depthOfItems (texts.map .str) = 0 := by
    induction texts with
    | nil => rfl
    | cons text rest ih => simpa [Json.depthOfItems, Json.depth] using ih
  rw [strs, Json.depth, hitems]

end Wire

namespace Action

@[simp]
theorem depth_seq (children : List Action) (status : Option Status) :
    (seq children status).toJson.depth = Json.depthOfItems (listToJson children) + 2 := by
  cases status <;> simp [toJson, nodeRecord, statusField, Json.depth]

@[simp]
theorem depth_par (children : List Action) (status : Option Status) :
    (par children status).toJson.depth = Json.depthOfItems (listToJson children) + 2 := by
  cases status <;> simp [toJson, nodeRecord, statusField, Json.depth]

@[simp]
theorem depth_step (s : Step) (status : Option Status) :
    (step s status).toJson.depth = 1 := by
  cases s with
  | exchangeBuy order => simp [toJson, stepMembers, exchangeRecord, statusField, Json.depth]
  | exchangeSell order => simp [toJson, stepMembers, exchangeRecord, statusField, Json.depth]
  | loan kind terms => simp [toJson, stepMembers, loanRecord, statusField, Json.depth]
  | swap order => simp [toJson, stepMembers, swapRecord, statusField, Json.depth]
  | broadcast transaction =>
      simp [toJson, stepMembers, broadcastRecord, statusField, Wire.bytes, Json.depth]
  | toast message => simp [toJson, stepMembers, toastRecord, statusField, Json.depth]
  | delay ms => simp [toJson, stepMembers, delayRecord, statusField, Wire.nat, Json.depth]

theorem depth_pos (action : Action) : 1 ≤ action.toJson.depth := by
  cases action with
  | seq children status => rw [depth_seq]; omega
  | par children status => rw [depth_par]; omega
  | step s status => exact Nat.le_of_eq (depth_step s status).symm

/-- A child nests two levels less deep than the node that it stands in. -/
theorem depth_child {children : List Action} {index : Nat} {child : Action}
    (h : children[index]? = some child) :
    child.toJson.depth ≤ Json.depthOfItems (listToJson children) := by
  induction children generalizing index with
  | nil => cases h
  | cons first rest ih =>
      rw [listToJson, Json.depthOfItems]
      cases index with
      | zero =>
          obtain rfl := Option.some.inj h
          exact Nat.le_max_left _ _
      | succ index => exact Nat.le_trans (ih h) (Nat.le_max_right _ _)

end Action

namespace Effect

@[simp]
theorem depth_seq (index : Nat) (child : Effect) :
    (seq index child).toJson.depth = child.toJson.depth + 1 := by
  simp [toJson, seqRecord, Wire.nat, Json.depth]

@[simp]
theorem depth_par (children : List Effect) :
    (par children).toJson.depth = Json.depthOfItems (listToJson children) + 2 := by
  simp [toJson, parRecord, Json.depth]

@[simp]
theorem depth_init : init.toJson.depth = 1 := rfl

@[simp]
theorem depth_await (condition : Condition) : (await condition).toJson.depth = 1 := by
  cases condition with
  | addressBalance address walletId tokenId above below =>
      simp [toJson, Condition.members, Condition.addressBalanceRecord, Json.depth]
  | txConfs txId walletId confirmations =>
      simp [toJson, Condition.members, Condition.txConfsRecord, Wire.nat, Json.depth]
  | priceLevel pair above below =>
      simp [toJson, Condition.members, Condition.priceLevelRecord, Json.depth]
  | unixtime timestamp => simp [toJson, Condition.members, Condition.unixtimeRecord, Json.depth]

@[simp]
theorem depth_completed : completed.toJson.depth = 1 := rfl

@[simp]
theorem depth_failed (failure : Failure) : (failed failure).toJson.depth = 2 := by
  simp [failed, toJson, doneRecord, Failure.toJson, Failure.record, Json.depth]

/-- A failure with a snapshot nests as deep as the branches did. -/
@[simp]
theorem depth_snapshot (failure : Failure) (snapshot : List Effect) :
    (done (some failure) (some snapshot)).toJson.depth =
      Json.depthOfItems (listToJson snapshot) + 2 := by
  simp [toJson, doneRecord, Failure.toJson, Failure.record, Json.depth]

theorem depth_pos (effect : Effect) : 1 ≤ effect.toJson.depth := by
  cases effect with
  | done failure snapshot => cases snapshot <;> simp [toJson]
  | _ => simp

mutual

/-- A rate that comes back otherwise takes no other room. -/
theorem depth_transcribed : (effect : Effect) →
    effect.transcribed.toJson.depth = effect.toJson.depth
  | seq index child => by rw [transcribed, depth_seq, depth_seq, depth_transcribed child]
  | par children => by rw [transcribed, depth_par, depth_par, depth_transcribedList children]
  | await condition => by rw [transcribed_await, depth_await, depth_await]
  | init => rfl
  | done failure none => rfl
  | done none (some snapshot) => by
      simp [transcribed, toJson, doneRecord, Json.depth, depth_transcribedList snapshot]
  | done (some failure) (some snapshot) => by
      rw [transcribed, depth_snapshot, depth_snapshot, depth_transcribedList snapshot]

theorem depth_transcribedList : (children : List Effect) →
    Json.depthOfItems (listToJson (transcribedList children)) =
      Json.depthOfItems (listToJson children)
  | [] => rfl
  | child :: rest => by
      rw [transcribedList, listToJson, listToJson, Json.depthOfItems, Json.depthOfItems,
        depth_transcribed child, depth_transcribedList rest]

end

end Effect

namespace Item

/-- A record nests two levels deeper than the action and the effect in it. -/
theorem depth_eq (item : Item) :
    item.toJson.depth =
      max item.program.action.toJson.depth item.state.current.toJson.depth + 2 := by
  obtain ⟨⟨id, action, complete⟩, ⟨programId, effect, ids, last, next⟩⟩ := item
  have hpos := action.depth_pos
  cases effect <;> cases complete <;>
    simp [Item.toJson, record, Program.toJson, Program.record, CompleteMessage.toJson,
      CompleteMessage.record, State.toJson, State.record, State.timeField, State.current,
      Wire.strs_depth, Json.depth]
  all_goals omega

theorem isReadable_transcribed (item : Item) : item.transcribed.isReadable = item.isReadable := by
  rw [isReadable, isReadable, depth_eq, depth_eq, transcribed_program, transcribed_state,
    State.current_transcribed, Effect.depth_transcribed]

end Item

/-! ## Depths of effects while a program runs -/

namespace Effect

/-- What is written of a failure may take one level more. -/
def margin (effect : Effect) : Nat := if effect.failure?.isSome then 1 else 0

theorem margin_le (effect : Effect) : effect.margin ≤ 1 := by
  unfold margin
  split <;> omega

theorem margin_of_open {effect : Effect} (h : effect.failure? = none) : effect.margin = 0 := by
  simp [margin, h]

@[simp]
theorem margin_failed (failure : Failure) (snapshot : Option (List Effect)) :
    (done (some failure) snapshot).margin = 1 := rfl

/-- What a leaf comes to nests no deeper than the leaf, apart from what is written of a
failure. -/
theorem depth_leaf {effect : Effect}
    (h : (∃ failure, effect = .done failure none) ∨ ∃ condition, effect = .await condition) :
    effect.toJson.depth ≤ 1 + effect.margin := by
  obtain ⟨failure, rfl⟩ | ⟨condition, rfl⟩ := h
  · cases failure with
    | none => exact Nat.le_refl 1
    | some failure => exact Nat.le_of_eq (depth_failed failure)
  · rw [depth_await]
    exact Nat.le_add_right 1 _

end Effect

namespace Action

/-- A node that has just begun nests no deeper than its action. -/
theorem depth_opened (action : Action) : action.opened.toJson.depth ≤ action.toJson.depth := by
  cases action with
  | seq children status =>
      rw [opened, Effect.depth_seq, Effect.depth_init, depth_seq]
      omega
  | par children status =>
      have hchildren : Json.depthOfItems (Effect.listToJson (children.map fun _ => .init)) ≤
          Json.depthOfItems (listToJson children) := by
        induction children with
        | nil => exact Nat.le_refl 0
        | cons child rest ih =>
            have hpos := child.depth_pos
            simp only [List.map_cons, Effect.listToJson, listToJson, Json.depthOfItems,
              Effect.depth_init]
            omega
      rw [opened, Effect.depth_par, depth_par]
      omega
  | step s status => exact Nat.le_of_eq (depth_step s status).symm

/-- An effect nests no deeper than the one before it did, or than the action does, apart
from what is written of a failure. -/
def Nests (_site : Site) (action : Action) (effect : Effect) (_log : Log Journaled)
    (next : Effect) : Prop :=
  next.toJson.depth ≤ max effect.toJson.depth (action.toJson.depth + next.margin)

theorem Alongside.nests {site : Site} {index : Nat} {children : List Action}
    {effects nexts : List Effect} {log : Log Journaled} {margin : Nat}
    (h : Alongside Nests site index children effects log nexts)
    (hmargin : ∀ next ∈ nexts, next.margin ≤ margin) :
    Json.depthOfItems (Effect.listToJson nexts) ≤
      max (Json.depthOfItems (Effect.listToJson effects))
        (Json.depthOfItems (listToJson children) + margin) := by
  induction h with
  | nil => exact Nat.zero_le _
  | cons first rest ih =>
      have hrest := ih fun next hnext => hmargin next (List.mem_cons_of_mem _ hnext)
      have hfirst := hmargin _ List.mem_cons_self
      unfold Nests at first
      simp only [Effect.listToJson, listToJson, Json.depthOfItems]
      omega

/-- A sequence nests no deeper than the effects of its children do, one level in; the
failure of a child it takes over as it is. -/
theorem depth_afterChild (count index : Nat) (next : Effect) :
    (Effect.afterChild count index next).toJson.depth ≤ max 2 (next.toJson.depth + 1) := by
  have hpos := next.depth_pos
  cases hdone : next.isDone with
  | false =>
      rw [Effect.afterChild_pending hdone, Effect.depth_seq]
      omega
  | true =>
      obtain ⟨failure, snapshot, rfl⟩ := Effect.isDone_iff.1 hdone
      cases failure with
      | some failure =>
          rw [Effect.afterChild_failed]
          omega
      | none =>
          rw [Effect.afterChild_completed]
          split
          · rw [Effect.depth_completed]
            omega
          · rw [Effect.depth_seq, Effect.depth_init]
            omega

theorem nests (inlineCap : Nat) : AdvanceCases inlineCap Nests where
  ended site action failure snapshot := Nat.le_max_left _ _
  misfit site action effect misfit := by
    have hpos := action.depth_pos
    rw [Nests, Misfit.effect, Effect.depth_failed, Effect.failed, Effect.margin_failed]
    omega
  empty site action effect _ := by
    have hpos := action.depth_pos
    rw [Nests, Effect.depth_completed]
    omega
  opens site action log next h := by
    have hopened := action.depth_opened
    unfold Nests at h ⊢
    omega
  execute site step status log next h := by
    obtain ⟨inner, outer, result, -, -, hstart, rfl⟩ := Step.follows_execute h
    have hleaf := Effect.depth_leaf ((Effect.ofStart_cases hstart).imp_right
      fun ⟨condition, heq, _⟩ => ⟨condition, heq⟩)
    rw [Nests, depth_step]
    omega
  recheck site step status condition log next h := by
    obtain ⟨inner, outer, result, -, -, -, rfl⟩ := Condition.follows_recheck h
    have hleaf := Effect.depth_leaf ((Effect.ofCheck_cases (.await condition) result).imp_right
      fun heq => ⟨condition, heq⟩)
    rw [Nests, depth_step]
    omega
  seq site children status index running child log next hrunning h := by
    have hchild := depth_child hrunning
    have hmargin := next.margin_le
    have hafter := depth_afterChild children.length index next
    have hpos := child.depth_pos
    unfold Nests at h ⊢
    rw [Effect.depth_seq, depth_seq]
    omega
  par site children status effects log nexts h := by
    rw [Nests, Effect.depth_par, depth_par]
    obtain ⟨failure, -, heq⟩ | ⟨-, -, heq⟩ | ⟨hnone, -, heq⟩ := Effect.afterChildren_cases nexts
    · have hnexts := h.nests fun next _ => next.margin_le
      rw [heq, Effect.depth_snapshot, Effect.margin_failed]
      omega
    · rw [heq, Effect.depth_completed]
      omega
    · have hnexts := h.nests fun next hnext =>
        Nat.le_of_eq (Effect.margin_of_open (List.findSome?_eq_none_iff.1 hnone next hnext))
      rw [heq, Effect.depth_par]
      omega

end Action

namespace Program

/-- However far a program is driven, its effect nests no deeper than the one that was
stored, or than its action, apart from what is written of a failure.  What is over stays
as it is. -/
theorem nestsOn (inlineCap : Nat) (program : Program) :
    DriveCases inlineCap program fun effect _ final =>
      (effect.isDone = true → final = effect) ∧
        final.toJson.depth ≤ max effect.toJson.depth
          (program.action.toJson.depth + final.margin) where
  rest effect := ⟨fun _ => rfl, Nat.le_max_left _ _⟩
  advance effect log next later final hopen hadvance hrest := by
    refine ⟨fun hdone => absurd hdone (Bool.eq_false_iff.1 hopen), ?_⟩
    have hnext := (Action.nests inlineCap).holds _ hadvance
    unfold Action.Nests at hnext
    obtain ⟨hstays, hfinal⟩ := hrest
    cases hdone : next.isDone with
    | true =>
        obtain rfl := hstays hdone
        exact hnext
    | false =>
        have hmargin := Effect.margin_of_open (Effect.failure?_of_open hdone)
        omega

end Program

end ProgramQueue
