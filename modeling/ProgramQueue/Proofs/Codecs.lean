import ProgramQueue.Json.Printer
import ProgramQueue.Json.Reader
import ProgramQueue.Proofs.Laws
import ProgramQueue.Proofs.WireTrees
import ProgramQueue.Wire.Loan
import ProgramQueue.Wire.Program
import ProgramQueue.Wire.Push

/-!
# What is written is read back

Each type of stored records and of the messages that are exchanged with others is lawful.
The text of a value without floating-point members denotes that value and no other, so a
text that was accepted is the same after it is written anew and read once more.
-/

namespace ProgramQueue

open Json (Throughout IsExact IsDenoting)
open Wire (Lawful Level Content Reader Record tagged tagName returns_str returns_word
  returns_uint32)
open Wire.Field (returns_required returns_optional returns_optionalStr)

variable {level : Level} {json : Json}

theorem lawful_strs : Lawful (.list .str) Wire.strs (fun _ => True) (fun _ => True) 1 where
  exact _ _ := Wire.exact_strs _
  returns _ := Lawful.str.list.returns fun _ _ => trivial
  gains hkept hsized hread := ⟨trivial, (Lawful.str.list.gains hkept hsized hread).2⟩

/-! ## Programs -/

theorem Action.toJson_ne (action : Action) : action.toJson ≠ .null := by
  intro heq
  have hpos := action.depth_pos
  rw [heq] at hpos
  exact absurd hpos (Nat.not_succ_le_zero 0)

theorem Effect.toJson_ne (effect : Effect) : effect.toJson ≠ .null := by
  intro heq
  have hpos := effect.depth_pos
  rw [heq] at hpos
  exact absurd hpos (Nat.not_succ_le_zero 0)

theorem Action.lawful : Lawful Action.read Action.toJson (fun _ => True) (fun _ => True) 0 where
  exact _ _ := Action.exact _
  returns _ := Action.returns _
  gains hkept _ hread := by
    have hroom := Action.depth_le_room hkept hread
    exact ⟨trivial, (Action.depth_ofJsonAt hread).trans (hroom.trans (Nat.le_max_left _ _))⟩

theorem Effect.lawful : Lawful Effect.read Effect.toJson Effect.IsIndexed Effect.IsFloatless 0 where
  exact := Effect.exact
  returns := Effect.returns
  gains hkept _ hread := by
    have hroom := Effect.depth_le_room hkept hread
    obtain ⟨hindexed, hdepth⟩ := Effect.gains_ofJsonAt hread
    exact ⟨hindexed, hdepth.trans (hroom.trans (Nat.le_max_left _ _))⟩

theorem CompleteMessage.lawful :
    Lawful CompleteMessage.read CompleteMessage.toJson (fun _ => True) (fun _ => True) 1 := by
  have hrecord : record.Lawful _ _ _ := .cons (.required .str) <| .cons (.required .str) .nil
  exact hrecord.packed (by decide) (fun _ => rfl) (fun _ => rfl) (fun _ _ => rfl) (fun _ => rfl)
    (by simp) (by simp)

theorem Program.lawful :
    Lawful Program.read Program.toJson (fun _ => True) (fun _ => True) 2 := by
  have hrecord : record.Lawful _ _ _ :=
    .cons (.required .str) <| .cons (.required Action.lawful) <|
    .cons (.optional CompleteMessage.lawful fun _ => nofun) .nil
  exact hrecord.packed (by decide) (fun _ => rfl) (fun _ => rfl) (fun _ _ => rfl) (fun _ => rfl)
    (by simp) (by simp)

namespace State

/-- The effect to go on from is indexed. -/
def IsRegular (state : State) : Prop := ∀ effect ∈ state.effect, effect.IsIndexed

def IsFloatless (state : State) : Prop := ∀ effect ∈ state.effect, effect.IsFloatless

theorem lawful_timeField (name : String) :
    (timeField name).Lawful (fun _ => True) (fun _ => True) 0 :=
  .defaulted .int64 trivial (Nat.le_refl 0)

theorem lawful : Lawful read toJson IsRegular IsFloatless 2 := by
  have hrecord : record.Lawful _ _ _ :=
    .cons (.required .str) <| .cons (.optional Effect.lawful Effect.toJson_ne) <|
    .cons (.defaulted lawful_strs trivial (Nat.le_refl 1)) <|
    .cons (lawful_timeField _) <| .cons (lawful_timeField _) .nil
  exact hrecord.packed (by decide) (fun _ => rfl) (fun _ => rfl) (fun _ _ => rfl) (fun _ => rfl)
    (by simp [IsRegular]) (by simp [IsFloatless])

end State

namespace Item

theorem lawful : Lawful read toJson (·.state.IsRegular) (·.state.IsFloatless) 3 := by
  have hrecord : record.Lawful _ _ _ :=
    .cons (.required Program.lawful) <| .cons (.required State.lawful) .nil
  exact hrecord.packed (by decide) (fun _ => rfl) (fun _ => rfl) (fun _ _ => rfl) (fun _ => rfl)
    (by simp) (by simp)

end Item

namespace ExecutionResult

theorem lawful : Lawful read toJson (·.effect.IsIndexed) (·.effect.IsFloatless) 1 := by
  have hrecord : record.Lawful _ _ _ :=
    .cons (.required Effect.lawful) <| .cons (.optional Action.lawful Action.toJson_ne) <|
    .cons (.spared .str (fun _ => String.isEmpty_iff) trivial) .nil
  exact hrecord.packed (by decide) (fun _ => rfl) (fun _ => rfl) (fun _ _ => rfl) (fun _ => rfl)
    (by simp) (by simp)

end ExecutionResult

@[simp]
theorem LoanKind.ofWord_word (kind : LoanKind) : LoanKind.ofWord? kind.word = some kind := by
  cases kind <;> rfl

theorem LoanRequest.lawful :
    Lawful LoanRequest.read LoanRequest.toJson (fun _ => True) (fun _ => True) 1 := by
  have hrecord : record.Lawful _ _ _ :=
    .cons (.required (.word LoanKind.ofWord_word)) <| .cons (.required .str) <|
    .cons (.required .str) <| .cons (.nullable .str fun _ => nofun) <| .cons (.required .str) <|
    .cons (.nullable .str fun _ => nofun) .nil
  exact hrecord.packed (by decide) (fun _ => rfl) (fun _ => rfl) (fun _ _ => rfl) (fun _ => rfl)
    (by simp) (by simp)

/-! ## Messages to the push server -/

namespace Push

@[simp]
theorem PriceRange.ofWord_word (range : PriceRange) :
    PriceRange.ofWord? range.word = some range := by
  cases range <;> rfl

@[simp]
theorem EventState.ofWord_word (state : EventState) :
    EventState.ofWord? state.word = some state := by
  cases state <;> rfl

namespace Trigger

variable {trigger : Trigger}

/-- No rate and no ratio is given. -/
def IsFloatless : Trigger → Prop
  | priceLevel _ above below => above = none ∧ below = none
  | priceChange _ _ above below _ => above = none ∧ below = none
  | _ => True

theorem exact (h : trigger.IsFloatless) : trigger.toJson.Throughout IsExact := by
  cases trigger with
  | addressBalance =>
      rw [toJson, members, Wire.exact_tagged]
      simp [addressBalanceRecord]
  | priceLevel =>
      obtain ⟨rfl, rfl⟩ := h
      rw [toJson, members, Wire.exact_tagged]
      simp [priceLevelRecord]
  | txConfirm =>
      rw [toJson, members, Wire.exact_tagged]
      simp [txConfirmRecord]
  | priceChange =>
      obtain ⟨rfl, rfl⟩ := h
      rw [toJson, members, Wire.exact_tagged]
      simp [priceChangeRecord]

theorem depth_toJson (trigger : Trigger) : trigger.toJson.depth = 1 := by
  cases trigger with
  | addressBalance => simp [toJson, members, addressBalanceRecord, Json.depth]
  | priceLevel => simp [toJson, members, priceLevelRecord, Json.depth]
  | txConfirm => simp [toJson, members, txConfirmRecord, Wire.nat, Json.depth]
  | priceChange => simp [toJson, members, priceChangeRecord, Json.depth]

/-- A trigger is read back from what is written of it, by the word for its kind. -/
theorem readContent_members
    (hdenoting : (tagged trigger.typeName trigger.members).Throughout IsDenoting)
    (hroom : (tagged trigger.typeName trigger.members).depth ≤ level.room) :
    readContent level.within (.named trigger.members) trigger.typeName = some trigger := by
  cases trigger with
  | addressBalance plugin token address above below =>
      have heach : addressBalanceRecord.Returns level.within
          (plugin, token, address, above, below, ()) :=
        ⟨returns_required (returns_str _) _, returns_optionalStr _ _,
          returns_required (returns_str _) _, returns_optionalStr _ _, returns_optionalStr _ _,
          trivial⟩
      have hread := addressBalanceRecord.readContent_tagged (by decide) heach hdenoting hroom
      simp only [members, typeName, readContent, hread]
      rfl
  | priceLevel pair above below =>
      have heach : priceLevelRecord.Returns level.within (pair, above, below, ()) :=
        ⟨returns_required (returns_str _) _, Condition.returns_rate _ _ _,
          Condition.returns_rate _ _ _, trivial⟩
      have hread := priceLevelRecord.readContent_tagged (by decide) heach hdenoting hroom
      simp only [members, typeName, readContent, hread]
      rfl
  | txConfirm plugin confirmations txid =>
      have heach : txConfirmRecord.Returns level.within (plugin, confirmations, txid, ()) :=
        ⟨returns_required (returns_str _) _, returns_required (returns_uint32 _) _,
          returns_required (returns_str _) _, trivial⟩
      have hread := txConfirmRecord.readContent_tagged (by decide) heach hdenoting hroom
      simp only [members, typeName, readContent, hread]
      rfl
  | priceChange plugin token above below range =>
      have heach : priceChangeRecord.Returns level.within
          (plugin, token, above, below, range, ()) :=
        ⟨returns_required (returns_str _) _, returns_optionalStr _ _,
          Condition.returns_rate _ _ _, Condition.returns_rate _ _ _,
          returns_required (returns_word range.ofWord_word) _, trivial⟩
      have hread := priceChangeRecord.readContent_tagged (by decide) heach hdenoting hroom
      simp only [members, typeName, readContent, hread]
      rfl

theorem typeName_mem (trigger : Trigger) : trigger.typeName ∈ words := by
  cases trigger <;> simp [typeName, words]

theorem members_ne (trigger : Trigger) : ∀ member ∈ trigger.members, member.1 ≠ tagName := by
  cases trigger <;> exact Record.members_ne _ (by decide) _

theorem lawful : Lawful read toJson (fun _ => True) IsFloatless 1 where
  exact _ hfloatless := exact hfloatless
  returns {trigger} _ level hdenoting hroom := by
    have htag : Wire.untag words level trigger.toJson =
        some (trigger.typeName, .named trigger.members) :=
      Wire.untag_tagged trigger.typeName_mem trigger.members_ne hdenoting hroom
    rw [read, htag]
    exact readContent_members hdenoting hroom
  gains _ _ _ := ⟨trivial, (depth_toJson _).trans_le (Nat.le_max_right _ _)⟩

end Trigger

theorem BroadcastTx.lawful :
    Lawful BroadcastTx.read BroadcastTx.toJson (fun _ => True) (fun _ => True) 1 := by
  have hrecord : record.Lawful _ _ _ := .cons (.required .str) <| .cons (.required .bytes) .nil
  exact hrecord.packed (by decide) (fun _ => rfl) (fun _ => rfl) (fun _ _ => rfl) (fun _ => rfl)
    (by simp) (by simp)

namespace Event

/-- What is sent along is kept as it is, and is not null. -/
def IsRegular (event : Event) : Prop :=
  ∀ payload ∈ event.pushPayload, payload.IsKept ∧ payload ≠ .null

def IsFloatless (event : Event) : Prop :=
  event.trigger.IsFloatless ∧
    ∀ payload ∈ event.pushPayload, payload.Throughout Json.IsFloatless

theorem lawful : Lawful read toJson IsRegular IsFloatless 3 := by
  have hrecord : record.Lawful _ _ _ :=
    .cons (.required .str) <| .cons (.required Trigger.lawful) <| .cons (.required .bool) <|
    .cons (.optional .str fun _ => nofun) <| .cons .optionalFreeForm <|
    .cons (.spared BroadcastTx.lawful.list (fun _ => List.isEmpty_iff) (by simp)) .nil
  exact hrecord.packed (by decide) (fun _ => rfl) (fun _ => rfl) (fun _ _ => rfl) (fun _ => rfl)
    (by simp [IsRegular]) (by simp +contextual [IsFloatless])

end Event

namespace EventStatus

theorem lawful :
    Lawful read toJson (·.trigger.IsKept) (·.trigger.Throughout Json.IsFloatless) 2 := by
  have hnull : Json.null.IsKept := ⟨rfl, .scalar rfl trivial, .scalar rfl trivial⟩
  have hrecord : record.Lawful _ _ _ :=
    .cons (.required .str) <| .cons (.defaulted .freeForm hnull (Nat.le_refl 0)) <|
    .cons (.required (.word EventState.ofWord_word)) <|
    .cons (.optional (Lawful.str.nullable fun _ => nofun).list fun _ => nofun) .nil
  exact hrecord.packed (by decide) (fun _ => rfl) (fun _ => rfl) (fun _ _ => rfl) (fun _ => rfl)
    (by simp) (by simp)

end EventStatus

namespace DeviceUpdate

def IsRegular (update : DeviceUpdate) : Prop := ∀ event ∈ update.events, event.IsRegular

def IsFloatless (update : DeviceUpdate) : Prop := ∀ event ∈ update.events, event.IsFloatless

theorem lawful : Lawful read toJson IsRegular IsFloatless 5 := by
  have hrecord : record.Lawful _ _ _ :=
    .cons (.required lawful_strs) <| .cons (.required Event.lawful.list) <|
    .cons (.required .str) .nil
  exact hrecord.packed (by decide) (fun _ => rfl) (fun _ => rfl) (fun _ _ => rfl) (fun _ => rfl)
    (by simp [IsRegular]) (by simp [IsFloatless])

end DeviceUpdate

namespace LoginUpdate

def IsRegular (update : LoginUpdate) : Prop := ∀ event ∈ update.events, event.IsRegular

def IsFloatless (update : LoginUpdate) : Prop := ∀ event ∈ update.events, event.IsFloatless

theorem lawful : Lawful read toJson IsRegular IsFloatless 5 := by
  have hrecord : record.Lawful _ _ _ :=
    .cons (.required Event.lawful.list) <|
    .cons (.spared lawful_strs (fun _ => List.isEmpty_iff) trivial) .nil
  exact hrecord.packed (by decide) (fun _ => rfl) (fun _ => rfl) (fun _ _ => rfl) (fun _ => rfl)
    (by simp [IsRegular]) (by simp [IsFloatless])

end LoginUpdate

namespace Device

def IsRegular (device : Device) : Prop := ∀ status ∈ device.events, status.trigger.IsKept

def IsFloatless (device : Device) : Prop :=
  ∀ status ∈ device.events, status.trigger.Throughout Json.IsFloatless

theorem lawful : Lawful read toJson IsRegular IsFloatless 4 := by
  have hrecord : record.Lawful _ _ _ :=
    .cons (.defaulted lawful_strs trivial (Nat.le_refl 1)) <|
    .cons (.defaulted EventStatus.lawful.list (List.forall_mem_nil _) (by decide)) <|
    .cons (.defaulted .bool trivial (Nat.le_refl 0)) <|
    .cons (.defaulted .bool trivial (Nat.le_refl 0)) .nil
  exact hrecord.packed (by decide) (fun _ => rfl) (fun _ => rfl) (fun _ _ => rfl) (fun _ => rfl)
    (by simp [IsRegular]) (by simp [IsFloatless])

end Device

namespace Login

def IsRegular (login : Login) : Prop := ∀ status ∈ login.events, status.trigger.IsKept

def IsFloatless (login : Login) : Prop :=
  ∀ status ∈ login.events, status.trigger.Throughout Json.IsFloatless

theorem lawful : Lawful read toJson IsRegular IsFloatless 4 := by
  have hrecord : record.Lawful _ _ _ :=
    .cons (.defaulted EventStatus.lawful.list (List.forall_mem_nil _) (by decide)) .nil
  exact hrecord.packed (by decide) (fun _ => rfl) (fun _ => rfl) (fun _ _ => rfl) (fun _ => rfl)
    (by simp [IsRegular]) (by simp [IsFloatless])

end Login

end Push

/-! ## All types -/

/-- The types of what is stored and of what is exchanged with others. -/
inductive Kind where
  | action
  | effect
  | program
  | state
  | item
  | result
  | loanRequest
  | broadcastTx
  | trigger
  | event
  | eventStatus
  | deviceUpdate
  | loginUpdate
  | device
  | login

namespace Kind

abbrev Value : Kind → Type
  | action => Action
  | effect => Effect
  | program => Program
  | state => State
  | item => Item
  | result => ExecutionResult
  | loanRequest => LoanRequest
  | broadcastTx => Push.BroadcastTx
  | trigger => Push.Trigger
  | event => Push.Event
  | eventStatus => Push.EventStatus
  | deviceUpdate => Push.DeviceUpdate
  | loginUpdate => Push.LoginUpdate
  | device => Push.Device
  | login => Push.Login

def toJson : (kind : Kind) → kind.Value → Json
  | action => Action.toJson
  | effect => Effect.toJson
  | program => Program.toJson
  | state => State.toJson
  | item => Item.toJson
  | result => ExecutionResult.toJson
  | loanRequest => LoanRequest.toJson
  | broadcastTx => Push.BroadcastTx.toJson
  | trigger => Push.Trigger.toJson
  | event => Push.Event.toJson
  | eventStatus => Push.EventStatus.toJson
  | deviceUpdate => Push.DeviceUpdate.toJson
  | loginUpdate => Push.LoginUpdate.toJson
  | device => Push.Device.toJson
  | login => Push.Login.toJson

def read : (kind : Kind) → Reader kind.Value
  | action => Action.read
  | effect => Effect.read
  | program => Program.read
  | state => State.read
  | item => Item.read
  | result => ExecutionResult.read
  | loanRequest => LoanRequest.read
  | broadcastTx => Push.BroadcastTx.read
  | trigger => Push.Trigger.read
  | event => Push.Event.read
  | eventStatus => Push.EventStatus.read
  | deviceUpdate => Push.DeviceUpdate.read
  | loginUpdate => Push.LoginUpdate.read
  | device => Push.Device.read
  | login => Push.Login.read

/-- Indices are of 64 bits, free-form values are kept in normal form with numbers in
range, and none that is sent along with an event is null. -/
def IsRegular : (kind : Kind) → kind.Value → Prop
  | effect, x => x.IsIndexed
  | state, x => x.IsRegular
  | item, x => x.state.IsRegular
  | result, x => x.effect.IsIndexed
  | event, x => x.IsRegular
  | eventStatus, x => x.trigger.IsKept
  | deviceUpdate, x => x.IsRegular
  | loginUpdate, x => x.IsRegular
  | device, x => x.IsRegular
  | login, x => x.IsRegular
  | _, _ => True

/-- No floating-point member is there, and no free-form value holds a double. -/
def IsFloatless : (kind : Kind) → kind.Value → Prop
  | effect, x => x.IsFloatless
  | state, x => x.IsFloatless
  | item, x => x.state.IsFloatless
  | result, x => x.effect.IsFloatless
  | trigger, x => x.IsFloatless
  | event, x => x.IsFloatless
  | eventStatus, x => x.trigger.Throughout Json.IsFloatless
  | deviceUpdate, x => x.IsFloatless
  | loginUpdate, x => x.IsFloatless
  | device, x => x.IsFloatless
  | login, x => x.IsFloatless
  | _, _ => True

/-- The text of a value. -/
def encode (kind : Kind) (value : kind.Value) : String := (kind.toJson value).compact

/-- The value that a whole text denotes. -/
def decode? (kind : Kind) (text : String) : Option kind.Value :=
  (Json.parse? text).bind (kind.read .whole)

/-- The text of the value that a text denotes. -/
def rewrite? (kind : Kind) (text : String) : Option String := (kind.decode? text).map kind.encode

theorem lawful (kind : Kind) :
    Lawful kind.read kind.toJson kind.IsRegular kind.IsFloatless Level.whole.room := by
  cases kind with
  | action => exact Action.lawful.mono (by decide)
  | effect => exact Effect.lawful.mono (by decide)
  | program => exact Program.lawful.mono (by decide)
  | state => exact State.lawful.mono (by decide)
  | item => exact Item.lawful.mono (by decide)
  | result => exact ExecutionResult.lawful.mono (by decide)
  | loanRequest => exact LoanRequest.lawful.mono (by decide)
  | broadcastTx => exact Push.BroadcastTx.lawful.mono (by decide)
  | trigger => exact Push.Trigger.lawful.mono (by decide)
  | event => exact Push.Event.lawful.mono (by decide)
  | eventStatus => exact Push.EventStatus.lawful.mono (by decide)
  | deviceUpdate => exact Push.DeviceUpdate.lawful.mono (by decide)
  | loginUpdate => exact Push.LoginUpdate.lawful.mono (by decide)
  | device => exact Push.Device.lawful.mono (by decide)
  | login => exact Push.Login.lawful.mono (by decide)

/-- The text of a value is read as that value. -/
theorem decode_text (kind : Kind) {value : kind.Value} (hregular : kind.IsRegular value)
    (hfloatless : kind.IsFloatless value) (hdepth : (kind.toJson value).depth ≤ Level.whole.room) :
    kind.decode? (kind.encode value) = some value := by
  have hexact := kind.lawful.exact hregular hfloatless
  rw [decode?, encode, Json.parse_compact hexact, Option.bind_some]
  exact kind.lawful.returns hregular .whole hexact.denoting hdepth

/-- A value that was read from a text is regular, and its own text is not too deep. -/
theorem regular_of_decode (kind : Kind) {text : String} {value : kind.Value}
    (h : kind.decode? text = some value) :
    kind.IsRegular value ∧ (kind.toJson value).depth ≤ Level.whole.room := by
  obtain ⟨json, hjson, hread⟩ := Option.bind_eq_some_iff.1 h
  obtain ⟨hregular, hdepth⟩ := kind.lawful.gains rfl (Json.parse_sized hjson) hread
  exact ⟨hregular, hdepth.trans (Nat.le_of_eq (Nat.max_self _))⟩

/-- Decoding undoes encoding for every value without floating-point members that nests at
most a hundred and twenty-seven levels.  A text that denotes a value without such members
denotes the same one after it is rewritten, and rewriting it a second time changes nothing.
A rate is such a member even if the text gives it as an integer. -/
theorem decode_encode (kind : Kind) :
    (∀ value : kind.Value, kind.IsRegular value → kind.IsFloatless value →
      (kind.toJson value).depth ≤ 127 → kind.decode? (kind.encode value) = some value) ∧
    ∀ (text : String) (value : kind.Value), kind.decode? text = some value →
      kind.IsFloatless value →
        (kind.rewrite? text).bind kind.decode? = some value ∧
        (kind.rewrite? text).bind kind.rewrite? = kind.rewrite? text := by
  refine ⟨fun value => kind.decode_text, fun text value hdecode hfloatless => ?_⟩
  obtain ⟨hregular, hdepth⟩ := kind.regular_of_decode hdecode
  have hback := kind.decode_text hregular hfloatless hdepth
  have hrewritten : kind.rewrite? text = some (kind.encode value) := by
    rw [rewrite?, hdecode, Option.map_some]
  rw [hrewritten, Option.bind_some, Option.bind_some, rewrite?, hback]
  exact ⟨rfl, rfl⟩

/-- A state in which a deadline is awaited, and a text that gives no more than the name of
a program. -/
theorem deadline_kept :
    state.decode? (state.encode
        ⟨"p\"1", some (.seq 1 (.await (.unixtime 5))), ["e"], 0, never⟩) =
      some ⟨"p\"1", some (.seq 1 (.await (.unixtime 5))), ["e"], 0, never⟩ ∧
    state.decode? "[\"p1\"]" = some (State.fresh "p1") ∧
    (state.rewrite? "[\"p1\"]").bind state.rewrite? = state.rewrite? "[\"p1\"]" := by
  have hregular :
      state.IsRegular ⟨"p\"1", some (.seq 1 (.await (.unixtime 5))), ["e"], 0, never⟩ := by
    rintro effect ⟨⟩
    exact .seq (by decide) (.await trivial)
  have hfloatless :
      state.IsFloatless ⟨"p\"1", some (.seq 1 (.await (.unixtime 5))), ["e"], 0, never⟩ := by
    rintro effect ⟨⟩
    exact .seq trivial (.await trivial)
  have hdecode : state.decode? "[\"p1\"]" = some (State.fresh "p1") := by decide
  have hnone : state.IsFloatless (State.fresh "p1") := fun _ => nofun
  exact ⟨(state.decode_encode).1 _ hregular hfloatless (by decide), hdecode,
    ((state.decode_encode).2 _ _ hdecode hnone).2⟩

end Kind

end ProgramQueue
