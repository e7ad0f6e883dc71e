import ProgramQueue.Push.Event
import ProgramQueue.Wire.Tagged

/-!
# Events and payloads on the wire

What the push server sends may leave out all that it has nothing to say about;
what is sent to it is always complete.
-/

namespace ProgramQueue.Push

open Wire

namespace PriceRange

def word : PriceRange → String
  | hourly => "hourly"
  | daily => "daily"

def ofWord? : String → Option PriceRange
  | "hourly" => some hourly
  | "daily" => some daily
  | _ => none

end PriceRange

namespace EventState

def word : EventState → String
  | waiting => "waiting"
  | triggered => "triggered"
  | cancelled => "cancelled"
  | complete => "complete"
  | hidden => "hidden"

def ofWord? : String → Option EventState
  | "waiting" => some waiting
  | "triggered" => some triggered
  | "cancelled" => some cancelled
  | "complete" => some complete
  | "hidden" => some hidden
  | _ => none

end EventState

namespace Trigger

def addressBalanceRecord :
    Record (String × Option String × String × Option String × Option String ×
      Unit) :=
  .cons (.required "pluginId" .str .str) <|
  .cons (.optional "tokenId" .str .str) <|
  .cons (.required "address" .str .str) <|
  .cons (.optional "aboveAmount" .str .str) <|
  .cons (.optional "belowAmount" .str .str) .nil

def priceLevelRecord :
    Record (String × Option Double × Option Double × Unit) :=
  .cons (.required "currencyPair" .str .str) <|
  .cons (.optional "aboveRate" .double .float) <|
  .cons (.optional "belowRate" .double .float) .nil

def txConfirmRecord : Record (String × UInt32 × String × Unit) :=
  .cons (.required "pluginId" .str .str) <|
  .cons (.required "confirmations" .uint32 fun n => Wire.nat n.toNat) <|
  .cons (.required "txid" .str .str) .nil

def priceChangeRecord :
    Record (String × Option String × Option Double × Option Double ×
      PriceRange × Unit) :=
  .cons (.required "pluginId" .str .str) <|
  .cons (.optional "tokenId" .str .str) <|
  .cons (.optional "aboveRatio" .double .float) <|
  .cons (.optional "belowRatio" .double .float) <|
  .cons (.required "range" (.word PriceRange.ofWord?) fun range =>
    .str range.word) .nil

/-- The members that are written for a trigger. -/
def members : Trigger → List (String × Json)
  | addressBalance plugin token address above below =>
      addressBalanceRecord.members (plugin, token, address, above, below, ())
  | priceLevel pair above below =>
      priceLevelRecord.members (pair, above, below, ())
  | txConfirm plugin confirmations txid =>
      txConfirmRecord.members (plugin, confirmations, txid, ())
  | priceChange plugin token above below range =>
      priceChangeRecord.members (plugin, token, above, below, range, ())

def toJson (trigger : Trigger) : Json := tagged trigger.typeName trigger.members

/-- The words for the kinds of triggers, in their order. -/
def words : List String :=
  ["address-balance", "price-level", "tx-confirm", "price-change"]

/-- A trigger, by the word for its kind. -/
def readContent (level : Level) (content : Content) : String → Option Trigger
  | "address-balance" => do
      let (plugin, token, address, above, below, ()) ←
        addressBalanceRecord.readContent level content
      return addressBalance plugin token address above below
  | "price-level" => do
      let (pair, above, below, ()) ← priceLevelRecord.readContent level content
      return priceLevel pair above below
  | "tx-confirm" => do
      let (plugin, confirmations, txid, ()) ←
        txConfirmRecord.readContent level content
      return txConfirm plugin confirmations txid
  | "price-change" => do
      let (plugin, token, above, below, range, ()) ←
        priceChangeRecord.readContent level content
      return priceChange plugin token above below range
  | _ => none

def read : Reader Trigger := fun level json => do
  let (word, content) ← untag words level json
  readContent level.within content word

end Trigger

namespace BroadcastTx

def record : Record (String × List UInt8 × Unit) :=
  .cons (.required "pluginId" .str .str) <|
  .cons (.required "rawTx" .bytes Wire.bytes) .nil

def toJson (transaction : BroadcastTx) : Json :=
  record.write (transaction.pluginId, transaction.rawTx, ())

def read : Reader BroadcastTx := fun level json => do
  let (plugin, rawTx, ()) ← record.read level json
  return ⟨plugin, rawTx⟩

end BroadcastTx

namespace Event

def record :
    Record (String × Trigger × Bool × Option String × Option Json ×
      List BroadcastTx × Unit) :=
  .cons (.required "eventId" .str .str) <|
  .cons (.required "trigger" Trigger.read Trigger.toJson) <|
  .cons (.required "triggered" .bool .bool) <|
  .cons (.optional "pushMessage" .str .str) <|
  .cons (.optional "pushPayload" .freeForm id) <|
  .cons (.sparse "broadcastTxs" (.list BroadcastTx.read)
    fun txs => .arr (txs.map BroadcastTx.toJson)) .nil

def toJson (event : Event) : Json :=
  record.write (event.eventId, event.trigger, event.triggered, event.pushMessage,
    event.pushPayload, event.broadcastTxs, ())

def read : Reader Event := fun level json => do
  let (eventId, trigger, triggered, message, payload, txs, ()) ←
    record.read level json
  return ⟨eventId, trigger, triggered, message, payload, txs⟩

end Event

namespace EventStatus

def record :
    Record (String × Json × EventState × Option (List (Option String)) × Unit) :=
  .cons (.required "eventId" .str .str) <|
  .cons (.defaulted "trigger" .null .freeForm id) <|
  .cons (.required "state" (.word EventState.ofWord?) fun state =>
    .str state.word) <|
  .cons (.optional "broadcastTxErrors" (.list (.nullable .str))
    fun errors => .arr (errors.map Json.optionalStr)) .nil

def toJson (status : EventStatus) : Json :=
  record.write (status.eventId, status.trigger, status.state,
    status.broadcastTxErrors, ())

def read : Reader EventStatus := fun level json => do
  let (eventId, trigger, state, errors, ()) ← record.read level json
  return ⟨eventId, trigger, state, errors⟩

end EventStatus

namespace DeviceUpdate

def record : Record (List String × List Event × String × Unit) :=
  .cons (.required "rootLoginIds" (.list .str) Wire.strs) <|
  .cons (.required "events" (.list Event.read)
    fun events => .arr (events.map Event.toJson)) <|
  .cons (.required "deviceToken" .str .str) .nil

def toJson (update : DeviceUpdate) : Json :=
  record.write (update.rootLoginIds, update.events, update.deviceToken, ())

def read : Reader DeviceUpdate := fun level json => do
  let (ids, events, token, ()) ← record.read level json
  return ⟨ids, events, token⟩

end DeviceUpdate

namespace LoginUpdate

def record : Record (List Event × List String × Unit) :=
  .cons (.required "events" (.list Event.read)
    fun events => .arr (events.map Event.toJson)) <|
  .cons (.sparse "removeEvents" (.list .str) Wire.strs) .nil

def toJson (update : LoginUpdate) : Json :=
  record.write (update.events, update.removeEvents, ())

def read : Reader LoginUpdate := fun level json => do
  let (events, removed, ()) ← record.read level json
  return ⟨events, removed⟩

end LoginUpdate

namespace Device

def record : Record (List String × List EventStatus × Bool × Bool × Unit) :=
  .cons (.defaulted "loginIds" [] (.list .str) Wire.strs) <|
  .cons (.defaulted "events" [] (.list EventStatus.read)
    fun events => .arr (events.map EventStatus.toJson)) <|
  .cons (.defaulted "ignoreMarketing" false .bool .bool) <|
  .cons (.defaulted "ignorePriceChanges" false .bool .bool) .nil

def toJson (device : Device) : Json :=
  record.write (device.loginIds, device.events, device.ignoreMarketing,
    device.ignorePriceChanges, ())

def read : Reader Device := fun level json => do
  let (ids, events, marketing, prices, ()) ← record.read level json
  return ⟨ids, events, marketing, prices⟩

/-- A device of which the server says nothing. -/
def unknown : Device := ⟨[], [], false, false⟩

end Device

namespace Login

def record : Record (List EventStatus × Unit) :=
  .cons (.defaulted "events" [] (.list EventStatus.read)
    fun events => .arr (events.map EventStatus.toJson)) .nil

def toJson (login : Login) : Json := record.write (login.events, ())

def read : Reader Login := fun level json => do
  let (events, ()) ← record.read level json
  return ⟨events⟩

/-- A login of which the server says nothing. -/
def unknown : Login := ⟨[]⟩

end Login

end ProgramQueue.Push
