import ProgramQueue.Json
import ProgramQueue.Base64

/-!
# Events and what is exchanged about them with the push server

An event pairs a trigger, which the server watches, with what the server does
once the trigger fires.  The server addresses chains by plugin and knows nothing
of wallets.
-/

namespace ProgramQueue.Push

/-- The span over which a price change is measured. -/
inductive PriceRange where
  | hourly
  | daily
deriving DecidableEq, Repr

/-- Something that the server watches. -/
inductive Trigger where
  | addressBalance (pluginId : String) (tokenId : Option String) (address : String)
      (aboveAmount belowAmount : Option String)
  | priceLevel (currencyPair : String) (aboveRate belowRate : Option Double)
  | txConfirm (pluginId : String) (confirmations : UInt32) (txid : String)
  /-- A market alert; programs never wait for one, but the server reports them. -/
  | priceChange (pluginId : String) (tokenId : Option String)
      (aboveRatio belowRatio : Option Double) (range : PriceRange)
deriving DecidableEq, Repr

/-- A signed transaction that the server submits by itself. -/
structure BroadcastTx where
  pluginId : String
  rawTx : List UInt8
deriving DecidableEq, Repr

/-- A trigger with whatever is to be done when it fires. -/
structure Event where
  eventId : String
  trigger : Trigger
  /-- Set by the server, once. -/
  triggered : Bool
  pushMessage : Option String
  pushPayload : Option Json
  broadcastTxs : List BroadcastTx
deriving Repr

/-- How far the server is with an event. -/
inductive EventState where
  | waiting
  | triggered
  | cancelled
  | complete
  | hidden
deriving DecidableEq, Repr

/-- An event as the server reports it.  Its trigger is kept as it is, since it
may be of a kind that is never registered here. -/
structure EventStatus where
  eventId : String
  trigger : Json
  state : EventState
  broadcastTxErrors : Option (List (Option String))
deriving Repr

/-- The identity of a device and all the events it is interested in. -/
structure DeviceUpdate where
  rootLoginIds : List String
  events : List Event
  deviceToken : String
deriving Repr

/-- New events, and events that are spent or given up. -/
structure LoginUpdate where
  events : List Event
  removeEvents : List String
deriving Repr

/-- What the server knows about a device. -/
structure Device where
  loginIds : List String
  events : List EventStatus
  ignoreMarketing : Bool
  ignorePriceChanges : Bool
deriving Repr

/-- What the server knows about a login. -/
structure Login where
  events : List EventStatus
deriving Repr

namespace Trigger

def typeName : Trigger → String
  | addressBalance .. => "address-balance"
  | priceLevel .. => "price-level"
  | txConfirm .. => "tx-confirm"
  | priceChange .. => "price-change"

end Trigger

namespace EventStatus

/-- The errors that the server met while it submitted transactions. -/
def broadcastErrors (status : EventStatus) : List String :=
  (status.broadcastTxErrors.getD []).filterMap id

end EventStatus

namespace LoginUpdate

/-- There is nothing to tell the server. -/
def isEmpty (update : LoginUpdate) : Bool :=
  update.events.isEmpty && update.removeEvents.isEmpty

end LoginUpdate

/-- A login id as it is sent: base 64. -/
def encodeLoginId (raw : List UInt8) : String := Base64.encode raw

/-- The bytes of a login id, if the text is canonical base 64. -/
def decodeLoginId? (text : String) : Option (List UInt8) := Base64.decode? text

end ProgramQueue.Push
