import ProgramQueue.Program
import ProgramQueue.Wire.Tagged

/-!
# Forms of records, and what may be changed in them

An older record, or one that was extended, has its members in another order, lacks those that
have their usual values, gives null for those that are absent, or has members that nobody
knows.  The form of a record says which of its members are known and which may be absent.
-/

namespace ProgramQueue.Wire

/-- How a member may be absent. -/
inductive Presence where
  /-- It is always there. -/
  | required
  /-- It is not there, or null, if there is no value. -/
  | optional
  /-- It may be left out if it is the usual one. -/
  | spared (usual : Json)

/-- A member that is known, and the form of its value. -/
structure Slot (σ : Type) where
  name : String
  presence : Presence
  form : σ

/-- The types whose values are tagged. -/
inductive Family where
  | action
  | effect
  | trigger

/-- What is known of the parts of a value. -/
inductive Form where
  /-- Nothing: a scalar, a list of scalars, or a free-form value. -/
  | plain
  | list (item : Form)
  | record (slots : List (Slot Form))
  | tagged (family : Family)

namespace Slot

def required (name : String) : Slot Form := ⟨name, .required, .plain⟩

def optional (name : String) : Slot Form := ⟨name, .optional, .plain⟩

def spared (name : String) (usual : Json) : Slot Form := ⟨name, .spared usual, .plain⟩

end Slot

open Slot (required optional spared)

namespace Form

/-! ## Tagged values -/

def failure : Form := .record [required "kind", required "message"]

/-- The children of an action, and its status. -/
def node : List (Slot Form) :=
  [⟨"actions", .required, .list (.tagged .action)⟩, optional "status"]

def exchange : List (Slot Form) :=
  [required "exchangePluginId", required "walletId", optional "tokenId", required "nativeAmount",
    optional "status"]

def loan : List (Slot Form) :=
  [required "borrowPluginId", required "walletId", optional "tokenId", required "nativeAmount",
    optional "fromTokenId", optional "status"]

def swap : List (Slot Form) :=
  [required "fromWalletId", optional "fromTokenId", required "toWalletId", optional "toTokenId",
    required "nativeAmount", required "amountFor", optional "expectedPayoutNativeAmount",
    optional "status"]

def broadcast : List (Slot Form) :=
  [required "walletId", required "pluginId", required "rawTx", optional "status"]

def toast : List (Slot Form) := [required "message", optional "status"]

def delay : List (Slot Form) := [required "ms", optional "status"]

/-- The members of a step, by the word for its kind. -/
def steps : List (String × List (Slot Form)) :=
  [("exchange-buy", exchange), ("exchange-sell", exchange), ("loan-borrow", loan),
    ("loan-deposit", loan), ("loan-repay", loan), ("loan-withdraw", loan), ("swap", swap),
    ("broadcast-tx", broadcast), ("toast", toast), ("delay", delay)]

/-- The members of an action. -/
def actions : List (String × List (Slot Form)) := ("seq", node) :: ("par", node) :: steps

/-- A balance that is waited for. -/
def addressBalance : List (Slot Form) :=
  [required "address", required "walletId", optional "tokenId", optional "aboveAmount",
    optional "belowAmount"]

def txConfs : List (Slot Form) :=
  [required "txId", required "walletId", required "confirmations"]

def priceLevel : List (Slot Form) :=
  [required "currencyPair", optional "aboveRate", optional "belowRate"]

def unixtime : List (Slot Form) := [required "timestamp"]

/-- The members of a condition. -/
def conditions : List (String × List (Slot Form)) :=
  [("address-balance", addressBalance), ("tx-confs", txConfs), ("price-level", priceLevel),
    ("unixtime", unixtime)]

/-- A running sequence. -/
def sequence : List (Slot Form) :=
  [required "opIndex", ⟨"childEffect", .required, .tagged .effect⟩]

/-- Running parallel children. -/
def parallel : List (Slot Form) := [⟨"childEffects", .required, .list (.tagged .effect)⟩]

/-- What is over, with the snapshot of its children. -/
def done : List (Slot Form) :=
  [⟨"error", .optional, failure⟩, ⟨"childEffects", .optional, .list (.tagged .effect)⟩]

/-- The members of an effect. -/
def effects : List (String × List (Slot Form)) :=
  ("seq", sequence) :: ("par", parallel) :: ("init", []) :: ("done", done) :: conditions

/-- An address whose balance is watched. -/
def addressTrigger : List (Slot Form) :=
  [required "pluginId", optional "tokenId", required "address", optional "aboveAmount",
    optional "belowAmount"]

def txConfirm : List (Slot Form) :=
  [required "pluginId", required "confirmations", required "txid"]

def priceChange : List (Slot Form) :=
  [required "pluginId", optional "tokenId", optional "aboveRatio", optional "belowRatio",
    required "range"]

/-- The members of a trigger. -/
def triggers : List (String × List (Slot Form)) :=
  [("address-balance", addressTrigger), ("price-level", priceLevel), ("tx-confirm", txConfirm),
    ("price-change", priceChange)]

end Form

/-- The members of a tagged value, by the word for its kind. -/
def Family.variants : Family → List (String × List (Slot Form))
  | action => Form.actions
  | effect => Form.effects
  | trigger => Form.triggers

namespace Form

/-! ## Records -/

def completeMessage : Form := .record [required "title", required "message"]

def program : Form :=
  .record [required "programId", ⟨"actionOp", .required, .tagged .action⟩,
    ⟨"completeMessage", .optional, completeMessage⟩]

def state : Form :=
  .record [required "programId", ⟨"effect", .optional, .tagged .effect⟩,
    spared "pushEventIds" (.arr []), spared "lastExecutionTime" (.int never.toInt),
    spared "nextExecutionTime" (.int never.toInt)]

def item : Form := .record [⟨"program", .required, program⟩, ⟨"state", .required, state⟩]

def result : Form :=
  .record [⟨"effect", .required, .tagged .effect⟩, ⟨"action", .optional, .tagged .action⟩,
    spared "callStackId" (.str "")]

def loanRequest : Form :=
  .record [required "kind", required "borrowPluginId", required "walletId",
    spared "tokenId" .null, required "nativeAmount", spared "fromTokenId" .null]

def broadcastTx : Form := .record [required "pluginId", required "rawTx"]

def event : Form :=
  .record [required "eventId", ⟨"trigger", .required, .tagged .trigger⟩, required "triggered",
    optional "pushMessage", optional "pushPayload",
    ⟨"broadcastTxs", .spared (.arr []), .list broadcastTx⟩]

def eventStatus : Form :=
  .record [required "eventId", spared "trigger" .null, required "state",
    optional "broadcastTxErrors"]

def deviceUpdate : Form :=
  .record [required "rootLoginIds", ⟨"events", .required, .list event⟩, required "deviceToken"]

def loginUpdate : Form :=
  .record [⟨"events", .required, .list event⟩, spared "removeEvents" (.arr [])]

def device : Form :=
  .record [spared "loginIds" (.arr []), ⟨"events", .spared (.arr []), .list eventStatus⟩,
    spared "ignoreMarketing" (.bool false), spared "ignorePriceChanges" (.bool false)]

def login : Form := .record [⟨"events", .spared (.arr []), .list eventStatus⟩]

end Form

/-! ## Revisions -/

/-- Members that a reader does not know, with values that a text can denote. -/
def Unknown (names : List String) (members : List (String × Json)) : Prop :=
  ∀ member ∈ members, member.1 ∉ names ∧ member.2.isReadable = true

mutual

/-- A tree of a form was revised: members of its objects were put into another order, unknown
ones were added, absent ones were given as null, and usual ones were left out. -/
inductive Revised : Form → Json → Json → Prop
  | same (form : Form) (json : Json) : Revised form json json
  | list {form : Form} {items revised : List Json} (h : RevisedItems form items revised) :
      Revised (.list form) (.arr items) (.arr revised)
  | record {slots : List (Slot Form)} {given kept added revised : List (String × Json)}
      (hkept : RevisedMembers slots given kept) (horder : revised.Perm (kept ++ added))
      (hadded : Unknown (slots.map Slot.name) added) :
      Revised (.record slots) (.obj given) (.obj revised)
  | tagged {family : Family} {word : String} {slots : List (Slot Form)}
      {given kept added revised : List (String × Json)}
      (hvariant : (word, slots) ∈ family.variants) (hkept : RevisedMembers slots given kept)
      (horder : revised.Perm ((tagName, .str word) :: (kept ++ added)))
      (hadded : Unknown (tagName :: slots.map Slot.name) added) :
      Revised (.tagged family) (Wire.tagged word given) (.obj revised)

/-- Each item of a list was revised. -/
inductive RevisedItems : Form → List Json → List Json → Prop
  | nil (form : Form) : RevisedItems form [] []
  | cons {form : Form} {item other : Json} {items revised : List Json}
      (hitem : Revised form item other) (hrest : RevisedItems form items revised) :
      RevisedItems form (item :: items) (other :: revised)

/-- What became of the known members, in their order. -/
inductive RevisedMembers : List (Slot Form) → List (String × Json) → List (String × Json) → Prop
  | nil : RevisedMembers [] [] []
  | kept {slot : Slot Form} {slots : List (Slot Form)} {value other : Json}
      {given kept : List (String × Json)} (hvalue : Revised slot.form value other)
      (hrest : RevisedMembers slots given kept) :
      RevisedMembers (slot :: slots) ((slot.name, value) :: given) ((slot.name, other) :: kept)
  | absent {slot : Slot Form} {slots : List (Slot Form)} {given kept : List (String × Json)}
      (hrest : RevisedMembers slots given kept) : RevisedMembers (slot :: slots) given kept
  | asNull {slot : Slot Form} {slots : List (Slot Form)} {given kept : List (String × Json)}
      (hoptional : slot.presence = .optional) (hrest : RevisedMembers slots given kept) :
      RevisedMembers (slot :: slots) given ((slot.name, .null) :: kept)
  | leftOut {slot : Slot Form} {slots : List (Slot Form)} {usual : Json}
      {given kept : List (String × Json)} (husual : slot.presence = .spared usual)
      (hrest : RevisedMembers slots given kept) :
      RevisedMembers (slot :: slots) ((slot.name, usual) :: given) kept

end

end ProgramQueue.Wire
