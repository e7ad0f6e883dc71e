import ProgramQueue.Error
import ProgramQueue.Path
import ProgramQueue.Program
import ProgramQueue.Push.Event

/-!
# What a program wants the push server to watch

Each outstanding leaf becomes an event.  Its id names the program and the place
of the leaf, so the program can be found again when the event fires.
-/

namespace ProgramQueue.Push

/-- The id of the event for a place in a program. -/
def eventId (programId callStackId : String) : String :=
  if callStackId.isEmpty then programId ++ ":root"
  else programId ++ ":" ++ callStackId

/-- The program that an event id belongs to: what stands before its last colon. -/
def programIdOf? (id : String) : Option String :=
  match id.toList.reverse.dropWhile (· ≠ ':') with
  | [] => none
  | _ :: reversed => some (String.ofList reversed.reverse)

/-- A task that asks collaborators and stops at the first error. -/
abbrev Preparing (α : Type) := ExceptT Error (Task Outside) α

def pluginOf (walletId : String) : Preparing String := do
  let info ← ExceptT.adapt Error.collaborator (Outside.walletInfo walletId)
  return info.pluginId

/-- The trigger that watches what a leaf waits for.  A deadline cannot be
watched, and neither can anything that is no leaf. -/
def triggerOf : Effect → Preparing Trigger
  | .await (.addressBalance address walletId tokenId above below) => do
      return .addressBalance (← pluginOf walletId) tokenId address above below
  | .await (.txConfs txId walletId confirmations) => do
      return .txConfirm (← pluginOf walletId) confirmations txId
  | .await (.priceLevel pair above below) => return .priceLevel pair above below
  | other => throw (.unsupportedEffect other.typeName)

/-- The transactions that the server submits for an action; no other action can
be left to it. -/
def broadcastTxsOf : Action → Except Error (List BroadcastTx)
  | .step (.broadcast transaction) _ =>
      .ok [⟨transaction.pluginId, transaction.rawTx⟩]
  | other => .error (.unsupportedAction other.typeName)

/-- What comes back when an event fires: the program and the event. -/
def payloadOf (programId id : String) : Json :=
  .obj [("eventId", .str id), ("programId", .str programId)]

/-- The event for a leaf at a place. -/
def prepareLeaf (programId : String) (txs : List BroadcastTx) (place : String)
    (leaf : Effect) : Preparing Event := do
  let trigger ← triggerOf leaf
  let id := eventId programId place
  return {
    eventId := id
    trigger := trigger
    triggered := false
    pushMessage := none
    pushPayload := some (payloadOf programId id)
    broadcastTxs := txs }

/-- The events for leaves with their places below another place. -/
def prepareLeaves (programId : String) (txs : List BroadcastTx) (place : String) :
    List (Path × Effect) → Preparing (List Event)
  | [] => return []
  | (path, leaf) :: rest => do
      let event ← prepareLeaf programId txs (Path.join place path.text) leaf
      let events ← prepareLeaves programId txs place rest
      return event :: events

/-- The events for some results.  The first one that cannot be expressed stops
the whole, so nothing is registered by halves. -/
def prepareEvents (programId : String) :
    List ExecutionResult → Preparing (List Event)
  | [] => return []
  | result :: rest => do
      let txs ← match result.action with
        | some action => ExceptT.mk (.done (broadcastTxsOf action))
        | none => pure []
      let events ←
        prepareLeaves programId txs result.callStackId result.effect.pendingLeaves
      let others ← prepareEvents programId rest
      return events ++ others

end ProgramQueue.Push
