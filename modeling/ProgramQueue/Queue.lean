import ProgramQueue.Interpreter
import ProgramQueue.Plan
import ProgramQueue.Push.Interest
import ProgramQueue.Queue.Requests

/-!
# The queue

The queue runs stored programs and keeps the push server informed of what they
wait for.  A program is run by one task at a time: the task has the lock of its
process and a claim in the store.  The state is stored before anything is
registered with the push server, so that what is lost by a crash in between is
only the registration.
-/

namespace ProgramQueue

/-- How a queue runs programs. -/
structure Settings where
  /-- The name under which this queue holds programs. -/
  owner : String
  /-- The most advances in one run. -/
  maxSteps : Nat
  /-- After so many seconds the claim of someone else counts as abandoned. -/
  lockTtl : Nat
  /-- The text that is shown when an event fires. -/
  pushMessage : Option String
  /-- The longest delay, in milliseconds, that is waited out on the spot. -/
  inlineCap : Nat
deriving Repr

/-- What a device is registered with. -/
structure DeviceIdentity where
  deviceToken : String
  rootLoginIds : List (List UInt8)
deriving DecidableEq, Repr

namespace Queue

/-! ## Holding a program -/

/-- Runs a task while it holds a program.  The claim is dropped before the lock
is, and both whatever the task came to. -/
def holding {α : Type} (settings : Settings) (id : String)
    (task : Operation (Except Error α)) : Operation (Except Error α) := do
  lock id
  let now ← wallClock
  match ← store (.tryClaim id settings.owner now settings.lockTtl) with
  | .ok true =>
      let result ← task
      store (.release id settings.owner)
      unlock id
      return result
  | .ok false =>
      unlock id
      return .error (.programBusy id)
  | .error e =>
      unlock id
      return .error e

/-- The stored item of a program that has to be there. -/
def getExisting (id : String) : Attempt Item := do
  match ← attempt (store (.get id)) with
  | some item => return item
  | none => throw (.programNotFound id)

def save (state : State) : Attempt Unit := attempt (store (.save state))

def clock : Operation Int64 := outside Outside.clock

/-! ## Events -/

/-- Withdraws all events of a program, whether or not the server hears of it. -/
def retireEvents (state : State) : Operation State := do
  if state.pushEventIds.isEmpty then return state
  else
    let _ ← push (.updateLogin ⟨[], state.pushEventIds⟩)
    return { state with pushEventIds := [] }

/-- The events for all conditions of a program that the server can watch. -/
def planEvents (settings : Settings) (program : Program) (effect : Effect) :
    Operation (Except Error (List Push.Event)) := do
  let remote := (program.plannedResults effect).filter (·.effect.isTriggerable)
  let events ← outside (Push.prepareEvents program.id remote).run
  return events.map fun events =>
    events.map fun event => { event with pushMessage := settings.pushMessage }

/-- The time at which a condition that the server cannot watch is looked at. -/
def localCheckTime (now : Int64) : Effect → Int64
  | .await (.unixtime timestamp) => timestamp
  | _ => now

/-- When to look at a program again: at the first time that a local condition
asks for; never, if all is watched by the server; at once, if nothing is waited
for yet. -/
def nextRunTime (now : Int64) (planned : List ExecutionResult) : Int64 :=
  let here := planned.filter fun result => !result.effect.isTriggerable
  match (here.map fun result => localCheckTime now result.effect).min? with
  | some time => time
  | none => if planned.any (·.effect.isTriggerable) then never else now

/-- What has to be told to the server so that exactly the wanted events are
registered. -/
def registrationUpdate (registered : List String) (events : List Push.Event) :
    Push.LoginUpdate where
  events := events.filter fun event => !registered.contains event.eventId
  removeEvents :=
    registered.filter fun id => !(events.map (·.eventId)).contains id

/-- Registers what a program waits for.  If the server cannot be told, the
program is looked at again at once. -/
def registerTriggers (settings : Settings) (program : Program) (state : State) :
    Attempt State := do
  let now ← ExceptT.lift clock
  let planned := program.plannedResults state.current
  match ← ExceptT.lift (planEvents settings program state.current) with
  | .error e =>
      if e.isConfiguration then throw e
      else return { state with nextRun := now }
  | .ok events =>
      let registered := { state with
        pushEventIds := events.map (·.eventId)
        nextRun := nextRunTime now planned }
      let update := registrationUpdate state.pushEventIds events
      if update.isEmpty then return registered
      else
        match ← ExceptT.lift (push (.updateLogin update)) with
        | .error _ => return { state with nextRun := now }
        | .ok () => return registered

/-! ## One run -/

/-- The text that is shown when a program has completed. -/
def CompleteMessage.text (complete : CompleteMessage) : String :=
  complete.title ++ ": " ++ complete.message

/-- Closes a program that is over: no more runs, no more events, and a message
if it succeeded and has one. -/
def finish (program : Program) (state : State) : Operation State := do
  let state ← retireEvents { state with nextRun := never }
  match state.current.failure?, program.completeMessage with
  | none, some complete =>
      let _ ← outside (Outside.toast (CompleteMessage.text complete)).run
      return state
  | _, _ => return state

/-- The state without an event that has fired and is spent on the server. -/
def spendEvent (fired : Option String) (state : State) : State :=
  match fired with
  | none => state
  | some id => { state with pushEventIds := state.pushEventIds.filter (· != id) }

/-- One run of a program that is held. -/
def runHeld (settings : Settings) (id : String) (fired : Option String) :
    Attempt State := do
  let item ← getExisting id
  if item.state.isDone then return item.state
  else
    ExceptT.lift (note (.step id fired))
    let driven ← ExceptT.lift <| journaled <|
      item.program.driveJournaled settings.inlineCap settings.maxSteps
        (spendEvent fired item.state)
    let now ← ExceptT.lift clock
    let state := { driven with lastRun := now }
    save state
    let state ←
      if state.isDone then ExceptT.lift (finish item.program state)
      else registerTriggers settings item.program state
    save state
    return state

def terminateHeld (id : String) (failure : Failure) : Attempt State := do
  let item ← getExisting id
  if item.state.isDone then return item.state
  else
    ExceptT.lift (note (.terminate id failure))
    let state := { item.state with
      effect := some (.failed failure), nextRun := never }
    save state
    let state ← ExceptT.lift (retireEvents state)
    save state
    return state

/-! ## Operations -/

def run (settings : Settings) (id : String) : Operation (Except Error State) :=
  holding settings id (runHeld settings id none).run

/-- Stores a new program and runs it as far as it goes. -/
def schedule (settings : Settings) (program : Program) :
    Operation (Except Error State) := do
  match ← store (.insert program) with
  | .error e => return .error e
  | .ok _ => run settings program.id

/-- Stops a program with a failure. -/
def terminate (settings : Settings) (id : String) (failure : Failure) :
    Operation (Except Error State) :=
  holding settings id (terminateHeld id failure).run

/-- The failure of a program that the user cancelled. -/
def cancellation : Failure := ⟨.cancelled, "cancelled by user"⟩

/-- Stops a program.  An event of it that still fires is ignored. -/
def cancel (settings : Settings) (id : String) : Operation (Except Error State) :=
  terminate settings id cancellation

/-- Runs a program because one of its events fired.  Nothing happens if the
program is unknown, over, or being run already. -/
def onTriggerFired (settings : Settings) (eventId : String) :
    Operation (Except Error (Option State)) := do
  match Push.programIdOf? eventId with
  | none => return .ok none
  | some id =>
      match ← store (.get id) with
      | .error e => return .error e
      | .ok none => return .ok none
      | .ok (some item) =>
          if item.state.isDone then return .ok none
          else
            match ← holding settings id (runHeld settings id (some eventId)).run with
            | .ok state => return .ok (some state)
            | .error (.programBusy _) => return .ok none
            | .error (.programNotFound _) => return .ok none
            | .error e => return .error e

/-- The failure of a program whose transaction the server could not submit. -/
def broadcastFailure (eventId : String) (errors : List String) : Failure :=
  ⟨.execution, s!"push server failed to broadcast for {eventId}: " ++
    String.intercalate "; " errors⟩

/-- Handles one event that the server reports as fired; answers with the state
of the program if it was resumed or stopped. -/
def handleStatus (settings : Settings) (status : Push.EventStatus) :
    Attempt (Option State) := do
  if status.state != .triggered then return none
  match Push.programIdOf? status.eventId with
  | none => return none
  | some id =>
      match ← attempt (store (.get id)) with
      | none => return none
      | some item =>
          if item.state.isDone || !item.state.pushEventIds.contains status.eventId then
            return none
          else if status.broadcastErrors.isEmpty then
            match ← ExceptT.lift (onTriggerFired settings status.eventId) with
            | .ok state => return state
            | .error _ => return none
          else
            let failure := broadcastFailure status.eventId status.broadcastErrors
            match ← ExceptT.lift (terminate settings id failure) with
            | .ok state => return some state
            | .error _ => return none

/-- Handles reported events in order and collects the states. -/
def handleStatuses (settings : Settings) :
    List Push.EventStatus → Attempt (List State)
  | [] => return []
  | status :: rest => do
      let state ← handleStatus settings status
      let states ← handleStatuses settings rest
      return state.toList ++ states

/-- Asks the server which events have fired and resumes their programs. -/
def pollPushEvents (settings : Settings) : Operation (Except Error (List State)) := do
  match ← push .loginEvents with
  | .error e => return .error (.push e)
  | .ok login => (handleStatuses settings login.events).run

/-- Runs programs in order and collects the states of those that could be run. -/
def runEach (settings : Settings) : List String → Operation (List State)
  | [] => return []
  | id :: rest => do
      let result ← run settings id
      let states ← runEach settings rest
      match result with
      | .ok state => return state :: states
      | .error _ => return states

/-- A program that is to be run in the foreground: it is due, or it was never
run. -/
def isDueItem (now : Int64) (item : Item) : Bool :=
  item.state.isDue now || item.state.effect.isNone

/-- The ids in ascending order. -/
def sortedIds (ids : List String) : List String := ids.mergeSort fun a b => a ≤ b

/-- Runs every program that is due or was never run. -/
def resumeDue (settings : Settings) : Operation (Except Error (List State)) := do
  let now ← clock
  match ← store .list with
  | .error e => return .error e
  | .ok entries =>
      let due := entries.filter fun entry => isDueItem now entry.2
      let states ← runEach settings (sortedIds (due.map (·.2.program.id)))
      return .ok states

/-- Deletes a program that is over while no other task of this process has it. -/
def removeLocked (id : String) : Attempt Item := do
  let item ← getExisting id
  if item.state.isDone then attempt (store (.remove id))
  else throw (.programActive id)

def remove (id : String) : Operation (Except Error Item) := do
  lock id
  let result ← (removeLocked id).run
  unlock id
  return result

/-- Deletes programs in order, up to the first that cannot be deleted. -/
def removeEach : List String → Operation (Except Error Unit)
  | [] => return .ok ()
  | id :: rest => do
      match ← remove id with
      | .error e => return .error e
      | .ok _ => removeEach rest

/-- Deletes every program that is over and answers with the ids. -/
def prune : Operation (Except Error (List String)) := do
  match ← store .list with
  | .error e => return .error e
  | .ok entries =>
      let done := entries.filter fun entry => entry.2.state.isDone
      let ids := sortedIds (done.map (·.2.program.id))
      let result ← removeEach ids
      return result.map fun _ => ids

/-- Drops the claims of runners that died. -/
def recover (settings : Settings) : Operation (Except Error Nat) := do
  let now ← wallClock
  store (.recoverStale now settings.lockTtl)

/-- Plans the events of each program that is not over; one whose events cannot
be planned is passed over. -/
def planAll (settings : Settings) :
    List (String × Item) → Operation (List (String × List Push.Event))
  | [] => return []
  | (_, item) :: rest => do
      if item.state.isDone then planAll settings rest
      else
        let planned ← planEvents settings item.program item.state.current
        let others ← planAll settings rest
        match planned with
        | .ok events => return (item.program.id, events) :: others
        | .error _ => return others

/-- Records for each program the events that were sent. -/
def recordEvents : List (String × List Push.Event) → Operation (Except Error Unit)
  | [] => return .ok ()
  | (id, events) :: rest => do
      let ids := events.map (·.eventId)
      match ← store (.update id fun state => { state with pushEventIds := ids }) with
      | .error e => return .error e
      | .ok _ => recordEvents rest

/-- Sends the identity of the device with the events of all programs. -/
def registerDevice (settings : Settings) (identity : DeviceIdentity) :
    Operation (Except Error Push.Device) := do
  match ← store .list with
  | .error e => return .error e
  | .ok entries =>
      let planned ← planAll settings entries
      let update : Push.DeviceUpdate :=
        { rootLoginIds := identity.rootLoginIds.map Push.encodeLoginId
          events := planned.flatMap (·.2)
          deviceToken := identity.deviceToken }
      match ← push (.updateDevice update) with
      | .error e => return .error (.push e)
      | .ok device =>
          let result ← recordEvents planned
          return result.map fun _ => device

end Queue

end ProgramQueue
