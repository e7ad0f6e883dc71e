import ProgramQueue.Operator.Columns
import ProgramQueue.Operator.OpenQueue
import ProgramQueue.Operator.Summary

/-!
# The operator's commands

Each command works on the queue below a root and reports in lines or in JSON.
None of them starts a step of a program or looks whether a condition holds.
-/

namespace ProgramQueue.Operator

/-- What a command has to say, and why it failed if it did. -/
structure Report where
  text : String
  problem : Option Problem
deriving DecidableEq, Repr

namespace Report

def lines (lines : List String) : String := String.join (lines.map (· ++ "\n"))

def json (json : Json) : String := json.pretty ++ "\n"

/-- The report of a command that says nothing unless it succeeds. -/
def ofAttempt (attempt : Attempt String) : Task Workspace Report := do
  match ← attempt.run with
  | .ok text => return ⟨text, none⟩
  | .error problem => return ⟨"", some problem⟩

end Report

/-! ## The configuration -/

/-- Makes sure that there is a configuration; answers whether it was made. -/
def makeConfig (root : String) : Attempt Bool := do
  let folder := Location.join root Config.folder
  let file := Location.join root Config.file
  orProblem (.folder folder) (Workspace.request (.makeFolder folder))
  if ← ask (.isThere file) then return false
  else
    orProblem .writing (Workspace.request (.writeText file Config.usual.print))
    return true

def setUp (root : String) : Task Workspace Report := do
  let first := s!"Initializing action queue in: {root}"
  match ← (makeConfig root).run with
  | .ok true => return ⟨Report.lines [first, s!"  created: {Config.file}"], none⟩
  | .ok false => return ⟨Report.lines [first, s!"  exists:  {Config.file}"], none⟩
  | .error problem => return ⟨Report.lines [first], some problem⟩

def showConfig (root : String) (json : Bool) : Attempt String := do
  let config ← loadConfig root
  return if json then Report.json config.toJson else config.print

/-- The report on the mistakes in a configuration. -/
def findingsReport (findings : List Config.Finding) (json : Bool) : Report where
  text :=
    if json then
      Report.json (.obj [("warnings", .arr (findings.map Config.Finding.toJson))])
    else if findings.isEmpty then Report.lines ["Config is valid. No warnings."]
    else
      Report.lines (findings.map fun finding =>
        "[" ++ finding.level ++ "] " ++ finding.message)
  problem := if findings.any Config.Finding.isError then some .mistakes else none

def validateConfig (root : String) (json : Bool) : Task Workspace Report := do
  match ← (loadConfig root).run with
  | .ok config => return findingsReport config.validate json
  | .error problem => return ⟨"", some problem⟩

/-! ## Programs -/

def summaryRow (item : Item) : List String :=
  [item.program.id, item.program.action.typeName, statusText item.state,
    waitingText item.state, toString item.state.pushEventIds.length,
    timeText item.state.nextRun]

def summaryHeaders : List String :=
  ["PROGRAM", "ACTION", "STATUS", "WAITING ON", "EVENTS", "NEXT RUN"]

/-- The summary of a program as a JSON tree. -/
def summaryJson (item : Item) : Json :=
  .obj [("programId", .str item.program.id),
    ("action", .str item.program.action.typeName),
    ("status", .str (statusText item.state)),
    ("waitingOn", .str (waitingText item.state)),
    ("pushEventCount", .int item.state.pushEventIds.length),
    ("nextExecutionTime", .int item.state.nextRun.toInt)]

def byProgram (items : List Item) : List Item :=
  items.mergeSort fun a b => a.program.id ≤ b.program.id

def listPrograms (opened : OpenQueue) (json : Bool) : Attempt String := do
  let entries ← opened.carryOut (Queue.store .list)
  let items := byProgram (entries.map Prod.snd)
  return if json then Report.json (.arr (items.map summaryJson))
    else if items.isEmpty then Report.lines ["No programs."]
    else Report.lines (Columns.lines summaryHeaders (items.map summaryRow))

def claimLine (claim : Claim) : String :=
  s!"Claimed by: {claim.owner} since {(Calendar.Stamp.ofMs claim.claimedAt).full}"

def itemLines (item : Item) (claim : Option Claim) : List String :=
  let state := item.state
  [s!"Program:    {item.program.id}",
    s!"Status:     {statusText state}",
    s!"Waiting on: {waitingText state}",
    s!"Last run:   {timeText state.lastRun}",
    s!"Next run:   {timeText state.nextRun}"] ++
    (claim.map claimLine).toList ++
    (if state.pushEventIds.isEmpty then []
      else "Push events:" :: state.pushEventIds.map ("  " ++ ·)) ++
    ["", "Actions:", item.program.action.toJson.pretty, "Effect:",
      state.current.toJson.pretty]

def showProgram (opened : OpenQueue) (id : String) (json : Bool) : Attempt String := do
  match ← opened.carryOut (Queue.store (.get id)) with
  | none => throw (.refused (.programNotFound id))
  | some item =>
      if json then return Report.json item.toJson
      else
        let claim ← ask (.store opened.location (.claim id))
        return Report.lines (itemLines item claim)

def cancelProgram (opened : OpenQueue) (id : String) (json : Bool) : Attempt String := do
  let state ← opened.carryOut (Queue.cancel opened.settings id)
  return if json then Report.json state.toJson
    else Report.lines [id ++ ": " ++ statusText state]

def removedLine (id : String) : String := "removed: " ++ id

def removeProgram (opened : OpenQueue) (id : String) (json : Bool) : Attempt String := do
  let item ← opened.carryOut (Queue.remove id)
  return if json then Report.json item.toJson
    else Report.lines [removedLine item.program.id]

def pruneDone (opened : OpenQueue) (json : Bool) : Attempt String := do
  let ids ← opened.carryOut Queue.prune
  return if json then Report.json (.obj [("removed", .arr (ids.map .str))])
    else if ids.isEmpty then Report.lines ["Nothing to prune."]
    else Report.lines (ids.map removedLine)

def recoverClaims (opened : OpenQueue) (json : Bool) : Attempt String := do
  let count ← opened.carryOut (Queue.recover opened.settings)
  return if json then Report.json (.obj [("recovered", .int count)])
    else Report.lines [s!"Recovered {count} stale claim(s)."]

def syncDevice (opened : OpenQueue) (json : Bool) : Attempt String := do
  match opened.config.deviceIdentity with
  | .error e => throw (.device e)
  | .ok none => throw .noDeviceToken
  | .ok (some identity) =>
      let device ← opened.carryOut (Queue.registerDevice opened.settings identity)
      let triggered := device.events.countP fun event => event.state == .triggered
      return if json then Report.json device.toJson
        else Report.lines
          [s!"Registered device: {device.events.length} event(s) known to the server, " ++
            s!"{triggered} already triggered."]

end ProgramQueue.Operator
