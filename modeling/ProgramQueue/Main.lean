import ProgramQueue.Identifier
import ProgramQueue.Operator.Outcome
import ProgramQueue.Store.Text
import Std.Time.DateTime.Timestamp

/-!
# The tool

The tool answers its own requests with the files, the environment and the clock
of the machine.  It has no way to reach other machines: every message to the
push server is refused as if nobody listened.  The journal is not kept.
-/

namespace ProgramQueue.Tool

def filing {α : Type} (act : IO α) : IO (Except Error α) := do
  try return .ok (← act)
  catch e => return .error (.files (toString e))

/-- The refusal of a file that cannot be used as a store. -/
def notStore (reason : String) : Error := .store reason

/-- Reads the store in a file; a missing or empty file is a store without
programs. -/
def readStore (location : String) : IO (Except Error Store) := do
  let path := (← IO.currentDir) / location
  if !(← path.pathExists) then return .ok .empty
  match ← filing (IO.FS.readFile path) with
  | .error e => return .error (notStore e.message)
  | .ok text =>
      if text.isEmpty then return .ok .empty
      else
        match Store.parse? text with
        | some store => return .ok store
        | none => return .error (notStore "the file holds no store")

/-- Writes the store in a file, first beside it and then in its place. -/
def writeStore (location : String) (store : Store) : IO Unit := do
  let path := (← IO.currentDir) / location
  let beside := path.addExtension "new"
  IO.FS.writeFile beside store.print
  IO.FS.rename beside path

def respond : (request : WorkspaceRequest) → IO request.Answer
  | .isThere location => do ((← IO.currentDir) / location).pathExists
  | .isFolder location => do ((← IO.currentDir) / location).isDir
  | .readText location => filing (IO.FS.readFile location)
  | .makeFolder location => filing (IO.FS.createDirAll location)
  | .writeText location text => filing (IO.FS.writeFile location text)
  | .openStore location => do
      match ← readStore location with
      | .error e => return .error e
      | .ok store =>
          match ← filing (writeStore location store) with
          | .error e => return .error (notStore e.message)
          | .ok () => return .ok ()
  | .store location request => do
      match ← readStore location with
      | .error e => throw (IO.userError e.message)
      | .ok store =>
          let (answer, store) := Store.respond request store
          writeStore location store
          return answer
  | .network (.attempt message) =>
      return match message.address with
        | .error failure => .error failure
        | .ok _ => .error .refused
  | .network (.pause ms) => IO.sleep (UInt32.ofNat ms)
  | .clock => return (← Std.Time.Timestamp.now).toMillisecondsSinceUnixEpoch.toInt
  | .note _ => return ()

def run {α : Type} : Task Workspace α → IO α
  | .done value => return value
  | .ask request next => do run (next (← respond request))

def caller : IO Operator.Caller := do
  let bytes ← IO.getRandomBytes 16
  return {
    owner := "aq-" ++ Identifier.ofBytes bytes.toList
    workingFolder := (← IO.currentDir).toString
    usualRoot := ← IO.getEnv "AQ_ROOT" }

end ProgramQueue.Tool

def main (arguments : List String) : IO UInt32 := do
  let outcome ← ProgramQueue.Tool.run
    (ProgramQueue.Operator.run (← ProgramQueue.Tool.caller) arguments)
  IO.print outcome.out
  IO.eprint outcome.err
  return UInt32.ofNat outcome.code
