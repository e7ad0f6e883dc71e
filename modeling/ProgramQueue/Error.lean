import ProgramQueue.Outside
import ProgramQueue.Push.RequestError

/-!
# Errors of the queue

Each cause is a constructor; the wording is in one place.
-/

namespace ProgramQueue

inductive Error where
  | notInitialized
  | config (reason : String)
  | programNotFound (id : String)
  | programExists (id : String)
  | programBusy (id : String)
  | programActive (id : String)
  /-- The effect cannot be watched by the push server. -/
  | unsupportedEffect (typeName : String)
  /-- The action cannot be carried out by the push server. -/
  | unsupportedAction (typeName : String)
  | collaborator (error : CollaboratorError)
  | store (reason : String)
  | push (error : Push.RequestError)
  /-- A file cannot be read or written. -/
  | files (reason : String)
  /-- A configuration file cannot be understood. -/
  | yaml (reason : String)
  /-- A record or a text cannot be understood. -/
  | json (reason : String)
deriving DecidableEq, Repr

namespace Error

def message : Error → String
  | notInitialized => "not initialized: run 'aq init'"
  | config reason => s!"invalid configuration: {reason}"
  | programNotFound id => s!"program not found: {id}"
  | programExists id => s!"program id already used: {id}"
  | programBusy id => s!"program is busy: {id}"
  | programActive id => s!"program is still running: {id} (cancel it first)"
  | unsupportedEffect typeName =>
      s!"unsupported effect type '{typeName}' in conversion to push trigger"
  | unsupportedAction typeName =>
      s!"unsupported action type '{typeName}' for push event params"
  | collaborator error => error.message
  | store reason => s!"program store error: {reason}"
  | push error => error.message
  | files reason => reason
  | yaml reason => reason
  | json reason => reason

/-- The program cannot be expressed as events; trying again never helps. -/
def isConfiguration : Error → Bool
  | unsupportedEffect _ => true
  | unsupportedAction _ => true
  | _ => false

/-- A stored record that nests too deep to be read, from a column on. -/
def tooDeep (column : Nat) : Error :=
  json s!"recursion limit exceeded at line 1 column {column}"

end Error

end ProgramQueue
