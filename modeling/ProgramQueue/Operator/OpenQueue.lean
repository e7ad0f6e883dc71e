import ProgramQueue.Config
import ProgramQueue.Operator.Offline
import ProgramQueue.Operator.Problem
import ProgramQueue.Operator.Workspace

/-!
# The queue as the tool opens it

The configuration below the root says where the store is and how the push server
is reached.  An operation of the queue is then carried out with the tool's own
collaborators, which know wallets but have no engine for them.
-/

namespace ProgramQueue.Operator

/-- A part of a command that stops at the first problem. -/
abbrev Attempt (α : Type) := ExceptT Problem (Task Workspace) α

/-- A request that cannot fail. -/
def ask (r : WorkspaceRequest) : Attempt r.Answer := ExceptT.lift (Workspace.request r)

/-- The result of a task whose error is a problem of the command. -/
def orProblem {α : Type} (problem : Error → Problem)
    (task : Task Workspace (Except Error α)) : Attempt α :=
  ExceptT.mk do return (← task).mapError problem

def loadConfig (root : String) : Attempt Config := do
  let location := Location.join root Config.file
  if ← ask (.isThere location) then
    let text ← orProblem .loading (Workspace.request (.readText location))
    orProblem .loading (return Config.load (some text))
  else throw (.loading .notInitialized)

/-- A configuration with the store and the client that it describes. -/
structure OpenQueue where
  config : Config
  location : String
  client : Push.Client
  owner : String

namespace OpenQueue

def below (root owner : String) : Attempt OpenQueue := do
  let config ← loadConfig root
  let location := config.storeLocation root
  orProblem (.opening location) (Workspace.request (.openStore location))
  match Push.Client.ofConfig config.clientConfig with
  | .error e => throw (.client e)
  | .ok client => return { config, location, client, owner }

variable (opened : OpenQueue)

def settings : Settings := opened.config.settings opened.owner

def askServer : (request : Push.Request) → Task Workspace request.Answer
  | .updateDevice update => Workspace.overNetwork (opened.client.updateDevice update)
  | .updateLogin update => Workspace.overNetwork (opened.client.updateLogin update)
  | .loginEvents => Workspace.overNetwork opened.client.loginEvents

def askOutside (query : Query) : Task Workspace query.Answer := do
  let now ← Workspace.request .clock
  return answerOffline opened.config.wallets.find? (Int64.ofInt now) query

/-- Answers one request of an operation.  The tool runs one operation at a time,
so all locks are free. -/
def respond : (request : Queue.Request) → Task Workspace request.Answer
  | .outside query => opened.askOutside query
  | .push request => opened.askServer request
  | .wallClock => Workspace.request .clock
  | .store request => Workspace.request (.store opened.location request)
  | .lock _ => .done ()
  | .unlock _ => .done ()
  | .note entry => Workspace.request (.note entry)

/-- Carries out an operation of the queue. -/
def carryOut {α : Type} (operation : Queue.Operation (Except Error α)) : Attempt α :=
  orProblem .refused (operation.through opened.respond)

end OpenQueue

end ProgramQueue.Operator
