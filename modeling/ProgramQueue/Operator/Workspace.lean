import ProgramQueue.Error
import ProgramQueue.Push.Client
import ProgramQueue.Queue.Requests

/-!
# What the operator's tool asks for

The tool works on files and folders, on the stores that are kept in files, and
over the network, and it writes into the journal what happens to programs.
Locations that do not start with a slash are seen from the folder that the tool
was started in.
-/

namespace ProgramQueue

/-- A request of the tool. -/
inductive WorkspaceRequest where
  /-- Is there a file or folder? -/
  | isThere (location : String)
  | isFolder (location : String)
  | readText (location : String)
  | makeFolder (location : String)
  | writeText (location text : String)
  /-- Opens the store in a file, which is made if it is missing. -/
  | openStore (location : String)
  | store (location : String) (request : Store.Request)
  | network (request : Push.NetworkRequest)
  | clock
  /-- An entry of the journal. -/
  | note (entry : Note)

abbrev WorkspaceRequest.Answer : WorkspaceRequest → Type
  | isThere _ => Bool
  | isFolder _ => Bool
  | readText _ => Except Error String
  | makeFolder _ => Except Error Unit
  | writeText _ _ => Except Error Unit
  | openStore _ => Except Error Unit
  | store _ request => request.Answer
  | network request => request.Answer
  | clock => Int
  | note _ => Unit

/-- The surroundings of the tool. -/
abbrev Workspace : Interface where
  Request := WorkspaceRequest
  Answer := WorkspaceRequest.Answer

namespace Workspace

def request (r : WorkspaceRequest) : Task Workspace r.Answer :=
  Task.request (I := Workspace) r

/-- A task over the network as a task of the tool. -/
def overNetwork {α : Type} (task : Task Push.Network α) : Task Workspace α :=
  task.relay (J := Workspace) WorkspaceRequest.network fun _ answer => answer

end Workspace

end ProgramQueue
