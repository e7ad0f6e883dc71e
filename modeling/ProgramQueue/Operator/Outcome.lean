import ProgramQueue.Operator.Commands
import ProgramQueue.Operator.Invocation

/-!
# What a run of the tool comes to

The arguments are read, the root is found, and one command is performed.  A run
ends with a code: zero if all went well, one if the command failed, and two if
the arguments make no sense.
-/

namespace ProgramQueue.Operator

/-- What a run of the tool leaves behind for the operator. -/
structure Outcome where
  code : Nat
  out : String
  err : String
deriving DecidableEq, Repr

namespace Outcome

def ofReport (report : Report) : Outcome :=
  match report.problem with
  | none => ⟨0, report.text, ""⟩
  | some problem => ⟨1, report.text, s!"error: {problem.message}\n"⟩

end Outcome

/-- The circumstances in which the tool is started. -/
structure Caller where
  owner : String
  workingFolder : String
  /-- The root that is taken if none is named. -/
  usualRoot : Option String
deriving DecidableEq, Repr

/-! ## The root -/

/-- The first of some folders that holds a folder with a name. -/
def firstHolding (name : String) : List String → Task Workspace (Option String)
  | [] => return none
  | folder :: rest => do
      if ← Workspace.request (.isFolder (Location.join folder name)) then
        return some folder
      else firstHolding name rest

/-- The nearest folder upward that holds a queue, else the nearest that holds a
repository, else the folder itself. -/
def findRoot (folder : String) : Task Workspace String := do
  let above := Location.upward folder
  match ← firstHolding Config.folder above with
  | some root => return root
  | none =>
      let root ← firstHolding ".git" above
      return root.getD folder

def rootOf (caller : Caller) (invocation : Invocation) : Task Workspace String :=
  match invocation.root with
  | some root => return root
  | none => findRoot caller.workingFolder

/-! ## Commands -/

/-- Performs a command on the open queue below a root. -/
def onQueue (caller : Caller) (root : String)
    (command : OpenQueue → Attempt String) : Task Workspace Report :=
  Report.ofAttempt (OpenQueue.below root caller.owner >>= command)

def performAt (caller : Caller) (root : String) (json : Bool) :
    Command → Task Workspace Report
  | .init => setUp root
  | .list => onQueue caller root fun opened => listPrograms opened json
  | .showProgram id => onQueue caller root fun opened => showProgram opened id json
  | .cancel id => onQueue caller root fun opened => cancelProgram opened id json
  | .remove id => onQueue caller root fun opened => removeProgram opened id json
  | .prune => onQueue caller root fun opened => pruneDone opened json
  | .recover => onQueue caller root fun opened => recoverClaims opened json
  | .sync => onQueue caller root fun opened => syncDevice opened json
  | .showConfig => Report.ofAttempt (showConfig root json)
  | .validateConfig => validateConfig root json

def perform (caller : Caller) (invocation : Invocation) : Task Workspace Report := do
  let root ← rootOf caller invocation
  performAt caller root invocation.json invocation.command

def usageLines : List String :=
  ["Usage: aq [--root FOLDER] [-j|--json] COMMAND",
    "",
    "Commands:",
    "  init             create .aq/config.yaml with the usual settings",
    "  list             list stored programs",
    "  show ID          show one program",
    "  cancel ID        stop a program and withdraw its push events",
    "  remove ID        delete a program that is over",
    "  prune            delete every program that is over",
    "  recover          drop claims of runners that died",
    "  sync             register the device and what all programs wait for",
    "  config show      print the configuration with all settings",
    "  config validate  look for mistakes in the configuration"]

def version : String := "0.1.0"

def run (caller : Caller) (arguments : List String) : Task Workspace Outcome := do
  match Invocation.parse? caller.usualRoot arguments with
  | none => return ⟨2, "", Report.lines usageLines⟩
  | some .usage => return ⟨0, Report.lines usageLines, ""⟩
  | some (.version name) => return ⟨0, Report.lines [name ++ " " ++ version], ""⟩
  | some (.perform invocation) => return .ofReport (← perform caller invocation)

end ProgramQueue.Operator
