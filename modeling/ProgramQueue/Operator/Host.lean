import ProgramQueue.Operator.Files
import ProgramQueue.Operator.Workspace

/-!
# Running commands in memory

A host answers what the tool asks of the network and the clock; files, folders
and stores are kept in memory.  The journal shows in the requests of a run.
-/

namespace ProgramQueue.Operator

/-- The world outside of the tool and its files. -/
structure Host (σ : Type) where
  network : World Push.Network σ
  clock : σ → Int × σ

/-- Files together with the state of the world outside. -/
structure Site (σ : Type) where
  /-- The folder that the tool was started in. -/
  folder : Place
  files : Files
  outer : σ

variable {σ : Type}

namespace Site

/-- The answer to a change of the files, which are as they were if it is
refused. -/
def change (site : Site σ) (result : Except Error Files) :
    Except Error Unit × Site σ :=
  match result with
  | .error e => (.error e, site)
  | .ok files => (.ok (), { site with files })

/-- There is something at a location that a test accepts. -/
def test (site : Site σ) (location : String) (accept : Files → Place → Bool) : Bool :=
  match site.files.locate site.folder location with
  | .error _ => false
  | .ok place => accept site.files place

def transact (site : Site σ) (location : String) (request : Store.Request) :
    request.Answer × Site σ :=
  let store := site.files.storeAt site.folder location
  let (answer, store) := Store.respond request store
  (answer, { site with files := site.files.putStore site.folder location store })

end Site

def Host.respond (host : Host σ) :
    (request : WorkspaceRequest) → Site σ → request.Answer × Site σ
  | .isThere location, site => (site.test location Files.has, site)
  | .isFolder location, site => (site.test location Files.hasFolder, site)
  | .readText location, site => (site.files.readText site.folder location, site)
  | .makeFolder location, site =>
      site.change (site.files.makeFolder site.folder location)
  | .writeText location text, site =>
      site.change (site.files.writeText site.folder location text)
  | .openStore location, site =>
      site.change (site.files.openStore site.folder location)
  | .store location request, site => site.transact location request
  | .network request, site =>
      let (answer, outer) := host.network.respond request site.outer
      (answer, { site with outer })
  | .clock, site =>
      let (now, outer) := host.clock site.outer
      (now, { site with outer })
  | .note _, site => ((), site)

def Host.world (host : Host σ) : World Workspace (Site σ) := ⟨host.respond⟩

end ProgramQueue.Operator
