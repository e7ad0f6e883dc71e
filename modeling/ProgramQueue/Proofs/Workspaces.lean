import ProgramQueue.Operator.Host
import ProgramQueue.Operator.Outcome
import ProgramQueue.Proofs.Disciplines

/-!
# The stores of the tool

Most of what the tool asks leaves every record of every store as it is.  Once a store is
open, an operation of the queue that the tool carries out completes in it as it would
anywhere, and nothing else that the files hold is changed.
-/

namespace ProgramQueue

namespace Task

variable {I J : Interface} {σ α β γ ε : Type} {world : World I σ}

/-- In a world a task makes these requests, comes to this value and leaves this state. -/
def Runs (world : World I σ) (task : Task I α) (before : σ) (requests : List I.Request)
    (value : α) (after : σ) : Prop :=
  task.run world before = ⟨value, after, requests⟩

variable {before after : σ} {requests : List I.Request}

theorem runs_run (world : World I σ) (task : Task I α) (before : σ) :
    task.Runs world before (task.run world before).requests (task.run world before).value
      (task.run world before).state := rfl

theorem runs_pure {value result : α} :
    (pure value : Task I α).Runs world before requests result after ↔
      requests = [] ∧ result = value ∧ after = before := by
  constructor
  · intro h
    cases h
    exact ⟨rfl, rfl, rfl⟩
  · rintro ⟨rfl, rfl, rfl⟩
    rfl

theorem runs_ask {request : I.Request} {next : I.Answer request → Task I α} {value : α} :
    (Task.ask request next).Runs world before requests value after ↔
      ∃ later, requests = request :: later ∧ (next (world.respond request before).1).Runs world
        (world.respond request before).2 later value after := by
  constructor
  · intro h
    cases h
    exact ⟨_, rfl, rfl⟩
  · rintro ⟨later, rfl, h⟩
    simp only [Runs, run] at h ⊢
    rw [h]

theorem runs_request {request : I.Request} {answer : I.Answer request} :
    (Task.request request).Runs world before requests answer after ↔
      requests = [request] ∧ world.respond request before = (answer, after) := by
  constructor
  · intro h
    cases h
    exact ⟨rfl, rfl⟩
  · rintro ⟨rfl, h⟩
    simp only [Runs, Task.request, run, h]

theorem runs_bind {task : Task I α} {next : α → Task I β} {result : β} :
    (task >>= next).Runs world before requests result after ↔
      ∃ first value middle later, requests = first ++ later ∧
        task.Runs world before first value middle ∧
        (next value).Runs world middle later result after := by
  induction task generalizing before requests with
  | done value =>
      constructor
      · exact fun h => ⟨[], value, before, requests, rfl, rfl, h⟩
      · rintro ⟨first, _, _, later, rfl, hfirst, h⟩
        obtain ⟨rfl, rfl, rfl⟩ := runs_pure.1 hfirst
        exact h
  | ask request rest ih =>
      constructor
      · intro h
        obtain ⟨_, rfl, hrest⟩ := runs_ask.1 h
        obtain ⟨first, value, middle, later, rfl, hfirst, hlater⟩ := (ih _).1 hrest
        exact ⟨_ :: first, value, middle, later, rfl, runs_ask.2 ⟨first, rfl, hfirst⟩, hlater⟩
      · rintro ⟨_, value, middle, later, rfl, hfirst, hlater⟩
        obtain ⟨first, rfl, hrest⟩ := runs_ask.1 hfirst
        exact runs_ask.2 ⟨_, rfl, (ih _).2 ⟨first, value, middle, later, rfl, hrest, hlater⟩⟩

/-- A part that stops with an error ends the whole there. -/
theorem runs_bindExcept {task : ExceptT ε (Task I) α} {next : α → ExceptT ε (Task I) β}
    {result : Except ε β} :
    (task >>= next).run.Runs world before requests result after ↔
      (∃ e, result = .error e ∧ task.run.Runs world before requests (.error e) after) ∨
      ∃ first value middle later, requests = first ++ later ∧
        task.run.Runs world before first (.ok value) middle ∧
        (next value).run.Runs world middle later result after := by
  change (task.run >>= ExceptT.bindCont next).Runs world before requests result after ↔ _
  rw [runs_bind]
  constructor
  · rintro ⟨first, value, middle, later, rfl, hfirst, hlater⟩
    cases value with
    | error e =>
        obtain ⟨rfl, rfl, rfl⟩ := runs_pure.1 hlater
        exact Or.inl ⟨e, rfl, by rwa [List.append_nil]⟩
    | ok value => exact Or.inr ⟨first, value, middle, later, rfl, hfirst, hlater⟩
  · rintro (⟨e, rfl, h⟩ | ⟨first, value, middle, later, rfl, hfirst, hlater⟩)
    · exact ⟨requests, .error e, after, [], (List.append_nil _).symm, h, rfl⟩
    · exact ⟨first, .ok value, middle, later, rfl, hfirst, hlater⟩

/-- A run makes only requests that are allowed. -/
theorem Within.runs {allowed : I.Request → Prop} {task : Task I α} {value : α}
    (h : task.Within allowed) (hruns : task.Runs world before requests value after) :
    ∀ request ∈ requests, allowed request := by
  induction task generalizing before requests with
  | done result =>
      obtain ⟨rfl, -, -⟩ := runs_pure.1 hruns
      exact List.forall_mem_nil _
  | ask request rest ih =>
      obtain ⟨later, rfl, hrest⟩ := runs_ask.1 hruns
      exact List.forall_mem_cons.2 ⟨h.1, ih _ (h.2 _) hrest⟩

/-- What is kept by every request that is allowed is kept by a run. -/
theorem Within.keeps {allowed : I.Request → Prop} {task : Task I α} {value : α} (read : σ → γ)
    (h : task.Within allowed) (hkeeps : ∀ request, allowed request → ∀ state,
      read (world.respond request state).2 = read state)
    (hruns : task.Runs world before requests value after) : read after = read before := by
  induction task generalizing before requests with
  | done result =>
      obtain ⟨-, -, rfl⟩ := runs_pure.1 hruns
      rfl
  | ask request rest ih =>
      obtain ⟨later, rfl, hrest⟩ := runs_ask.1 hruns
      exact (ih _ (h.2 _) hrest).trans (hkeeps request h.1 before)

end Task

namespace Operator

/-! ## Records in files -/

namespace Files

variable {σ : Type} {files later : Files} {folder place other : Place} {location : String}

/-- The store in the file at a place. -/
def store? (files : Files) (place : Place) : Option Store :=
  match files.content? place with
  | some (.store store) => some store
  | _ => none

/-- What is stored under an id in the file at a place. -/
def record? (files : Files) (place : Place) (id : String) : Option Item :=
  (files.store? place).bind (·.items.find? id)

theorem content?_write (files : Files) (place : Place) (content : Content) (other : Place) :
    (files.write place content).content? other =
      if other = place then some content else files.content? other := by
  unfold content? write
  by_cases heq : other = place
  · simp [heq]
  · have hne : place ≠ other := Ne.symm heq
    rw [if_neg heq, List.find?_cons_of_neg (by simpa using hne), List.find?_filter]
    congr 2
    funext entry
    by_cases hentry : entry.1 = other
    · simp [hentry, heq]
    · simp [hentry]

theorem record?_write (files : Files) (place : Place) (store : Store) (other : Place)
    (id : String) : (files.write place (.store store)).record? other id =
      if other = place then store.items.find? id else files.record? other id := by
  rw [record?, store?, content?_write]
  by_cases heq : other = place
  · rw [if_pos heq, if_pos heq]
    rfl
  · rw [if_neg heq, if_neg heq]
    rfl

/-- Where a walk ends depends on the folders only. -/
theorem walk_folders (hfolders : later.folders = files.folders) {parts : List String}
    (h : files.walk place parts = .ok other) : later.walk place parts = .ok other := by
  induction parts generalizing place with
  | nil => exact h
  | cons part rest ih =>
      have hsame : later.hasFolder place = files.hasFolder place := by
        rw [hasFolder, hasFolder, hfolders]
      rw [walk] at h ⊢
      rw [hsame]
      cases hfolder : files.hasFolder place with
      | true =>
          rw [hfolder, if_pos rfl] at h
          exact ih h
      | false =>
          rw [hfolder, if_neg Bool.false_ne_true] at h
          split at h <;> cases h

theorem locate_folders (hfolders : later.folders = files.folders)
    (h : files.locate folder location = .ok place) :
    later.locate folder location = .ok place := by
  rw [locate] at h ⊢
  by_cases hblank : location = ""
  · rw [if_pos hblank] at h
    cases h
  · rw [if_neg hblank] at h ⊢
    exact walk_folders hfolders h

theorem makeAlong_files {parts : List String} (h : files.makeAlong place parts = .ok later) :
    later.files = files.files := by
  induction parts generalizing files place with
  | nil =>
      cases h
      rfl
  | cons part rest ih =>
      rw [makeAlong] at h
      split at h
      · exact ih h
      · split at h
        · cases h
        · exact (ih h).trans rfl

theorem record?_files (h : later.files = files.files) : later.record? = files.record? := by
  funext place id
  rw [record?, record?, store?, store?, content?, content?, h]

/-- A text that is written where nothing was changes no record. -/
theorem record?_written {text : String} {site : Site σ} (hfree : site.test location has = false)
    (h : site.files.writeText site.folder location text = .ok later) :
    later.record? = site.files.record? := by
  rw [writeText] at h
  rw [Site.test] at hfree
  cases hlocate : site.files.locate site.folder location with
  | error e =>
      rw [hlocate] at h
      cases h
  | ok place =>
      rw [hlocate] at h hfree
      change (if site.files.hasFolder place then _ else _) = _ at h
      split at h
      · cases h
      cases h
      have hnone : site.files.content? place = none := by
        simpa [has] using (Bool.or_eq_false_iff.1 hfree).2
      funext other id
      rw [record?, store?, content?_write]
      by_cases heq : other = place
      · rw [if_pos heq, heq, record?, store?, hnone]
      · rw [if_neg heq]
        rfl

/-- Making sure that there is a store changes no record. -/
theorem record?_openStore (h : files.openStore folder location = .ok later) :
    later.record? = files.record? := by
  rw [openStore] at h
  cases hlocate : files.locate folder location with
  | error e =>
      rw [hlocate] at h
      cases h
  | ok place =>
      rw [hlocate] at h
      change (if files.hasFolder place then _ else _) = _ at h
      split at h
      · cases h
      split at h
      · cases h
      · cases h
        rfl
      · rename_i hnone
        cases h
        funext other id
        rw [record?_write]
        split
        · rename_i heq
          rw [heq, record?, store?, hnone]
          rfl
        · rfl

/-- The records of the store at a location are those at its place. -/
theorem find?_storeAt (h : files.locate folder location = .ok place) (id : String) :
    (files.storeAt folder location).items.find? id = files.record? place id := by
  rw [storeAt, h, record?, store?]
  dsimp only
  cases files.content? place with
  | none => rfl
  | some content => cases content <;> rfl

/-- A transaction that keeps the programs of a store keeps all records. -/
theorem record?_putStore {store : Store} (h : Store.Same (files.storeAt folder location) store) :
    (files.putStore folder location store).record? = files.record? := by
  rw [putStore]
  cases hlocate : files.locate folder location with
  | error e => rfl
  | ok place =>
      funext other id
      rw [record?_write]
      split
      · rename_i heq
        rw [heq, h.items, find?_storeAt hlocate]
      · rfl

end Files

end Operator

/-! ## Requests that keep all records -/

/-- What the tool asks without changing a program of any store, and what is no entry of the
journal. -/
inductive WorkspaceRequest.IsLookup : WorkspaceRequest → Prop
  | isThere (location : String) : IsLookup (.isThere location)
  | isFolder (location : String) : IsLookup (.isFolder location)
  | readText (location : String) : IsLookup (.readText location)
  | makeFolder (location : String) : IsLookup (.makeFolder location)
  | openStore (location : String) : IsLookup (.openStore location)
  | store (location : String) {request : Store.Request} (hkeeps : request.keepsItems = true) :
      IsLookup (.store location request)
  | network (request : Push.NetworkRequest) : IsLookup (.network request)
  | clock : IsLookup .clock

namespace Operator

open ProgramQueue.Task (Within Runs within_request within_bind within_bindExcept within_lift
  within_any runs_pure runs_ask runs_request runs_bind runs_bindExcept)

variable {σ α : Type} {host : Host σ} {site later : Site σ} {allowed : WorkspaceRequest → Prop}

theorem record?_change (site : Site σ) {result : Except Error Files}
    (h : ∀ files, result = .ok files → files.record? = site.files.record?) :
    (site.change result).2.files.record? = site.files.record? := by
  cases result with
  | error e => rfl
  | ok files => exact h files rfl

theorem respond_lookup (host : Host σ) {request : WorkspaceRequest} (h : request.IsLookup)
    (site : Site σ) : (host.respond request site).2.files.record? = site.files.record? := by
  cases h with
  | isThere | isFolder | readText | network | clock => rfl
  | makeFolder location =>
      exact record?_change site fun _ hmade => Files.record?_files (Files.makeAlong_files hmade)
  | openStore location => exact record?_change site fun _ => Files.record?_openStore
  | store location hkeeps => exact Files.record?_putStore (Store.respond_same hkeeps _)

/-- A task that only looks things up changes no record. -/
theorem record?_looked {task : Task Workspace α} {requests : List WorkspaceRequest} {value : α}
    (h : task.Within WorkspaceRequest.IsLookup)
    (hruns : task.Runs host.world site requests value later) :
    later.files.record? = site.files.record? :=
  h.keeps (fun site : Site σ => site.files.record?) (fun _ h site => respond_lookup host h site)
    hruns

theorem within_orProblem {problem : Error → Problem} {task : Task Workspace (Except Error α)}
    (h : task.Within allowed) : (orProblem problem task).run.Within allowed :=
  within_bind h fun _ => trivial

theorem runs_orProblem {problem : Error → Problem} {task : Task Workspace (Except Error α)}
    {requests : List WorkspaceRequest} {result : Except Problem α} :
    (orProblem problem task).run.Runs host.world site requests result later ↔
      ∃ value, result = value.mapError problem ∧
        task.Runs host.world site requests value later := by
  constructor
  · intro h
    obtain ⟨_, value, _, _, rfl, htask, hlast⟩ := runs_bind.1 h
    obtain ⟨rfl, rfl, rfl⟩ := runs_pure.1 hlast
    exact ⟨value, rfl, by rwa [List.append_nil]⟩
  · rintro ⟨value, rfl, h⟩
    exact runs_bind.2 ⟨requests, value, later, [], (List.append_nil _).symm, h, rfl⟩

theorem runs_askExcept {request : WorkspaceRequest} {requests : List WorkspaceRequest}
    {result : Except Problem request.Answer} :
    (ask request).run.Runs host.world site requests result later ↔
      ∃ answer, result = .ok answer ∧ requests = [request] ∧
        host.respond request site = (answer, later) := by
  constructor
  · intro h
    obtain ⟨_, answer, _, _, rfl, htask, hlast⟩ := runs_bind.1 h
    obtain ⟨rfl, rfl, rfl⟩ := runs_pure.1 hlast
    obtain ⟨rfl, heq⟩ := runs_request.1 htask
    exact ⟨answer, rfl, rfl, heq⟩
  · rintro ⟨answer, rfl, rfl, heq⟩
    exact runs_bind.2 ⟨_, answer, later, [], rfl, runs_request.2 ⟨rfl, heq⟩, rfl⟩

theorem within_ask {request : WorkspaceRequest} (h : allowed request) :
    (ask request).run.Within allowed :=
  within_lift (within_request h)

theorem looks_loadConfig (root : String) :
    (loadConfig root).run.Within WorkspaceRequest.IsLookup := by
  refine within_bindExcept (within_ask (.isThere _)) fun isThere => ?_
  cases isThere with
  | true =>
      refine within_bindExcept (within_orProblem (within_request (.readText _))) fun text => ?_
      exact within_orProblem trivial
  | false => trivial

theorem looks_below (root owner : String) :
    (OpenQueue.below root owner).run.Within WorkspaceRequest.IsLookup := by
  refine within_bindExcept (looks_loadConfig root) fun config => ?_
  refine within_bindExcept (within_orProblem (within_request (.openStore _))) fun _ => ?_
  split <;> trivial

theorem looks_ofAttempt {attempt : Attempt String}
    (h : attempt.run.Within WorkspaceRequest.IsLookup) :
    (Report.ofAttempt attempt).Within WorkspaceRequest.IsLookup := by
  refine within_bind h fun result => ?_
  cases result <;> trivial

theorem looks_firstHolding (name : String) (folders : List String) :
    (firstHolding name folders).Within WorkspaceRequest.IsLookup := by
  induction folders with
  | nil => trivial
  | cons folder rest ih =>
      refine within_bind (within_request (.isFolder _)) fun isFolder => ?_
      cases isFolder with
      | true => trivial
      | false => exact ih

theorem looks_rootOf (caller : Caller) (invocation : Invocation) :
    (rootOf caller invocation).Within WorkspaceRequest.IsLookup := by
  rw [rootOf]
  split
  · trivial
  · refine within_bind (looks_firstHolding _ _) fun found => ?_
    cases found with
    | some root => trivial
    | none => exact within_bind (looks_firstHolding _ _) fun _ => trivial

theorem looks_showConfig (root : String) (json : Bool) :
    (showConfig root json).run.Within WorkspaceRequest.IsLookup := by
  refine within_bindExcept (looks_loadConfig root) fun config => trivial

theorem looks_validateConfig (root : String) (json : Bool) :
    (validateConfig root json).Within WorkspaceRequest.IsLookup := by
  refine within_bind (looks_loadConfig root) fun result => ?_
  cases result <;> trivial

/-- A configuration is not written over anything. -/
theorem record?_makeConfig {root : String} {requests : List WorkspaceRequest}
    {result : Except Problem Bool}
    (hruns : (makeConfig root).run.Runs host.world site requests result later) :
    later.files.record? = site.files.record? := by
  have hfolder : (orProblem (.folder (Location.join root Config.folder)) (Workspace.request
      (.makeFolder (Location.join root Config.folder)))).run.Within WorkspaceRequest.IsLookup :=
    within_orProblem (within_request (.makeFolder _))
  obtain ⟨_, -, hmade⟩ | ⟨_, _, made, _, -, hmade, hruns⟩ := runs_bindExcept.1 hruns
  · exact record?_looked hfolder hmade
  refine Eq.trans ?_ (record?_looked hfolder hmade)
  obtain ⟨_, -, htested⟩ | ⟨_, isThere, tested, _, -, htested, hruns⟩ := runs_bindExcept.1 hruns
  · exact record?_looked (within_ask (.isThere _)) htested
  obtain ⟨_, ⟨⟩, -, hanswer⟩ := runs_askExcept.1 htested
  obtain ⟨htest, rfl⟩ := Prod.mk.inj hanswer
  cases isThere with
  | true =>
      obtain ⟨-, -, rfl⟩ := runs_pure.1 hruns
      rfl
  | false =>
      have hwritten {requests : List WorkspaceRequest} {result : Except Problem Unit}
          {written : Site σ} (h : (orProblem .writing (Workspace.request (.writeText
            (Location.join root Config.file) Config.usual.print))).run.Runs host.world made
              requests result written) : written.files.record? = made.files.record? := by
        obtain ⟨answer, -, hrequest⟩ := runs_orProblem.1 h
        obtain ⟨-, hwrite⟩ := runs_request.1 hrequest
        obtain ⟨-, rfl⟩ := Prod.mk.inj hwrite
        exact record?_change made fun files => Files.record?_written htest
      obtain ⟨_, -, h⟩ | ⟨_, _, _, _, -, h, hlast⟩ := runs_bindExcept.1 hruns
      · exact hwritten h
      · obtain ⟨-, -, rfl⟩ := runs_pure.1 hlast
        exact hwritten h

theorem looks_listPrograms (opened : OpenQueue) (json : Bool) :
    (listPrograms opened json).run.Within WorkspaceRequest.IsLookup :=
  within_bindExcept (within_orProblem ⟨.store _ rfl, fun _ => trivial⟩) fun _ => trivial

theorem looks_showProgram (opened : OpenQueue) (id : String) (json : Bool) :
    (showProgram opened id json).run.Within WorkspaceRequest.IsLookup := by
  refine within_bindExcept (within_orProblem ⟨.store _ rfl, fun _ => trivial⟩) fun found => ?_
  cases found with
  | none => trivial
  | some item =>
      cases json with
      | true => trivial
      | false => exact within_bindExcept (within_ask (.store _ rfl)) fun _ => trivial

theorem looks_recoverClaims (opened : OpenQueue) (json : Bool) :
    (recoverClaims opened json).run.Within WorkspaceRequest.IsLookup := by
  refine within_bindExcept (within_orProblem ⟨.clock, fun _ => ?_⟩) fun _ => trivial
  exact ⟨.store _ rfl, fun _ => trivial⟩

/-! ## An open store -/

/-- A location leads to a store. -/
structure Holds (site : Site σ) (location : String) (place : Place) (store : Store) : Prop where
  located : site.files.locate site.folder location = .ok place
  stored : site.files.content? place = some (.store store)

variable {location : String} {place : Place} {store : Store}

theorem Holds.record? (h : Holds site location place store) (id : String) :
    site.files.record? place id = store.items.find? id := by
  rw [Files.record?, Files.store?, h.stored]
  rfl

theorem Holds.congr (h : Holds site location place store) (hfolder : later.folder = site.folder)
    (hfiles : later.files = site.files) : Holds later location place store := by
  obtain ⟨hlocated, hstored⟩ := h
  rw [← hfiles] at hlocated hstored
  rw [← hfolder] at hlocated
  exact ⟨hlocated, hstored⟩

/-- A store stands at the place that it was written to. -/
theorem holds_write (hlocated : site.files.locate site.folder location = .ok place)
    (store : Store) :
    Holds { site with files := site.files.write place (.store store) } location place store := by
  have hfolders : (site.files.write place (.store store)).folders = site.files.folders := rfl
  refine ⟨Files.locate_folders hfolders hlocated, ?_⟩
  rw [Files.content?_write, if_pos rfl]

/-- A transaction is answered by the store at the place. -/
theorem Holds.transact (h : Holds site location place store) (request : Store.Request) :
    site.transact location request = ((Store.respond request store).1,
      { site with files := site.files.write place (.store (Store.respond request store).2) }) := by
  have hstore : site.files.storeAt site.folder location = store := by
    rw [Files.storeAt, h.located]
    dsimp only
    rw [h.stored]
  have hput (stored : Store) : site.files.putStore site.folder location stored =
      site.files.write place (.store stored) := by
    rw [Files.putStore, h.located]
  simp only [Site.transact, hstore, hput]

/-- A store that was opened is there. -/
theorem holds_opened (host : Host σ)
    (h : host.respond (.openStore location) site = (.ok (), later)) :
    ∃ place store, Holds later location place store := by
  rw [Host.respond, Files.openStore] at h
  cases hlocate : site.files.locate site.folder location with
  | error e =>
      rw [hlocate] at h
      cases h
  | ok place =>
      rw [hlocate] at h
      change site.change (if site.files.hasFolder place then _ else _) = _ at h
      split at h
      · cases h
      split at h
      · cases h
      · rename_i store hstored
        cases h
        exact ⟨place, store, hlocate, hstored⟩
      · cases h
        exact ⟨place, .empty, holds_write hlocate .empty⟩

/-- A queue that was opened has a store. -/
theorem below_holds {root owner : String} {requests : List WorkspaceRequest}
    {opened : OpenQueue}
    (h : (OpenQueue.below root owner).run.Runs host.world site requests (.ok opened) later) :
    ∃ place store, Holds later opened.location place store := by
  obtain ⟨_, heq, -⟩ | ⟨_, config, loaded, _, -, -, h⟩ := runs_bindExcept.1 h
  · cases heq
  obtain ⟨_, heq, -⟩ | ⟨_, ⟨⟩, made, _, -, hopen, hclient⟩ := runs_bindExcept.1 h
  · cases heq
  obtain ⟨answer, heq, hrequest⟩ := runs_orProblem.1 hopen
  cases answer with
  | error e => cases heq
  | ok value =>
      obtain ⟨place, store, hholds⟩ := holds_opened host (runs_request.1 hrequest).2
      split at hclient
      · obtain ⟨-, heq, -⟩ := runs_pure.1 hclient
        cases heq
      · obtain ⟨-, heq, rfl⟩ := runs_pure.1 hclient
        cases heq
        exact ⟨place, store, hholds⟩

/-! ## Operations in an open store -/

/-- What an operation asks of the store and tells the server shows in what the tool asks, and
so does every entry of the journal that the tool writes. -/
structure Shows (opened : OpenQueue) (log : Log Queue.Surroundings)
    (requests : List WorkspaceRequest) : Prop where
  notes : ∀ entry, .note entry ∈ requests → ∃ answered ∈ log, answered.request = .note entry
  stores : ∀ answered ∈ log, ∀ own, answered.request = .store own →
    .store opened.location own ∈ requests
  updates : ∀ answered ∈ log, ∀ update, answered.request = .push (.updateDevice update) →
    .network (.attempt (opened.client.message Push.Client.devicePath update.toJson)) ∈ requests

/-- A part of an operation is served by the store at a place and leaves all other files as
they are. -/
structure Passes (opened : OpenQueue) (place : Place) (before : Site σ) (store : Store)
    (log : Log Queue.Surroundings) (requests : List WorkspaceRequest) (after : Site σ)
    (stored : Store) : Prop where
  holds : Holds after opened.location place stored
  others : ∀ other, other ≠ place → after.files.content? other = before.files.content? other
  serves : Queue.Serves store log stored
  shows : Shows opened log requests

variable {opened : OpenQueue} {requests : List WorkspaceRequest}

theorem Shows.nil (opened : OpenQueue) : Shows opened [] [] where
  notes _ hentry := absurd hentry List.not_mem_nil
  stores := List.forall_mem_nil _
  updates := List.forall_mem_nil _

theorem Shows.append {first second : Log Queue.Surroundings} {later : List WorkspaceRequest}
    (hfirst : Shows opened first requests) (hsecond : Shows opened second later) :
    Shows opened (first ++ second) (requests ++ later) where
  notes entry hentry := by
    obtain hbefore | hafter := List.mem_append.1 hentry
    · obtain ⟨answered, hmem, heq⟩ := hfirst.notes entry hbefore
      exact ⟨answered, List.mem_append_left _ hmem, heq⟩
    · obtain ⟨answered, hmem, heq⟩ := hsecond.notes entry hafter
      exact ⟨answered, List.mem_append_right _ hmem, heq⟩
  stores answered hanswered own heq := by
    obtain hbefore | hafter := List.mem_append.1 hanswered
    · exact List.mem_append_left _ (hfirst.stores answered hbefore own heq)
    · exact List.mem_append_right _ (hsecond.stores answered hafter own heq)
  updates answered hanswered update heq := by
    obtain hbefore | hafter := List.mem_append.1 hanswered
    · exact List.mem_append_left _ (hfirst.updates answered hbefore update heq)
    · exact List.mem_append_right _ (hsecond.updates answered hafter update heq)

/-- What the tool asks without touching files. -/
inductive IsAway : WorkspaceRequest → Prop
  | network (request : Push.NetworkRequest) : IsAway (.network request)
  | clock : IsAway .clock

theorem away_overNetwork (task : Task Push.Network α) :
    (Workspace.overNetwork task).Within IsAway :=
  (within_any task).relay fun request _ => .network request

theorem Holds.away {task : Task Workspace α} {value : α} (h : Holds site location place store)
    (haway : task.Within IsAway) (hruns : task.Runs host.world site requests value later) :
    Holds later location place store ∧ later.files = site.files := by
  have hkeeps : ∀ request, IsAway request → ∀ site : Site σ,
      ((host.world.respond request site).2.folder, (host.world.respond request site).2.files) =
        (site.folder, site.files) := by
    rintro _ (_ | _) site <;> rfl
  obtain ⟨hfolder, hfiles⟩ := Prod.mk.inj
    (haway.keeps (fun site : Site σ => (site.folder, site.files)) hkeeps hruns)
  exact ⟨h.congr hfolder hfiles, hfiles⟩

/-- A request that is answered without the files leaves the store as it is. -/
theorem away_passes {request : Queue.Request} {answer : request.Answer}
    (h : Holds site opened.location place store)
    (haway : (opened.respond request).Within IsAway)
    (hruns : (opened.respond request).Runs host.world site requests answer later)
    (hother : ∀ own, request ≠ .store own)
    (hupdates : ∀ update, request = .push (.updateDevice update) → .network (.attempt
      (opened.client.message Push.Client.devicePath update.toJson)) ∈ requests) :
    Passes opened place site store [⟨request, answer⟩] requests later store := by
  obtain ⟨hholds, hfiles⟩ := h.away haway hruns
  refine ⟨hholds, fun other _ => by rw [hfiles], .other hother (.nil _), ?_, ?_, ?_⟩
  · intro entry hentry
    cases haway.runs hruns _ hentry
  · exact List.forall_mem_singleton.2 fun own heq => absurd heq (hother own)
  · exact List.forall_mem_singleton.2 hupdates

/-- The first thing that is done with a message is to attempt it. -/
theorem attempts_updateDevice {update : Push.DeviceUpdate}
    {answer : Except Push.RequestError Push.Device}
    (hruns : (opened.askServer (.updateDevice update)).Runs host.world site requests answer later) :
    .network (.attempt (opened.client.message Push.Client.devicePath update.toJson)) ∈
      requests := by
  have hattempt : ∃ next, opened.askServer (.updateDevice update) = Task.ask (I := Workspace)
      (.network (.attempt (opened.client.message Push.Client.devicePath update.toJson))) next := by
    rw [OpenQueue.askServer, Push.Client.updateDevice, Push.Client.post]
    cases opened.client.config.retry.maxAttempts - 1 with
    | zero => exact ⟨_, rfl⟩
    | succ more => exact ⟨_, rfl⟩
  obtain ⟨next, heq⟩ := hattempt
  rw [heq] at hruns
  obtain ⟨rest, rfl, -⟩ := runs_ask.1 hruns
  exact List.mem_cons_self

theorem away_askServer (request : Push.Request) : (opened.askServer request).Within IsAway := by
  cases request <;> exact away_overNetwork _

/-- A request of the queue is answered in the open store, or away from all files. -/
theorem respond_passes {request : Queue.Request} {answer : request.Answer}
    (h : Holds site opened.location place store)
    (hruns : (opened.respond request).Runs host.world site requests answer later) :
    ∃ stored, Passes opened place site store [⟨request, answer⟩] requests later stored := by
  cases request with
  | outside query =>
      have haway : (opened.askOutside query).Within IsAway :=
        within_bind (within_request .clock) fun _ => trivial
      exact ⟨store, away_passes h haway hruns nofun nofun⟩
  | push request =>
      refine ⟨store, away_passes h (away_askServer request) hruns nofun ?_⟩
      rintro update ⟨⟩
      exact attempts_updateDevice hruns
  | wallClock => exact ⟨store, away_passes h (within_request .clock) hruns nofun nofun⟩
  | lock id => exact ⟨store, away_passes h trivial hruns nofun nofun⟩
  | unlock id => exact ⟨store, away_passes h trivial hruns nofun nofun⟩
  | note entry =>
      obtain ⟨rfl, hrespond⟩ := runs_request.1 hruns
      cases hrespond
      refine ⟨store, h, fun _ _ => rfl, .other nofun (.nil _), ?_, ?_, ?_⟩
      · intro other hother
        cases List.mem_singleton.1 hother
        exact ⟨_, List.mem_cons_self, rfl⟩
      · exact List.forall_mem_singleton.2 nofun
      · exact List.forall_mem_singleton.2 nofun
  | store request =>
      obtain ⟨rfl, hrespond⟩ := runs_request.1 hruns
      obtain ⟨rfl, rfl⟩ := Prod.mk.inj ((h.transact request).symm.trans hrespond)
      refine ⟨_, holds_write h.located _, fun other hother => ?_, .store (.nil _), ?_, ?_, ?_⟩
      · rw [Files.content?_write, if_neg hother]
      · intro entry hentry
        cases List.mem_singleton.1 hentry
      · exact List.forall_mem_singleton.2 fun own heq => by
          cases heq
          exact List.mem_cons_self
      · exact List.forall_mem_singleton.2 nofun

/-- An operation that the tool carries out completes in the open store. -/
theorem through_passes {operation : Queue.Operation α} {value : α}
    (h : Holds site opened.location place store)
    (hruns : (operation.through opened.respond).Runs host.world site requests value later) :
    ∃ log stored, operation.Follows log value ∧
      Passes opened place site store log requests later stored := by
  induction operation generalizing site store requests with
  | done result =>
      obtain ⟨rfl, rfl, rfl⟩ := runs_pure.1 hruns
      exact ⟨[], store, .done _, h, fun _ _ => rfl, .nil _, .nil opened⟩
  | ask request next ih =>
      obtain ⟨first, answer, middle, rest, rfl, hfirst, hrest⟩ := runs_bind.1 hruns
      obtain ⟨between, hbefore⟩ := respond_passes h hfirst
      obtain ⟨log, stored, hfollows, hafter⟩ := ih answer hbefore.holds hrest
      refine ⟨_ :: log, stored, .ask hfollows, hafter.holds, fun other hother => ?_, ?_, ?_⟩
      · exact (hafter.others other hother).trans (hbefore.others other hother)
      · exact Queue.serves_append.2 ⟨between, hbefore.serves, hafter.serves⟩
      · exact hbefore.shows.append hafter.shows

end Operator

end ProgramQueue
