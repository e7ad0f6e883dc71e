import ProgramQueue.Interpreter
import ProgramQueue.Proofs.Logs

/-!
# Reading a journal

The journal of a log lists what the log writes.  It tells which leaves were
started, which have completed and which have failed.
-/

namespace ProgramQueue

open ProgramQueue.Task (Follows Relayed follows_done follows_ask follows_pure follows_bind
  follows_request follows_relay)

/-! ## Leaves in a journal -/

namespace Note

def executed? : Note → Option Site
  | .execute site => some site
  | _ => none

end Note

/-- Entries in the order they were written. -/
abbrev Journal := List Note

namespace Journal

/-- The leaves whose steps were started. -/
def executed (journal : Journal) : List Site := journal.filterMap Note.executed?

def Completed (journal : Journal) (site : Site) : Prop :=
  ∃ snapshot, Note.leaf site (.done none snapshot) ∈ journal

def Failed (journal : Journal) (site : Site) : Prop :=
  ∃ failure snapshot, Note.leaf site (.done (some failure) snapshot) ∈ journal

/-- An entry of two lists in a row stands in the second or in the first. -/
theorem split_append {α : Type} {list notes earlier later : List α} {note : α}
    (h : list ++ notes = earlier ++ note :: later) :
    (∃ between, earlier = list ++ between ∧ notes = between ++ note :: later) ∨
      ∃ between, list = earlier ++ note :: between := by
  obtain ⟨between, hearlier, hnotes⟩ | ⟨between, hlist, hlater⟩ :=
    List.append_eq_append_iff.1 h
  · exact Or.inl ⟨between, hearlier, hnotes⟩
  · cases between with
    | nil =>
        rw [List.append_nil] at hlist
        exact Or.inl ⟨[], by rw [hlist, List.append_nil], hlater.symm⟩
    | cons first between =>
        obtain ⟨rfl, -⟩ := List.cons.inj hlater
        exact Or.inr ⟨between, hlist⟩

@[simp]
theorem executed_append (first later : Journal) :
    executed (first ++ later) = executed first ++ executed later :=
  List.filterMap_append

theorem mem_executed {journal : Journal} {site : Site} :
    site ∈ executed journal ↔ Note.execute site ∈ journal := by
  simp only [executed, List.mem_filterMap]
  constructor
  · rintro ⟨note, hnote, heq⟩
    cases note <;> simp_all [Note.executed?]
  · intro h
    exact ⟨_, h, rfl⟩

theorem Completed.left {first : Journal} {site : Site} (h : Completed first site)
    (later : Journal) : Completed (first ++ later) site :=
  h.imp fun _ => List.mem_append_left later

theorem Completed.right {later : Journal} {site : Site} (h : Completed later site)
    (first : Journal) : Completed (first ++ later) site :=
  h.imp fun _ => List.mem_append_right first

theorem failed_append {first later : Journal} {site : Site} :
    Failed (first ++ later) site ↔ Failed first site ∨ Failed later site := by
  simp only [Failed, List.mem_append, exists_or]

end Journal

namespace Journaled

def Request.note? : Journaled.Request → Option Note
  | .note entry => some entry
  | .ask _ => none

/-- What a log writes into the journal. -/
def journal (log : Log Journaled) : Journal :=
  log.filterMap fun entry => entry.request.note?

@[simp]
theorem journal_nil : journal [] = [] := rfl

@[simp]
theorem journal_append (first later : Log Journaled) :
    journal (first ++ later) = journal first ++ journal later :=
  List.filterMap_append

@[simp]
theorem journal_note (entry : Note) (answer : Unit) (log : Log Journaled) :
    journal (⟨.note entry, answer⟩ :: log) = entry :: journal log := rfl

theorem journal_asked {inner : Log Outside} {outer : Log Journaled}
    (h : Relayed (J := Journaled) Request.ask (fun _ answer => answer) inner outer) :
    journal outer = [] := by
  induction h with
  | nil => rfl
  | cons _ ih => exact ih

/-- A task without its journal makes the requests of the task that keeps one. -/
theorem follows_silent {α : Type} {task : Task Journaled α} {log : Log Outside} {value : α}
    (h : (silent task).Follows log value) : ∃ kept, task.Follows kept value := by
  induction task generalizing log with
  | done result =>
      obtain ⟨-, rfl⟩ := follows_done.1 h
      exact ⟨[], .done _⟩
  | ask request next ih =>
      cases request with
      | note entry =>
          obtain ⟨kept, hkept⟩ := ih () h
          exact ⟨_, .ask hkept⟩
      | ask query =>
          obtain ⟨answer, rest, rfl, hrest⟩ := follows_ask.1 h
          obtain ⟨kept, hkept⟩ := ih answer hrest
          exact ⟨_, .ask hkept⟩

end Journaled

/-- The collaborators of a world, and a journal that takes whatever is written. -/
def World.noting {σ : Type} (world : World Outside σ) : World Journaled σ where
  respond
    | .note _, state => ((), state)
    | .ask query, state => world.respond query state

/-- A task without its journal comes to the same as with it. -/
theorem Journaled.run_silent {α σ : Type} (world : World Outside σ) (task : Task Journaled α)
    (state : σ) :
    ((silent task).run world state).value = (task.run world.noting state).value := by
  induction task generalizing state with
  | done value => rfl
  | ask request next ih =>
      cases request with
      | note entry => exact ih () state
      | ask query => exact ih _ _

namespace Site

/-- The site of a node at a place below a site. -/
def reach (site : Site) (place : Path) : Site :=
  { site with place := site.place ++ place }

theorem reach_nil (site : Site) : site.reach [] = site := by
  simp [reach]

theorem below_reach (site : Site) (branch : Branch) :
    (site.below branch).reach = fun place => site.reach (branch :: place) := by
  funext place
  simp [reach, below]

end Site

/-! ## What a leaf writes -/

/-- A step that is started and what it comes to are written down around it. -/
theorem Step.follows_execute {inlineCap : Nat} {site : Site} {step : Step}
    {log : Log Journaled} {next : Effect}
    (h : (step.execute inlineCap site).Follows log next) :
    ∃ inner outer result,
      log = ⟨.note (.execute site), ()⟩ :: outer ++ [⟨.note (.leaf site next), ()⟩] ∧
      Relayed (J := Journaled) Journaled.Request.ask (fun _ answer => answer) inner outer ∧
      (step.start inlineCap).run.Follows inner result ∧ next = .ofStart result := by
  unfold execute at h
  obtain ⟨first, _, later, rfl, hfirst, hlater⟩ := follows_bind.1 h
  obtain ⟨outer, result, last, rfl, hasked, hlast⟩ := follows_bind.1 hlater
  obtain ⟨written, _, ended, rfl, hwritten, hended⟩ := follows_bind.1 hlast
  obtain ⟨rfl, rfl⟩ := follows_pure.1 hended
  obtain ⟨inner, hrelayed, hinner⟩ := follows_relay hasked
  rw [follows_request.1 hfirst, follows_request.1 hwritten]
  exact ⟨inner, outer, result, rfl, hrelayed, hinner, rfl⟩

/-- What a condition that is checked comes to is written down after it. -/
theorem Condition.follows_recheck {site : Site} {condition : Condition}
    {log : Log Journaled} {next : Effect}
    (h : (condition.recheck site).Follows log next) :
    ∃ inner outer result, log = outer ++ [⟨.note (.leaf site next), ()⟩] ∧
      Relayed (J := Journaled) Journaled.Request.ask (fun _ answer => answer) inner outer ∧
      condition.check.run.Follows inner result ∧
      next = .ofCheck (.await condition) result := by
  unfold recheck at h
  obtain ⟨outer, result, last, rfl, hasked, hlast⟩ := follows_bind.1 h
  obtain ⟨written, _, ended, rfl, hwritten, hended⟩ := follows_bind.1 hlast
  obtain ⟨rfl, rfl⟩ := follows_pure.1 hended
  obtain ⟨inner, hrelayed, hinner⟩ := follows_relay hasked
  rw [follows_request.1 hwritten]
  exact ⟨inner, outer, result, rfl, hrelayed, hinner, rfl⟩

theorem Step.journal_execute {inlineCap : Nat} {site : Site} {step : Step}
    {log : Log Journaled} {next : Effect}
    (h : (step.execute inlineCap site).Follows log next) :
    Journaled.journal log = [.execute site, .leaf site next] := by
  obtain ⟨inner, outer, result, rfl, hrelayed, -, -⟩ := Step.follows_execute h
  simp [Journaled.journal_asked hrelayed]

theorem Condition.journal_recheck {site : Site} {condition : Condition}
    {log : Log Journaled} {next : Effect}
    (h : (condition.recheck site).Follows log next) :
    Journaled.journal log = [.leaf site next] := by
  obtain ⟨inner, outer, result, rfl, hrelayed, -, -⟩ := Condition.follows_recheck h
  simp [Journaled.journal_asked hrelayed]

end ProgramQueue
