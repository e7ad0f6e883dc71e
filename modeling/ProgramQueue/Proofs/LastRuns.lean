import ProgramQueue.Proofs.Budgets
import ProgramQueue.Proofs.Frames
import ProgramQueue.Proofs.Occasions

/-!
# The last run of a program

The log of a history tells what was asked in the last run of a program.  If nothing was
refused in it, the record of the program shows from then on what it was settled with:
the events that it wants are listed, the time of the next run is the one for what it waits
for, and all wallets that it names were found.  Whatever has happened since, to this
program or to others, keeps that as long as the program is not run again.
-/

namespace ProgramQueue

/-- A drive writes of no run that begins. -/
theorem Program.stepsOnce (inlineCap : Nat) (program : Program) :
    DriveCases inlineCap program fun _ log _ =>
      ∀ note ∈ Journaled.journal log, ∀ id fired, note ≠ .step id fired where
  rest _ := nofun
  advance effect log next later final _ hadvance hrest note hnote id fired heq := by
    simp only [List.cons_append, Journaled.journal_note, Journaled.journal_append,
      List.mem_cons, List.mem_append] at hnote
    subst heq
    rcases hnote with hfirst | hlog | hlater
    · cases hfirst
    · obtain ⟨place, heq | ⟨next, heq⟩⟩ := notes_of_advance hadvance hlog <;> cases heq
    · exact hrest _ hlater id fired rfl

namespace Queue

/-! ## What was asked in the last run -/

/-- The journal is told that a run of a program begins. -/
def Request.begins (id : String) : Request → Bool
  | .note (.step other _) => other = id
  | _ => false

/-- The claim on a program is dropped, with which a run of it ends. -/
def Request.ends (id : String) : Request → Bool
  | .store (.release other _) => other = id
  | _ => false

/-- What was asked since the last run of a program began until it ended, and whether it is
still to end. -/
structure Recent where
  running : Bool
  log : Log Surroundings

namespace Recent

def after (id : String) (recent : Recent) (entry : Answered Surroundings) : Recent :=
  if entry.request.begins id then ⟨true, [entry]⟩
  else if recent.running then ⟨!entry.request.ends id, recent.log ++ [entry]⟩
  else recent

/-- The same after all that a log lists. -/
def through (id : String) (log : Log Surroundings) (recent : Recent) : Recent :=
  log.foldl (after id) recent

end Recent

/-- All that was asked in the last run of a program, with the answers. -/
def lastRun (id : String) (log : Log Surroundings) : Log Surroundings :=
  (Recent.through id log ⟨false, []⟩).log

variable {terms : Terms} {settings : Settings} {program : Program} {state final : State}
  {before after : Store} {log first later own : Log Surroundings} {id : String} {item : Item}
  {recent : Recent}

namespace Recent

@[simp]
theorem through_append : through id (first ++ later) recent =
    through id later (through id first recent) :=
  List.foldl_append

/-- As long as no run begins, the last one is the same. -/
theorem through_resting (hresting : recent.running = false)
    (h : ∀ entry ∈ log, entry.request.begins id = false) : through id log recent = recent := by
  induction log with
  | nil => rfl
  | cons entry rest ih =>
      obtain ⟨hentry, hrest⟩ := List.forall_mem_cons.1 h
      have hsame : recent.after id entry = recent := by
        rw [after, hentry, hresting]
        rfl
      rw [through, List.foldl_cons, hsame]
      exact ih hrest

theorem through_running {asked : Log Surroundings}
    (h : ∀ entry ∈ log, entry.request.begins id = false ∧ entry.request.ends id = false) :
    through id log ⟨true, asked⟩ = ⟨true, asked ++ log⟩ := by
  induction log generalizing asked with
  | nil => rw [List.append_nil]; rfl
  | cons entry rest ih =>
      obtain ⟨⟨hbegins, hends⟩, hrest⟩ := List.forall_mem_cons.1 h
      have hnext : (⟨true, asked⟩ : Recent).after id entry = ⟨true, asked ++ [entry]⟩ := by
        rw [after, hbegins, hends]
        rfl
      rw [through, List.foldl_cons, hnext]
      exact (ih hrest).trans (by rw [List.append_assoc]; rfl)

/-- A run from its first request to its last is the last run. -/
theorem through_run (fired : Option String) (owner : String)
    (h : ∀ entry ∈ log, entry.request.begins id = false ∧ entry.request.ends id = false) :
    through id (⟨.note (.step id fired), ()⟩ :: (log ++ [⟨.store (.release id owner), ()⟩]))
        recent =
      ⟨false, ⟨.note (.step id fired), ()⟩ :: (log ++ [⟨.store (.release id owner), ()⟩])⟩ := by
  have hbegun : recent.after id ⟨.note (.step id fired), ()⟩ =
      ⟨true, [⟨.note (.step id fired), ()⟩]⟩ := if_pos (decide_eq_true rfl)
  rw [through, List.foldl_cons, hbegun]
  change through id (log ++ _) _ = _
  rw [through_append, through_running h]
  have hended : (Request.store (.release id owner)).ends id = true := decide_eq_true rfl
  simp [through, after, hended, Request.begins]

theorem through_subset : (through id log recent).log ⊆ recent.log ++ log := by
  induction log generalizing recent with
  | nil => exact List.subset_append_left _ _
  | cons entry rest ih =>
      rw [through, List.foldl_cons]
      have hfirst : (recent.after id entry).log ⊆ recent.log ++ [entry] := by
        unfold after
        split
        · exact List.subset_append_right _ _
        · split
          · exact List.Subset.refl _
          · exact List.subset_append_left _ _
      intro asked hasked
      rw [List.append_cons]
      obtain hmem | hmem := List.mem_append.1 (ih hasked)
      · exact List.mem_append_left _ (hfirst hmem)
      · exact List.mem_append_right _ hmem

end Recent

theorem lastRun_subset (id : String) (log : Log Surroundings) : lastRun id log ⊆ log :=
  Recent.through_subset

/-! ## What it leaves behind -/

/-- What the record of a program shows if nothing was refused when it was settled. -/
structure SettledWell (item : Item) (own : Log Surroundings) : Prop where
  listed : item.state.pushEventIds = item.program.wantedIds item.state.current
  timed : ∃ now, item.state.nextRun =
    nextRunTime now (item.program.plannedResults item.state.current)
  found : ∀ wallet ∈ item.program.wallets item.state.current,
    ∃ info, ⟨.outside (.walletInfo wallet), .ok info⟩ ∈ own

/-- No run of a program is going on, and if there was one, its record shows that nothing
was refused in the last one: if that is so, it can be read and the program is not over. -/
structure Remembered (id : String) (store : Store) (recent : Recent) : Prop where
  resting : recent.running = false
  settled : ∀ item, store.items.find? id = some item → item.isReadable = true →
    item.state.isDone = false → recent.log ≠ [] → ¬Refused recent.log →
      SettledWell item recent.log

theorem SettledWell.weaken {more : Log Surroundings} (h : SettledWell item own)
    (hmore : own ⊆ more) : SettledWell item more where
  listed := h.listed
  timed := h.timed
  found wallet hwallet := (h.found wallet hwallet).imp fun _ hinfo => hmore hinfo

theorem Refused.weaken (h : Refused first) (hmore : first ⊆ later) : Refused later := by
  rcases h with ⟨wallet, e, hmem⟩ | ⟨update, e, hmem⟩
  · exact Or.inl ⟨wallet, e, hmore hmem⟩
  · exact Or.inr ⟨update, e, hmore hmem⟩

/-- Settling a program that is not over, with nothing refused, leaves it settled well. -/
theorem Settles.settledWell {item : Item} (h : Settles settings item.program state log final)
    (hopen : final.isDone = false) (haccepted : ¬Refused log) :
    SettledWell { item with state := final } log := by
  cases h with
  | finished hdone => cases hdone.symm.trans hopen
  | missed _ hasked hmissed =>
      exact absurd ((missed_refused hasked hmissed).weaken (List.subset_cons_self _ _)) haccepted
  | refused _ _ _ _ _ =>
      apply absurd _ haccepted
      exact Or.inr ⟨_, _, List.mem_cons_of_mem _ (List.mem_append_right _ List.mem_cons_self)⟩
  | @registered now _ asked _ _ _ _ _ _ _ hlooked =>
      refine ⟨rfl, ⟨now, rfl⟩, fun wallet hwallet => ?_⟩
      obtain ⟨info, hinfo⟩ := hlooked wallet hwallet
      exact ⟨info, List.mem_cons_of_mem _ (List.mem_append_left _ hinfo)⟩

/-! ## What a run asks -/

/-- What others are asked, and not told of a run, neither begins nor ends one. -/
theorem inside_of_remote {request : Request} (hremote : request.IsRemote)
    (hnote : ∀ other fired, request ≠ .note (.step other fired)) :
    request.begins id = false ∧ request.ends id = false := by
  cases hremote with
  | outside => exact ⟨rfl, rfl⟩
  | push => exact ⟨rfl, rfl⟩
  | note entry =>
      cases entry with
      | step other fired => exact absurd rfl (hnote other fired)
      | _ => exact ⟨rfl, rfl⟩

/-- A run begins with the note of it, and no other run begins or ends while it lasts. -/
theorem Ran.inside {fired : Option String} (h : Ran settings id fired before log final after) :
    ∃ rest, log = ⟨.note (.step id fired), ()⟩ :: rest ∧
      ∀ entry ∈ rest, entry.request.begins id = false ∧ entry.request.ends id = false := by
  cases h with
  | @intro _ item state _ driving settling answer _ _ _ hdrives hsettles _ =>
      obtain @⟨inner, outer, driven, now, hkept, hdrives⟩ := hdrives
      refine ⟨_, rfl, ?_⟩
      have hdriving : ∀ entry ∈ outer,
          entry.request.begins id = false ∧ entry.request.ends id = false := by
        intro entry hentry
        rcases mem_kept hkept hentry with ⟨note, hnote, heq⟩ | ⟨query, heq⟩
        · rw [heq]
          apply inside_of_remote (.note note)
          rintro other fired ⟨⟩
          exact ((Program.stepsOnce _ _).holds hdrives).1 _ hnote other fired rfl
        · rw [heq]
          exact ⟨rfl, rfl⟩
      have hsettling : ∀ entry ∈ settling,
          entry.request.begins id = false ∧ entry.request.ends id = false := by
        intro entry hentry
        apply inside_of_remote (hsettles.remote entry hentry)
        intro other fired heq
        have hnone := (hsettles.settling entry hentry).note?
        rw [heq] at hnone
        cases hnone
      refine List.forall_mem_append.2 ⟨List.forall_mem_append.2 ⟨hdriving, ?_⟩, ?_⟩
      · exact List.forall_mem_singleton.2 ⟨rfl, rfl⟩
      · refine List.forall_mem_cons.2 ⟨⟨rfl, rfl⟩, List.forall_mem_append.2 ⟨hsettling, ?_⟩⟩
        exact List.forall_mem_singleton.2 ⟨rfl, rfl⟩

/-! ## What a move keeps -/

theorem remembered_of_puts (hresting : recent.running = false)
    (hputs : Store.Puts id item before after)
    (h : item.isReadable = true → item.state.isDone = false → recent.log ≠ [] →
      ¬Refused recent.log → SettledWell item recent.log) : Remembered id after recent := by
  refine ⟨hresting, fun other hother => ?_⟩
  obtain rfl := Option.some.inj (hputs.self.symm.trans hother)
  exact h

theorem Foreign.remembered (h : Foreign id before log after)
    (hbefore : Remembered id before recent) :
    Remembered id after (Recent.through id log recent) := by
  rw [Recent.through_resting hbefore.resting]
  · refine ⟨hbefore.resting, fun item hitem => ?_⟩
    rw [h.found] at hitem
    exact hbefore.settled item hitem
  · intro entry hentry
    have hforeign := h.requests entry hentry
    generalize entry.request = request at hforeign
    cases request with
    | note note =>
        cases note with
        | step other fired => exact decide_eq_false hforeign.1
        | _ => rfl
    | _ => rfl

theorem Ran.remembered {fired : Option String} (h : Ran settings id fired before log final after)
    (owner : String) : Remembered id after
      (Recent.through id (log ++ [⟨.store (.release id owner), ()⟩]) recent) := by
  obtain ⟨rest, hlog, hinside⟩ := h.inside
  rw [hlog, List.cons_append, Recent.through_run fired owner hinside, ← List.cons_append, ← hlog]
  cases h with
  | @intro _ item state _ driving settling answer _ _ _ _ hsettles hputs =>
      refine remembered_of_puts rfl hputs fun hreadable hopen _ haccepted => ?_
      rw [Item.settled_eq hreadable] at hopen ⊢
      have hpart : settling ⊆ driving ++ ⟨.store (.save state), .ok ()⟩ :: (settling ++
          [⟨.store (.save final), answer⟩]) ++ [⟨.store (.release id owner), ()⟩] := by
        intro entry hentry
        simp [hentry]
      exact (hsettles.settledWell hopen fun h => haccepted (h.weaken hpart)).weaken hpart

/-- A program that was never run has nothing that could be settled. -/
theorem settledWell_fresh (program : Program) (own : Log Surroundings) :
    SettledWell (Item.fresh program) own := by
  have hnothing : program.plannedResults (Item.fresh program).state.current = [] :=
    program.plannedResults_init
  have hwatched : program.watched (Item.fresh program).state.current = [] := by
    rw [Program.watched, hnothing]
    rfl
  constructor
  · change [] = program.wantedIds _
    rw [Program.wantedIds, hwatched]
    rfl
  · refine ⟨never, ?_⟩
    change _ = nextRunTime never (program.plannedResults _)
    rw [hnothing]
    rfl
  · change ∀ wallet ∈ program.wallets _, _
    rw [Program.wallets, hwatched]
    exact List.forall_mem_nil _

theorem Retires.begins_none {ids : List String} (h : Retires ids log) :
    ∀ entry ∈ log, entry.request.begins id = false := by
  cases h with
  | nothing => exact List.forall_mem_nil _
  | withdrawn => exact List.forall_mem_singleton.2 rfl

theorem Terminates.begins_none {failure : Failure} (h : Terminates id failure before log after) :
    ∀ entry ∈ log, entry.request.begins id = false := by
  obtain ⟨-, -, -, -, hretires, -⟩ := h
  refine List.forall_mem_cons.2 ⟨rfl, List.forall_mem_cons.2 ⟨rfl, ?_⟩⟩
  exact List.forall_mem_append.2 ⟨hretires.begins_none, List.forall_mem_singleton.2 rfl⟩

theorem Deed.remembered (hintact : before.Intact id) (h : Deed terms id before log after)
    (hbefore : Remembered id before recent) :
    Remembered id after (Recent.through id log recent) := by
  have hstill (hnone : ∀ entry ∈ log, entry.request.begins id = false) :
      Recent.through id log recent = recent := Recent.through_resting hbefore.resting hnone
  cases h with
  | insert answer hnone hunused hputs =>
      rw [hstill (List.forall_mem_singleton.2 rfl)]
      exact remembered_of_puts hbefore.resting hputs fun _ _ _ _ => settledWell_fresh _ _
  | run owner hsettings hfired hran hsame =>
      have hremembered : Remembered id _ (Recent.through id _ recent) := hran.remembered owner
      refine ⟨hremembered.resting, fun item hitem => ?_⟩
      rw [hsame.items] at hitem
      exact hremembered.settled item hitem
  | terminate hterminates =>
      rw [hstill hterminates.begins_none]
      obtain ⟨item, hdone, hputs⟩ := hterminates.puts
      exact remembered_of_puts hbefore.resting hputs fun _ hopen => by cases hdone.symm.trans hopen
  | record answer hrecording hfound hreadable hopen hputs =>
      rw [hstill (List.forall_mem_singleton.2 rfl)]
      rw [hintact.state hfound] at hputs
      refine remembered_of_puts hbefore.resting hputs fun _ _ hrun haccepted => ?_
      have hsettled := hbefore.settled _ hfound hreadable hopen hrun haccepted
      exact ⟨rfl, hsettled.timed, hsettled.found⟩
  | remove answer hfound hdone hdrops =>
      rw [hstill (List.forall_mem_singleton.2 rfl)]
      refine ⟨hbefore.resting, fun item hitem => ?_⟩
      rw [hdrops.items, if_pos rfl] at hitem
      cases hitem

theorem keptAlong_remembered (terms : Terms) (id : String) :
    KeptAlong terms id (fun _ => True) (Recent.through id) (Remembered id) where
  nil _ := rfl
  append _ _ _ := Recent.through_append
  parts _ := ⟨trivial, trivial⟩
  foreign := Foreign.remembered
  deed _ hintact _ := Deed.remembered hintact

theorem Moves.remembered (hfiled : before.Filed) (hintact : before.Intact id)
    (h : Moves terms before log after) (hbefore : Remembered id before recent) :
    Remembered id after (Recent.through id log recent) :=
  (keptAlong_remembered terms id).moves hfiled hintact h trivial hbefore

/-- Where nothing was refused in the last run of a program, its record shows it, whatever
has happened before and since. -/
theorem settledWell_lastRun {turns : List Turn} (hfiled : before.Filed)
    (hintact : before.Intact id)
    (hfound : (storeAfter turns before).items.find? id = some item)
    (hreadable : item.isReadable = true) (hopen : item.state.isDone = false)
    (hrun : lastRun id (logOf turns before) ≠ [])
    (haccepted : ¬Refused (lastRun id (logOf turns before))) :
    SettledWell item (lastRun id (logOf turns before)) := by
  have hbefore : Remembered id before ⟨false, []⟩ :=
    ⟨rfl, fun _ _ _ _ hnone => absurd rfl hnone⟩
  have hremembered := (moves_free turns hfiled).remembered hfiled hintact hbefore
  exact hremembered.settled item hfound hreadable hopen hrun haccepted

end Queue

end ProgramQueue
