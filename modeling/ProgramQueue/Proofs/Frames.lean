import ProgramQueue.Proofs.Moves
import ProgramQueue.Proofs.Tracking

/-!
# What moves leave alone

What happens to one program is foreign to every other: the record of the other stays as
it is, the journal says nothing of it, and the push server is told nothing of its
events.
-/

namespace ProgramQueue

open ProgramQueue.Task (Follows)

namespace Note

/-- The program that an entry is about. -/
def programId : Note → String
  | step id _ => id
  | advance id => id
  | execute site => site.programId
  | leaf site _ => site.programId
  | terminate id _ => id

/-- The event that a program goes on because of. -/
def fired? : Note → Option String
  | step _ fired => fired
  | _ => none

theorem Concerns.programId {id : String} {note : Note} (h : note.Concerns id) :
    note.programId = id := by
  cases note with
  | step => cases h
  | _ => exact h

end Note

namespace Program

/-- A drive writes of its own program only, and of no event. -/
theorem notesOwn (inlineCap : Nat) (program : Program) :
    DriveCases inlineCap program fun _ log _ =>
      ∀ note ∈ Journaled.journal log, note.programId = program.id ∧ note.fired? = none where
  rest _ := nofun
  advance effect log next later final _ hadvance hrest note hnote := by
    simp only [List.cons_append, Journaled.journal_note, Journaled.journal_append,
      List.mem_cons, List.mem_append] at hnote
    obtain rfl | hlog | hlater := hnote
    · exact ⟨rfl, rfl⟩
    · obtain ⟨place, rfl | ⟨next, rfl⟩⟩ := notes_of_advance hadvance hlog <;> exact ⟨rfl, rfl⟩
    · exact hrest note hlater

end Program

namespace Queue

def Request.note? : Request → Option Note
  | .note entry => some entry
  | _ => none

/-- What a log of the queue writes into the journal. -/
def journal (log : Log Surroundings) : Journal :=
  log.filterMap fun entry => entry.request.note?

@[simp]
theorem journal_nil : journal [] = [] := rfl

@[simp]
theorem journal_append (first later : Log Surroundings) :
    journal (first ++ later) = journal first ++ journal later :=
  List.filterMap_append

@[simp]
theorem journal_note (entry : Note) (answer : Unit) (log : Log Surroundings) :
    journal (⟨.note entry, answer⟩ :: log) = entry :: journal log := rfl

@[simp]
theorem journal_store (request : Store.Request) (answer : request.Answer)
    (log : Log Surroundings) : journal (⟨.store request, answer⟩ :: log) = journal log := rfl

/-- A request has nothing to do with a program: it does not write of it, and it tells
the push server nothing of its events. -/
def Request.IsForeign (id : String) : Request → Prop
  | .note entry =>
      entry.programId ≠ id ∧ ∀ event ∈ entry.fired?, Push.programIdOf? event ≠ some id
  | .push (.updateLogin update) =>
      (∀ event ∈ update.events, Push.programIdOf? event.eventId ≠ some id) ∧
        ∀ event ∈ update.removeEvents, Push.programIdOf? event ≠ some id
  | _ => True

/-- A part of an operation that has nothing to do with a program. -/
structure Foreign (id : String) (before : Store) (log : Log Surroundings) (after : Store) :
    Prop where
  found : after.items.find? id = before.items.find? id
  retired : id ∈ after.retired ↔ id ∈ before.retired
  requests : ∀ entry ∈ log, entry.request.IsForeign id

variable {terms : Terms} {before after : Store} {log : Log Surroundings}
  {settings : Settings} {program : Program} {id other : String}

/-- Nothing is written of a program that is not concerned. -/
theorem Foreign.journal (h : Foreign id before log after) :
    ∀ note ∈ Queue.journal log, note.programId ≠ id := by
  intro note hnote
  obtain ⟨entry, hentry, heq⟩ := List.mem_filterMap.1 hnote
  obtain ⟨request, answer⟩ := entry
  cases request <;> simp only [Request.note?, Option.some.injEq, reduceCtorEq] at heq
  exact heq ▸ (h.requests _ hentry).1

theorem isForeign_of_isQuiet {request : Request} (h : request.isQuiet = true) (id : String) :
    request.IsForeign id := by
  cases request with
  | note => cases h
  | push request =>
      cases request with
      | updateLogin => cases h
      | updateDevice => trivial
      | loginEvents => trivial
  | outside => trivial
  | wallClock => trivial
  | store => trivial
  | lock => trivial
  | unlock => trivial

/-- Where nothing happens, nothing happens to a program. -/
theorem Quiet.foreign (h : Quiet before log after) (id : String) : Foreign id before log after where
  found := h.same.items id
  retired := by rw [h.same.retired]
  requests entry hentry := isForeign_of_isQuiet (h.silent entry hentry) id

/-! ## Requests with which a program is settled -/

/-- A request with which a program is settled is quiet, or it tells the server of events
that are wanted and withdraws events that are listed. -/
inductive Request.Settling (listed wanted : List String) : Request → Prop
  | quiet {request : Request} (h : request.isQuiet = true) : Settling listed wanted request
  | update {update : Push.LoginUpdate}
      (hsent : ∀ event ∈ update.events, event.eventId ∈ wanted)
      (hremoved : ∀ event ∈ update.removeEvents, event ∈ listed) :
      Settling listed wanted (.push (.updateLogin update))

variable {listed wanted : List String}

theorem Silent.settling (h : Silent log) :
    ∀ entry ∈ log, entry.request.Settling listed wanted :=
  fun entry hentry => .quiet (h entry hentry)

theorem Retires.settling (h : Retires listed log) :
    ∀ entry ∈ log, entry.request.Settling listed wanted := by
  cases h with
  | nothing => exact List.forall_mem_nil _
  | withdrawn => exact List.forall_mem_singleton.2 (.update (List.forall_mem_nil _) fun _ hevent => hevent)

theorem registrationUpdate_settling {lookups : Log Outside} {effect : Effect}
    {events : List Push.Event} (hprepared : Prepared settings program effect lookups events) :
    (Request.push (.updateLogin (registrationUpdate listed events))).Settling listed
      (program.wantedIds effect) := by
  refine .update (fun event hsent => ?_) fun event hremoved => (mem_removed.1 hremoved).1
  rw [← hprepared.ids]
  exact List.mem_map_of_mem (mem_sent.1 hsent).1

theorem Settles.settling {state final : State}
    (h : Settles settings program state log final) :
    ∀ entry ∈ log, entry.request.Settling state.pushEventIds
      (program.wantedIds state.current) := by
  cases h with
  | finished _ hretires htoasted =>
      refine List.forall_mem_append.2 ⟨hretires.settling, fun entry hentry => ?_⟩
      obtain ⟨message, heq⟩ := htoasted entry hentry
      exact .quiet (by rw [heq]; rfl)
  | missed _ hasked =>
      exact List.forall_mem_cons.2 ⟨.quiet rfl, (silent_asked hasked).settling⟩
  | refused _ hasked _ hprepared =>
      refine List.forall_mem_cons.2 ⟨.quiet rfl, List.forall_mem_append.2 ⟨?_, ?_⟩⟩
      · exact (silent_asked hasked).settling
      · exact List.forall_mem_singleton.2 (registrationUpdate_settling hprepared)
  | registered _ hasked _ hprepared htold =>
      refine List.forall_mem_cons.2 ⟨.quiet rfl, List.forall_mem_append.2 ⟨?_, ?_⟩⟩
      · exact (silent_asked hasked).settling
      · rw [htold]
        split
        · exact List.forall_mem_nil _
        · exact List.forall_mem_singleton.2 (registrationUpdate_settling hprepared)

theorem Request.Settling.note? {request : Request} (h : request.Settling listed wanted) :
    request.note? = none := by
  cases h with
  | quiet hquiet => cases request <;> first | rfl | cases hquiet
  | update => rfl

/-- Settling one program concerns no other. -/
theorem Request.Settling.isForeign {request : Request} (h : request.Settling listed wanted)
    (hlisted : ∀ event ∈ listed, Push.programIdOf? event ≠ some id)
    (hwanted : ∀ event ∈ wanted, Push.programIdOf? event ≠ some id) :
    request.IsForeign id := by
  cases h with
  | quiet hquiet => exact isForeign_of_isQuiet hquiet id
  | update hsent hremoved =>
      exact ⟨fun event hevent => hwanted _ (hsent event hevent),
        fun event hevent => hlisted event (hremoved event hevent)⟩

/-! ## Journals of the parts of a run -/

theorem journal_settling (h : ∀ entry ∈ log, entry.request.Settling listed wanted) :
    journal log = [] :=
  List.filterMap_eq_nil_iff.2 fun entry hentry => (h entry hentry).note?

theorem journal_kept {inner : Log Journaled} (h : Kept inner log) :
    journal log = Journaled.journal inner := by
  induction h with
  | nil => rfl
  | @cons request answer inner outer _ ih =>
      cases request with
      | note entry => exact congrArg (entry :: ·) ih
      | ask query => exact ih

/-- The journal of a run tells that it begins, and then what the drive writes. -/
theorem Drives.journal {fired : Option String} {item : Item} {state : State}
    (h : Drives settings id fired item log state) :
    ∃ inner driven, state.current = driven.current ∧
      (item.program.driveJournaled settings.inlineCap settings.maxSteps
        (spendEvent fired item.state)).Follows inner driven ∧
      Queue.journal log = .step id fired :: Journaled.journal inner := by
  obtain @⟨inner, outer, driven, now, hkept, hdrives⟩ := h
  refine ⟨inner, driven, rfl, hdrives, ?_⟩
  rw [journal_note, journal_append, journal_kept hkept]
  exact congrArg (_ :: ·) (List.append_nil _)

/-- A run writes what its drive writes, and stores the effect that the drive left. -/
theorem Ran.journal {fired : Option String} {final : State} (hintact : before.Intact id)
    (h : Ran settings id fired before log final after) :
    ∃ item inner driven stored, before.items.find? id = some item ∧
      (item.program.driveJournaled settings.inlineCap settings.maxSteps
        (spendEvent fired item.state)).Follows inner driven ∧
      Queue.journal log = .step id fired :: Journaled.journal inner ∧
      Store.Puts id stored before after ∧ stored.program = item.program ∧
      stored.state.current = driven.current := by
  cases h with
  | @intro _ item state _ driving settling answer hfound _ _ hdrives hsettles hputs =>
      rw [hintact _ hfound] at hdrives
      obtain ⟨inner, driven, hcurrent, hfollows, hjournal⟩ := hdrives.journal
      refine ⟨item, inner, driven, _, hfound, hfollows, ?_, hputs, item.settled_program _ _, ?_⟩
      · simp [hjournal, journal_settling hsettles.settling]
      · rw [← hcurrent]
        unfold Item.settled
        split
        · exact congrArg (·.getD .init) hsettles.state.2
        · rfl

theorem Terminates.journal {failure : Failure} (h : Terminates id failure before log after) :
    ∃ item stored, before.items.find? id = some item ∧
      Queue.journal log = [.terminate id failure] ∧
      Store.Puts id stored before after ∧ stored.program = item.program ∧
      stored.state.current = .failed failure := by
  cases h with
  | @intro _ item state retired answer hfound _ _ hstate hretires hputs =>
      refine ⟨item, _, hfound, ?_, hputs, item.settled_program _ _, ?_⟩
      · have hretired : Queue.journal retired = [] :=
          journal_settling (hretires.settling : ∀ entry ∈ retired, Request.Settling _ [] _)
        simp [hretired]
      · subst hstate
        unfold Item.settled
        split <;> rfl

/-! ## Requests of the parts of a run -/

theorem isForeign_of_silent (h : Silent log) (id : String) :
    ∀ entry ∈ log, entry.request.IsForeign id := fun entry hentry =>
  isForeign_of_isQuiet (h entry hentry) id

theorem isForeign_kept {inner : Log Journaled} (h : Kept inner log)
    (hnotes : ∀ note ∈ Journaled.journal inner, note.programId ≠ id ∧ note.fired? = none) :
    ∀ entry ∈ log, entry.request.IsForeign id := by
  intro entry hentry
  obtain ⟨note, hnote, heq⟩ | ⟨query, heq⟩ := mem_kept h hentry
  · obtain ⟨hne, hnone⟩ := hnotes note hnote
    rw [heq]
    exact ⟨hne, by simp [hnone]⟩
  · rw [heq]
    trivial

theorem programIdOf?_ne {event : String} (h : Push.programIdOf? event = some other)
    (hne : other ≠ id) : Push.programIdOf? event ≠ some id := by
  rw [h]
  exact fun heq => hne (Option.some.inj heq)

theorem Drives.isForeign {fired : Option String} {item : Item} {state : State}
    (h : Drives settings other fired item log state) (hprogram : item.program.id = other)
    (hne : other ≠ id) (hfired : ∀ event ∈ fired, Push.programIdOf? event = some other) :
    ∀ entry ∈ log, entry.request.IsForeign id := by
  obtain ⟨hkept, hfollows⟩ := h
  have hown := ((Program.notesOwn _ _).holds hfollows).1
  have hstep : (Request.note (.step other fired)).IsForeign id :=
    ⟨hne, fun event hevent => programIdOf?_ne (hfired event hevent) hne⟩
  refine List.forall_mem_cons.2 ⟨hstep, List.forall_mem_append.2 ⟨?_, ?_⟩⟩
  · refine isForeign_kept hkept fun note hnote => ?_
    obtain ⟨howner, hnone⟩ := hown note hnote
    exact ⟨by rwa [howner, hprogram], hnone⟩
  · exact List.forall_mem_singleton.2 trivial

/-- A run of one program concerns no other. -/
theorem Ran.isForeign {fired : Option String} {final : State} (hfiled : before.Filed)
    (hne : other ≠ id) (hfired : ∀ event ∈ fired, Push.programIdOf? event = some other)
    (h : Ran settings other fired before log final after) :
    ∀ entry ∈ log, entry.request.IsForeign id := by
  cases h with
  | @intro _ item state _ driving settling answer hfound _ _ hdrives hsettles _ =>
      have hitem := hfiled _ _ hfound
      have hlisted : ∀ event ∈ state.pushEventIds, Push.programIdOf? event ≠ some id := by
        intro event hevent
        rw [hdrives.state.2] at hevent
        exact programIdOf?_ne (hitem.transcribed.events event (mem_spendEvent hevent)) hne
      have hwanted : ∀ event ∈ item.program.wantedIds state.current,
          Push.programIdOf? event ≠ some id := fun event hevent =>
        programIdOf?_ne (programIdOf?_wantedIds hevent) (hitem.program ▸ hne)
      have hsettling : ∀ entry ∈ settling, entry.request.IsForeign id := fun entry hentry =>
        (hsettles.settling entry hentry).isForeign hlisted hwanted
      refine List.forall_mem_append.2 ⟨hdrives.isForeign hitem.program hne hfired, ?_⟩
      refine List.forall_mem_cons.2 ⟨trivial, List.forall_mem_append.2 ⟨hsettling, ?_⟩⟩
      exact List.forall_mem_singleton.2 trivial

theorem Terminates.isForeign {failure : Failure} (hfiled : before.Filed) (hne : other ≠ id)
    (h : Terminates other failure before log after) :
    ∀ entry ∈ log, entry.request.IsForeign id := by
  cases h with
  | @intro _ item state retired answer hfound _ _ hstate hretires _ =>
      have hitem := hfiled _ _ hfound
      have hlisted : ∀ event ∈ state.pushEventIds, Push.programIdOf? event ≠ some id := by
        intro event hevent
        rw [hstate] at hevent
        exact programIdOf?_ne (hitem.events event hevent) hne
      have hretired : ∀ entry ∈ retired, entry.request.IsForeign id := fun entry hentry =>
        ((hretires.settling entry hentry : Request.Settling _ [] _)).isForeign hlisted
          (List.forall_mem_nil _)
      refine List.forall_mem_cons.2 ⟨⟨hne, nofun⟩, List.forall_mem_cons.2 ⟨trivial, ?_⟩⟩
      exact List.forall_mem_append.2 ⟨hretired, List.forall_mem_singleton.2 trivial⟩

/-- What happens to one program is foreign to every other. -/
theorem Deed.foreign (hfiled : before.Filed) (hne : other ≠ id)
    (h : Deed terms other before log after) : Foreign id before log after := by
  cases h with
  | insert _ _ _ hputs =>
      exact ⟨hputs.other hne.symm, by rw [hputs.retired], List.forall_mem_singleton.2 trivial⟩
  | run owner hsettings hfired hran hsame =>
      obtain ⟨item, hputs⟩ := hran.puts
      refine ⟨(hsame.items id).trans (hputs.other hne.symm), ?_, List.forall_mem_append.2 ⟨?_, ?_⟩⟩
      · rw [hsame.retired, hputs.retired]
      · exact hran.isForeign hfiled hne hfired
      · exact List.forall_mem_singleton.2 trivial
  | terminate hterminates =>
      obtain ⟨item, -, hputs⟩ := hterminates.puts
      exact ⟨hputs.other hne.symm, by rw [hputs.retired], hterminates.isForeign hfiled hne⟩
  | record _ _ _ _ _ hputs =>
      exact ⟨hputs.other hne.symm, by rw [hputs.retired], List.forall_mem_singleton.2 trivial⟩
  | remove _ _ _ hdrops =>
      refine ⟨?_, ?_, List.forall_mem_singleton.2 trivial⟩
      · rw [hdrops.items, if_neg hne.symm]
      · rw [hdrops.retired, List.mem_cons]
        exact or_iff_right hne.symm

/-- A move is foreign to a program, or it is a deed of it. -/
theorem Move.foreign_or_deed (hfiled : before.Filed) (h : Move terms before log after)
    (id : String) : Foreign id before log after ∨ Deed terms id before log after := by
  cases h with
  | quiet hquiet => exact Or.inl (hquiet.foreign id)
  | @deed _ _ other hdeed =>
      by_cases hne : other = id
      · exact Or.inr (hne ▸ hdeed)
      · exact Or.inl (hdeed.foreign hfiled hne)

theorem Moves.intact (hfiled : before.Filed) (hintact : before.Intact id)
    (h : Moves terms before log after) : after.Intact id := by
  induction h with
  | nil => exact hintact
  | cons move _ ih =>
      refine ih (move.filed hfiled) ?_
      obtain hforeign | hdeed := move.foreign_or_deed hfiled id
      · exact fun item hitem => hintact item (hforeign.found ▸ hitem)
      · exact hdeed.intact hintact

/-- What is remembered of a program along a log, and what holds of it and of the store.  It is
kept by the deeds of the program and by all that has nothing to do with the program. -/
structure KeptAlong {memory : Type} (terms : Terms) (id : String)
    (allowed : Log Surroundings → Prop) (through : Log Surroundings → memory → memory)
    (holds : Store → memory → Prop) : Prop where
  nil : ∀ kept, through [] kept = kept
  append : ∀ first later kept, through (first ++ later) kept = through later (through first kept)
  parts : ∀ {first later}, allowed (first ++ later) → allowed first ∧ allowed later
  foreign : ∀ {before log after kept}, Foreign id before log after → holds before kept →
    holds after (through log kept)
  deed : ∀ {before log after kept}, before.Filed → before.Intact id → allowed log →
    Deed terms id before log after → holds before kept → holds after (through log kept)

theorem KeptAlong.moves {memory : Type} {allowed : Log Surroundings → Prop}
    {through : Log Surroundings → memory → memory} {holds : Store → memory → Prop}
    (hkept : KeptAlong terms id allowed through holds) (hfiled : before.Filed)
    (hintact : before.Intact id) (h : Moves terms before log after) (hallowed : allowed log)
    {kept : memory} (hbefore : holds before kept) : holds after (through log kept) := by
  induction h generalizing kept with
  | nil => rwa [hkept.nil]
  | cons move _ ih =>
      obtain ⟨hfirst, hlater⟩ := hkept.parts hallowed
      rw [hkept.append]
      refine ih (move.filed hfiled) ((Moves.single move).intact hfiled hintact) hlater ?_
      obtain hforeign | hdeed := move.foreign_or_deed hfiled id
      · exact hkept.foreign hforeign hbefore
      · exact hkept.deed hfiled hintact hfirst hdeed hbefore

end Queue

end ProgramQueue
