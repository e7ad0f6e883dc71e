import ProgramQueue.Proofs.Drives

/-!
# What the journal of a program and its effect say of each other

The journal of all programs is compared with the effect of one.  Leaves that were
started are no longer left to be started, what the effect shows as completed is in the
journal, and a program that has failed or was stopped is over.  Each of the three is
needed to keep the order in which leaves are started.
-/

namespace ProgramQueue

open ProgramQueue.Task (Follows)
open List (Subperm)

namespace Note

/-- An entry that says what happens to the leaves of a program, or stops it. -/
def Concerns (id : String) : Note → Prop
  | step _ _ => False
  | advance other => other = id
  | execute site => site.programId = id
  | leaf site _ => site.programId = id
  | terminate other _ => other = id

end Note

namespace Journal

/-- The places of the leaves of a program whose steps were started. -/
def started (id : String) (journal : Journal) : List Path :=
  (journal.executed.filter (·.programId = id)).map Site.place

/-- A program was stopped, or went on after a leaf of it had failed. -/
def Halted (id : String) (journal : Journal) : Prop :=
  (∃ failure, Note.terminate id failure ∈ journal) ∨
    ∃ earlier later, journal = earlier ++ .advance id :: later ∧
      ∃ place, Failed earlier ⟨id, place⟩

/-- Whenever a leaf of a program is started it is one of the program's, all that comes
before it has completed, and the program was not halted. -/
def InOrder (program : Program) (journal : Journal) : Prop :=
  ∀ earlier place later, journal = earlier ++ .execute ⟨program.id, place⟩ :: later →
    place ∈ program.action.leaves ∧
    (∀ leaf ∈ program.action.leaves, leaf.Before place →
      Completed earlier ⟨program.id, leaf⟩) ∧
    ¬Halted program.id earlier

/-- What is added keeps the order if the leaves that it starts do. -/
theorem InOrder.append {program : Program} {journal notes : Journal}
    (h : InOrder program journal)
    (hnotes : ∀ between place later,
      notes = between ++ .execute ⟨program.id, place⟩ :: later →
      place ∈ program.action.leaves ∧
      (∀ leaf ∈ program.action.leaves, leaf.Before place →
        Completed (journal ++ between) ⟨program.id, leaf⟩) ∧
      ¬Halted program.id (journal ++ between)) :
    InOrder program (journal ++ notes) := by
  intro earlier place later heq
  obtain ⟨between, rfl, hbetween⟩ | ⟨between, hjournal⟩ := split_append heq
  · exact hnotes between place later hbetween
  · exact h earlier place between hjournal

@[simp]
theorem started_append (id : String) (first later : Journal) :
    started id (first ++ later) = started id first ++ started id later := by
  simp [started]

theorem mem_started {id : String} {journal : Journal} {place : Path} :
    place ∈ started id journal ↔ Note.execute ⟨id, place⟩ ∈ journal := by
  simp only [started, List.mem_map, List.mem_filter, decide_eq_true_eq, mem_executed]
  constructor
  · rintro ⟨site, ⟨hsite, rfl⟩, rfl⟩
    exact hsite
  · intro h
    exact ⟨_, ⟨h, rfl⟩, rfl⟩

theorem started_others {id : String} {notes : Journal}
    (h : ∀ note ∈ notes, ¬note.Concerns id) : started id notes = [] :=
  List.eq_nil_iff_forall_not_mem.2 fun _ hplace => h _ (mem_started.1 hplace) rfl

/-- The places that are started below a site are those of the sites named there. -/
theorem started_reach {site : Site} {notes : Journal} {places : List Path}
    (h : notes.executed = places.map site.reach) :
    started site.programId notes = places.map (site.place ++ ·) := by
  rw [started, h, List.filter_map, List.map_map,
    List.filter_eq_self.2 fun place _ => by simp [Site.reach]]
  rfl

end Journal

namespace Program

/-- What the journal and the effect of a program say of each other. -/
structure Tracked (program : Program) (journal : Journal) (effect : Effect) : Prop where
  /-- No leaf was started twice, and none that was started is left to be started. -/
  left : Subperm (journal.started program.id ++ program.action.unstarted effect)
    program.action.leaves
  /-- What is shown as completed was reported. -/
  shown : ∀ place ∈ program.action.finished effect,
    journal.Completed ⟨program.id, place⟩
  /-- A program that was stopped is over. -/
  stopped : ∀ failure, Note.terminate program.id failure ∈ journal → effect.isDone = true
  /-- A program of which a leaf has failed is over. -/
  failed : ∀ place, journal.Failed ⟨program.id, place⟩ → effect.isDone = true
  inOrder : journal.InOrder program

variable {program : Program} {journal : Journal} {effect : Effect}

/-- A program of which the journal says nothing has not been started. -/
theorem Tracked.fresh (h : ∀ note ∈ journal, ¬note.Concerns program.id) :
    program.Tracked journal .init where
  left := by
    rw [Journal.started_others h, List.nil_append, Action.unstarted_init]
  shown place hplace := by simp at hplace
  stopped failure hmem := absurd rfl (h _ hmem)
  failed place hfailed := by
    obtain ⟨failure, snapshot, hmem⟩ := hfailed
    exact absurd rfl (h _ hmem)
  inOrder earlier place later heq :=
    absurd rfl (h (.execute ⟨program.id, place⟩) (by simp [heq]))

theorem Tracked.others (h : program.Tracked journal effect) {notes : Journal}
    (hnotes : ∀ note ∈ notes, ¬note.Concerns program.id) :
    program.Tracked (journal ++ notes) effect where
  left := by
    rw [Journal.started_append, Journal.started_others hnotes, List.append_nil]
    exact h.left
  shown place hplace := (h.shown place hplace).left _
  stopped failure hmem :=
    (List.mem_append.1 hmem).elim (h.stopped failure) fun hlater => absurd rfl (hnotes _ hlater)
  failed place hfailed := (Journal.failed_append.1 hfailed).elim (h.failed place)
    fun ⟨_, _, hlater⟩ => absurd rfl (hnotes _ hlater)
  inOrder := h.inOrder.append fun between place later heq =>
    absurd rfl (hnotes (.execute ⟨program.id, place⟩) (by simp [heq]))

theorem Tracked.terminate (h : program.Tracked journal effect) (failure : Failure) :
    program.Tracked (journal ++ [.terminate program.id failure]) (.failed failure) where
  left := by
    rw [Effect.failed, Action.unstarted_done, List.append_nil, Journal.started_append,
      show Journal.started program.id [.terminate program.id failure] = [] from rfl,
      List.append_nil]
    exact (List.sublist_append_left _ _).subperm.trans h.left
  shown place hplace := by simp [Effect.failed] at hplace
  stopped _ _ := rfl
  failed _ _ := rfl
  inOrder := h.inOrder.append fun between place later heq => by
    cases between <;> simp at heq

/-- An advance writes of the program's own leaves and of nothing else. -/
theorem notes_of_advance {inlineCap : Nat} {log : Log Journaled} {next : Effect}
    (h : (program.action.advance inlineCap ⟨program.id, []⟩ effect).Follows log next)
    {note : Note} (hnote : note ∈ Journaled.journal log) :
    ∃ place, note = .execute ⟨program.id, place⟩ ∨ ∃ next, note = .leaf ⟨program.id, place⟩ next :=
  (Action.tells inlineCap).holds _ h note hnote

/-- A program that is not over and advances is as before the advance at each leaf that
it starts: nothing has failed, and what comes before the leaf has completed. -/
theorem Tracked.not_halted (h : program.Tracked journal effect) (hopen : effect.isDone = false)
    {inlineCap : Nat} {log : Log Journaled} {next : Effect}
    (hadvance : (program.action.advance inlineCap ⟨program.id, []⟩ effect).Follows log next)
    {between : Journal} (hbetween : ∀ note ∈ between, note ∈ Journaled.journal log) :
    ¬(journal ++ .advance program.id :: between).Halted program.id := by
  have hleaves {note : Note} (hnote : note ∈ between) :=
    notes_of_advance hadvance (hbetween note hnote)
  rintro (⟨failure, hmem⟩ | ⟨earlier, later, heq, place, hfailed⟩)
  · simp only [List.mem_append, List.mem_cons, reduceCtorEq, false_or] at hmem
    obtain hjournal | hlater := hmem
    · rw [h.stopped failure hjournal] at hopen
      cases hopen
    · obtain ⟨place, heq | ⟨next, heq⟩⟩ := hleaves hlater <;> cases heq
  · have hearlier : journal.Failed ⟨program.id, place⟩ := by
      obtain ⟨middle, rfl, hmiddle⟩ | ⟨middle, rfl⟩ := Journal.split_append heq
      · cases middle with
        | nil => rwa [List.append_nil] at hfailed
        | cons note middle =>
            obtain ⟨rfl, rfl⟩ := List.cons.inj hmiddle
            obtain ⟨place, heq | ⟨next, heq⟩⟩ :=
              hleaves (List.mem_append_right middle List.mem_cons_self) <;> cases heq
      · exact Journal.failed_append.2 (Or.inl hfailed)
    rw [h.failed place hearlier] at hopen
    cases hopen

theorem Tracked.advance (h : program.Tracked journal effect) (hopen : effect.isDone = false)
    {inlineCap : Nat} {log : Log Journaled} {next : Effect}
    (hadvance : (program.action.advance inlineCap ⟨program.id, []⟩ effect).Follows log next) :
    program.Tracked (journal ++ .advance program.id :: Journaled.journal log) next := by
  obtain ⟨places, hplaces, hleft, horder⟩ := (Action.starts inlineCap).holds _ hadvance
  have hstarted : Journal.started program.id
      (.advance program.id :: Journaled.journal log) = places := by
    change Journal.started program.id (Journaled.journal log) = places
    rw [Journal.started_reach hplaces]
    exact List.map_id places
  refine ⟨?_, ?_, ?_, ?_, ?_⟩
  · -- what is started was left to be started, so nothing is counted twice
    rw [Journal.started_append, hstarted, List.append_assoc]
    exact ((Subperm.refl _).append hleft).trans h.left
  · intro place hplace
    obtain hbefore | hreported := (Action.finishes inlineCap).holds _ hadvance place hplace
    · exact (h.shown place hbefore).left _
    · rw [← List.singleton_append, ← List.append_assoc]
      exact hreported.right _
  · intro failure hmem
    exact absurd (Or.inl ⟨failure, hmem⟩) (h.not_halted hopen hadvance fun _ hnote => hnote)
  · intro place hfailed
    obtain hbefore | ⟨failure, snapshot, hmem⟩ := Journal.failed_append.1 hfailed
    · rw [h.failed place hbefore] at hopen
      cases hopen
    · have hmem : Note.leaf ⟨program.id, place⟩ (.done (some failure) snapshot) ∈
          Journaled.journal log := by simpa using hmem
      obtain ⟨failure, heq⟩ :=
        (Action.stops inlineCap).holds _ hadvance ⟨_, failure, snapshot, hmem⟩
      obtain ⟨snapshot, rfl⟩ := Effect.failure?_eq_some.1 heq
      rfl
  · refine h.inOrder.append fun between place later heq => ?_
    cases between with
    | nil => simp at heq
    | cons note between =>
        obtain ⟨rfl, hlog⟩ := List.cons.inj heq
        have hplace : place ∈ places := by
          rw [← hstarted, Journal.mem_started, heq]
          exact List.mem_append_right _ List.mem_cons_self
        -- the leaf is one of the program's, those before it were shown as completed when
        -- the advance began, and nothing in the journal up to here has stopped it
        refine ⟨?_, fun leaf hleaf hbefore => ?_, ?_⟩
        · have hunstarted := hleft.subset (List.mem_append_left _ hplace)
          exact h.left.subset (List.mem_append_right _ hunstarted)
        · exact (h.shown leaf (horder place hplace leaf hleaf hbefore)).left _
        · refine h.not_halted hopen hadvance fun note hnote => ?_
          rw [hlog]
          exact List.mem_append_left _ hnote

theorem tracked (inlineCap : Nat) (program : Program) :
    DriveCases inlineCap program fun effect log final => ∀ journal : Journal,
      program.Tracked journal effect →
      program.Tracked (journal ++ Journaled.journal log) final where
  rest effect journal h := by rwa [Journaled.journal_nil, List.append_nil]
  advance effect log next later final hopen hadvance hrest journal h := by
    have := hrest _ (h.advance hopen hadvance)
    simpa using this

end Program

end ProgramQueue
