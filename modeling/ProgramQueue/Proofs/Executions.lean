import ProgramQueue.Proofs.Frames
import ProgramQueue.Proofs.Histories

/-!
# At most once, and in order

Through a whole history, whatever is answered, a leaf of a program is started once at
most.  Then all that comes before it has completed, no leaf of the program had failed
before the advance began, and the program had not been stopped.
-/

namespace ProgramQueue.Queue

open List (Subperm)

variable {terms : Terms} {before after : Store} {log : Log Surroundings}
  {settings : Settings} {program : Program} {id : String} {notes : Journal}

/-- As long as an id is not used, nothing is written of it. -/
def Unused (id : String) (store : Store) (notes : Journal) : Prop :=
  store.items.find? id = none → id ∉ store.retired → ∀ note ∈ notes, ¬note.Concerns id

/-- What the journal says of a program that was accepted: it fits the stored effect as
long as the program is stored, and stays in order when the program is gone. -/
inductive Chronicled (program : Program) (store : Store) (notes : Journal) : Prop
  | stored {item : Item} (hfound : store.items.find? program.id = some item)
      (hprogram : item.program = program)
      (htracked : program.Tracked notes item.state.current)
  | gone (hnone : store.items.find? program.id = none) (hretired : program.id ∈ store.retired)
      (honce : (notes.started program.id).Nodup) (horder : notes.InOrder program)

theorem started_nodup {effect : Effect} (h : program.Tracked notes effect) :
    (notes.started program.id).Nodup := by
  obtain ⟨places, hperm, hsublist⟩ := h.left
  have hnodup := hperm.nodup_iff.1 (hsublist.nodup program.action.leaves_nodup)
  exact hnodup.of_append_left

theorem Chronicled.nodup (h : Chronicled program after notes) :
    (notes.started program.id).Nodup := by
  cases h with
  | stored _ _ htracked => exact started_nodup htracked
  | gone _ _ honce _ => exact honce

theorem Chronicled.inOrder (h : Chronicled program after notes) : notes.InOrder program := by
  cases h with
  | stored _ _ htracked => exact htracked.inOrder
  | gone _ _ _ horder => exact horder

/-! ## What a move keeps -/

theorem Foreign.unused (h : Foreign id before log after) (hunused : Unused id before notes) :
    Unused id after (notes ++ Queue.journal log) := by
  intro hnone hretired note hnote
  rw [h.found] at hnone
  rw [h.retired] at hretired
  obtain hbefore | hlater := List.mem_append.1 hnote
  · exact hunused hnone hretired note hbefore
  · exact fun hconcerns => h.journal note hlater hconcerns.programId

theorem Deed.unused (h : Deed terms id before log after) : Unused id after notes := by
  intro hnone hretired
  have hput {item : Item} (hputs : Store.Puts id item before after) :
      ∀ note ∈ notes, ¬note.Concerns id := by
    rw [hputs.self] at hnone
    cases hnone
  cases h with
  | insert _ _ _ hputs => exact hput hputs
  | run _ _ _ hran hsame =>
      obtain ⟨item, hputs⟩ := hran.puts
      exact hput (hputs.same hsame)
  | terminate hterminates =>
      obtain ⟨item, -, hputs⟩ := hterminates.puts
      exact hput hputs
  | record _ _ _ _ _ hputs => exact hput hputs
  | remove _ _ _ hdrops =>
      rw [hdrops.retired] at hretired
      exact absurd List.mem_cons_self hretired

theorem Foreign.chronicled (h : Foreign program.id before log after)
    (hbefore : Chronicled program before notes) :
    Chronicled program after (notes ++ Queue.journal log) := by
  have hothers : ∀ note ∈ Queue.journal log, ¬note.Concerns program.id := fun note hnote hconcerns =>
    h.journal note hnote hconcerns.programId
  cases hbefore with
  | stored hfound hprogram htracked =>
      exact .stored (h.found.trans hfound) hprogram (htracked.others hothers)
  | gone hnone hretired honce horder =>
      refine .gone (h.found.trans hnone) (h.retired.2 hretired) ?_ ?_
      · rwa [Journal.started_append, Journal.started_others hothers, List.append_nil]
      · exact horder.append fun between place later heq =>
          absurd rfl (hothers (.execute ⟨program.id, place⟩) (by simp [heq]))

theorem Ran.tracked {fired : Option String} {final : State} (hintact : before.Intact program.id)
    (h : Ran settings program.id fired before log final after)
    (hbefore : Chronicled program before notes) :
    Chronicled program after (notes ++ Queue.journal log) := by
  obtain ⟨item, inner, driven, stored, hfound, hfollows, hjournal, hputs, hstored, hcurrent⟩ :=
    h.journal hintact
  cases hbefore with
  | gone hnone => rw [hnone] at hfound; cases hfound
  | stored hfound' hprogram htracked =>
      obtain rfl := Option.some.inj (hfound.symm.trans hfound')
      have hbegun : program.Tracked (notes ++ [.step program.id fired])
          (spendEvent fired item.state).current := by
        rw [spendEvent_current]
        exact htracked.others (by simp [Note.Concerns])
      have hdriven := ((Program.tracked _ _).holds hfollows).1 _ (hprogram ▸ hbegun)
      rw [hprogram, List.append_assoc] at hdriven
      refine .stored hputs.self (hstored.trans hprogram) ?_
      rw [hjournal, hcurrent]
      exact hdriven

theorem Terminates.tracked {failure : Failure}
    (h : Terminates program.id failure before log after)
    (hbefore : Chronicled program before notes) :
    Chronicled program after (notes ++ Queue.journal log) := by
  obtain ⟨item, stored, hfound, hjournal, hputs, hstored, hcurrent⟩ := h.journal
  cases hbefore with
  | gone hnone => rw [hnone] at hfound; cases hfound
  | stored hfound' hprogram htracked =>
      obtain rfl := Option.some.inj (hfound.symm.trans hfound')
      refine .stored hputs.self (hstored.trans hprogram) ?_
      rw [hjournal, hcurrent]
      exact htracked.terminate failure

theorem Deed.chronicled (hintact : before.Intact program.id)
    (h : Deed terms program.id before log after) (hbefore : Chronicled program before notes) : Chronicled program after (notes ++ journal log) := by
  generalize hid : program.id = id at h
  cases h with
  | insert answer hnone hunused hputs =>
      cases hbefore with
      | stored hfound => rw [hid, hnone] at hfound; cases hfound
      | gone _ hretired => exact absurd (hid ▸ hretired) hunused
  | run owner _ _ hran hsame =>
      -- dropping the claim afterwards changes neither the records nor the journal
      subst hid
      rw [journal_append, journal_store, journal_nil, List.append_nil]
      cases hran.tracked hintact hbefore with
      | stored hfound hprogram htracked =>
          exact .stored ((hsame.items _).trans hfound) hprogram htracked
      | gone hnone hretired honce horder =>
          exact .gone ((hsame.items _).trans hnone) (hsame.retired ▸ hretired) honce horder
  | terminate hterminates =>
      subst hid
      exact hterminates.tracked hbefore
  | record answer hrecording hfound _ hopen hputs =>
      subst hid
      rw [journal_store, journal_nil, List.append_nil]
      cases hbefore with
      | gone hnone => rw [hnone] at hfound; cases hfound
      | stored hfound' hprogram htracked =>
          obtain rfl := Option.some.inj (hfound.symm.trans hfound')
          rw [hintact.state hfound] at hputs
          exact .stored hputs.self hprogram htracked
  | remove answer hfound hdone hdrops =>
      subst hid
      rw [journal_store, journal_nil, List.append_nil]
      refine .gone ?_ ?_ hbefore.nodup hbefore.inOrder
      · rw [hdrops.items, if_pos rfl]
      · rw [hdrops.retired]
        exact List.mem_cons_self

theorem keptAlong_unused (terms : Terms) (id : String) :
    KeptAlong terms id (fun _ => True) (fun log notes => notes ++ journal log) (Unused id) where
  nil notes := by rw [journal_nil, List.append_nil]
  append first later notes := by rw [journal_append, List.append_assoc]
  parts _ := ⟨trivial, trivial⟩
  foreign := Foreign.unused
  deed _ _ _ hdeed _ := hdeed.unused

theorem keptAlong_chronicled (terms : Terms) (program : Program) :
    KeptAlong terms program.id (fun _ => True) (fun log notes => notes ++ journal log)
      (Chronicled program) where
  nil notes := by rw [journal_nil, List.append_nil]
  append first later notes := by rw [journal_append, List.append_assoc]
  parts _ := ⟨trivial, trivial⟩
  foreign := Foreign.chronicled
  deed _ hintact _ := Deed.chronicled hintact

theorem Moves.unused (hfiled : before.Filed) (hintact : before.Intact id)
    (h : Moves terms before log after)
    (hbefore : Unused id before notes) : Unused id after (notes ++ journal log) :=
  (keptAlong_unused terms id).moves hfiled hintact h trivial hbefore

theorem Moves.chronicled (hfiled : before.Filed) (hintact : before.Intact program.id)
    (h : Moves terms before log after) (hbefore : Chronicled program before notes) :
    Chronicled program after (notes ++ journal log) :=
  (keptAlong_chronicled terms program).moves hfiled hintact h trivial hbefore

/-! ## Histories -/

/-- Scheduling a program that is accepted begins what the journal says of it. -/
theorem schedule_chronicled {result : Except Error State}
    (haccepted : (before.insert program).1 = .ok (Item.fresh program)) (hfiled : before.Filed)
    (hunused : Unused program.id before notes)
    (h : Completes (schedule settings program) before log result after) :
    Chronicled program after (notes ++ journal log) := by
  obtain ⟨_, answer, middle, running, rfl, hinsert, hrun⟩ := completes_bind.1 h
  obtain ⟨rfl, heq⟩ := completes_store.1 hinsert
  obtain ⟨hanswer, rfl⟩ := Prod.mk.inj heq
  obtain ⟨hnone, hfresh, -, hputs⟩ | ⟨-, hrefused⟩ := before.insert_cases program
  · obtain rfl := hanswer.symm.trans haccepted
    have hintact : (before.insert program).2.Intact program.id := hputs.intact rfl
    have hstored : Chronicled program _ notes :=
      .stored hputs.self rfl (.fresh (hunused hnone hfresh))
    have hfiled : (before.insert program).2.Filed := hfiled.puts hputs ⟨rfl, rfl, nofun⟩
    have hsettings : Terms.free.settings settings := trivial
    have hmoves : Moves .free _ running after :=
      made_run hsettings program.id _ _ _ _ hfiled hrun
    rw [journal_append, journal_store, journal_nil, List.nil_append]
    exact hmoves.chronicled hfiled hintact hstored
  · rw [hrefused] at haccepted
    cases haccepted

theorem Turn.chronicled {turn : Turn} (hschedule : turn.command = .schedule program)
    {store : Store} (haccepted : (store.insert program).1 = .ok (Item.fresh program))
    (hfiled : store.Filed) (hunused : Unused program.id store notes) :
    Chronicled program (turn.after store) (notes ++ journal (turn.log store)) := by
  have h := completes_run turn.host (turn.command.operation turn.settings) ⟨store, turn.outer⟩
  rw [hschedule] at h
  obtain ⟨_, _, _, _, heq, hscheduled, hdone⟩ := completes_bind.1 h
  obtain ⟨rfl, -, hsame⟩ := completes_pure.1 hdone
  rw [List.append_nil] at heq
  unfold log Turn.after
  rw [hschedule, heq, hsame]
  exact schedule_chronicled haccepted hfiled hunused hscheduled

/-- In a history in which a program was scheduled and accepted, each of its leaves is
started once at most, and only when its turn has come. -/
theorem executes_once_in_order (past later : List Turn) {turn : Turn} {program : Program}
    (hschedule : turn.command = .schedule program)
    (haccepted : ((storeAfter past .empty).insert program).1 = .ok (Item.fresh program)) :
    ((journal (logOf (past ++ turn :: later) .empty)).started program.id).Nodup ∧
      (journal (logOf (past ++ turn :: later) .empty)).InOrder program := by
  have hpast := moves_free past .empty
  have hfiled := filed_storeAfter past
  -- until the program is accepted its id is not used, so nothing was written of it
  have hempty : Unused program.id .empty [] := fun _ _ => nofun
  have hunused : Unused program.id (storeAfter past .empty) (journal (logOf past .empty)) :=
    hpast.unused .empty (.empty _) hempty
  have hturn := turn.moves turn.keeps_free hfiled
  have hintact := hturn.intact hfiled (intact_storeAfter past program.id)
  have hscheduled := Turn.chronicled hschedule haccepted hfiled hunused
  have hlater := moves_free later (hturn.filed hfiled)
  have h : Chronicled program (storeAfter later (turn.after (storeAfter past .empty)))
      (journal (logOf (past ++ turn :: later) .empty)) := by
    rw [logOf_append, journal_append, logOf, journal_append, ← List.append_assoc]
    exact hlater.chronicled (hturn.filed hfiled) hintact hscheduled
  exact ⟨h.nodup, h.inOrder⟩

/-- The queue begins to show the messages, and goes on with them later. -/
def messageTurns : List Turn :=
  [.granted 1 1 (.schedule messages), .granted 2 9 .resumeDue, .granted 3 9 .resumeDue]

/-- Each message is shown once, and the second one after the first. -/
theorem messages_once_in_order :
    (Store.empty.insert messages).1 = .ok (Item.fresh messages) ∧
      journal (logOf messageTurns .empty) =
        [.step messages.id none, .advance messages.id,
          .execute ⟨messages.id, [.seq 0]⟩, .leaf ⟨messages.id, [.seq 0]⟩ .completed,
          .step messages.id none, .advance messages.id,
          .execute ⟨messages.id, [.seq 1]⟩, .leaf ⟨messages.id, [.seq 1]⟩ .completed] ∧
      ((journal (logOf messageTurns .empty)).started messages.id).Nodup ∧
      (journal (logOf messageTurns .empty)).InOrder messages := by
  have hschedule : (Turn.granted 1 1 (.schedule messages)).command = .schedule messages := rfl
  have haccepted : (Store.empty.insert messages).1 = .ok (Item.fresh messages) := rfl
  refine ⟨haccepted, by decide +kernel, ?_⟩
  exact executes_once_in_order [] [.granted 2 9 .resumeDue, .granted 3 9 .resumeDue]
    hschedule haccepted

end ProgramQueue.Queue
