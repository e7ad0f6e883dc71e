import ProgramQueue.Proofs.Disciplines
import ProgramQueue.Proofs.Frames

/-!
# Programs come and go once

Under an id there is one program until it is deleted.  It is deleted only by a command
that deletes, and only if it is over; after that the id is never used again.  Nothing more
happens to a program that is over, except that it may be deleted.
-/

namespace ProgramQueue.Queue

open ProgramQueue.Task (Within within_request within_bind within_bindExcept)

/-- The request does not delete a program. -/
def Request.Keeps : Request → Prop
  | .store (.remove _) => False
  | _ => True

/-- The request does not write a record. -/
def Request.WritesNothing : Request → Prop
  | .store (.insert _) => False
  | .store (.update _ _) => False
  | .store (.save _) => False
  | _ => True

variable {terms : Terms} {settings : Settings} {before after : Store}
  {log : Log Surroundings} {id : String} {item : Item} {program : Program}

/-! ## What the commands ask -/

/-- What is asked in order to hold a program. -/
inductive Request.IsHolding : Request → Prop
  | lock (id : String) : IsHolding (.lock id)
  | unlock (id : String) : IsHolding (.unlock id)
  | wallClock : IsHolding .wallClock
  | tryClaim (id owner : String) (now : Int) (ttl : Nat) :
      IsHolding (.store (.tryClaim id owner now ttl))
  | release (id owner : String) : IsHolding (.store (.release id owner))

/-- Holding a program asks for its own lock and its own claim. -/
theorem within_held {α : Type} {allowed : Request → Prop} {task : Operation (Except Error α)}
    (hlock : allowed (.lock id)) (hclock : allowed .wallClock)
    (hclaim : ∀ now, allowed (.store (.tryClaim id settings.owner now settings.lockTtl)))
    (hrelease : allowed (.store (.release id settings.owner))) (hunlock : allowed (.unlock id))
    (h : task.Within allowed) : (holding settings id task).Within allowed := by
  refine within_bind (within_request hlock) fun _ => ?_
  refine within_bind (within_request hclock) fun now => ?_
  refine within_bind (within_request (hclaim now)) fun claimed => ?_
  have hunlocked (result : Except Error α) :
      (do unlock id; return result : Operation (Except Error α)).Within allowed :=
    within_bind (within_request hunlock) fun _ => trivial
  match claimed with
  | .ok true =>
      refine within_bind h fun result => ?_
      refine within_bind (within_request hrelease) fun _ => ?_
      exact hunlocked result
  | .ok false => exact hunlocked _
  | .error e => exact hunlocked _

theorem within_holding {α : Type} {allowed : Request → Prop}
    {task : Operation (Except Error α)} (hholds : ∀ request : Request, request.IsHolding →
      allowed request) (h : task.Within allowed) :
    (holding settings id task).Within allowed :=
  within_held (hholds _ (.lock id)) (hholds _ .wallClock) (fun _ => hholds _ (.tryClaim ..))
    (hholds _ (.release ..)) (hholds _ (.unlock id)) h

theorem keeps_of_isHolding {request : Request} (h : request.IsHolding) : request.Keeps := by
  cases h <;> trivial

theorem keeps_of_isInner {request : Request} (h : request.IsInner) :
    request.Keeps := by
  cases h with
  | remote hremote => cases hremote <;> trivial
  | get | save => trivial

theorem keeps_of_isPlain {request : Request} (h : request.IsPlain) :
    request.Keeps := by
  cases h with
  | inquiry hinquiry => cases hinquiry <;> trivial
  | insert | get | list | update => trivial

theorem keepsPrograms (settings : Settings) :
    OperationCases settings fun operation => operation.Within Request.Keeps where
  pure _ := trivial
  bind := within_bind
  plain _ hplain := within_request (keeps_of_isPlain hplain)
  run id fired := within_holding (fun _ => keeps_of_isHolding)
    ((within_runHeld settings id fired).imp fun _ => keeps_of_isInner)
  terminate id failure := within_holding (fun _ => keeps_of_isHolding)
    ((within_terminateHeld id failure).imp fun _ => keeps_of_isInner)
  recover := within_bind (within_request trivial) fun _ => within_request trivial

/-- Deleting writes no record. -/
theorem within_removing {command : Command} (h : command.removes = true) :
    (command.operation settings).Within Request.WritesNothing :=
  (within_deleting h).imp fun request hdeletes => by cases hdeletes <;> trivial

/-! ## What can happen to a stored program -/

theorem Ran.saves {fired : Option String} {final : State}
    (h : Ran settings id fired before log final after) :
    ∃ entry ∈ log, ¬entry.request.WritesNothing := by
  cases h with
  | @intro _ item state _ driving settling answer _ _ _ _ _ _ =>
      exact ⟨⟨.store (.save state), .ok ()⟩, by simp, not_false⟩

theorem Terminates.saves {failure : Failure} (h : Terminates id failure before log after) :
    ∃ entry ∈ log, ¬entry.request.WritesNothing := by
  cases h with
  | @intro _ item state retired answer _ _ _ _ _ _ =>
      exact ⟨⟨.store (.save state), .ok ()⟩, by simp, not_false⟩

/-- An unfinished program gets another record; one that is over can only be deleted. -/
theorem Deed.of_found (h : Deed terms id before log after)
    (hfound : before.items.find? id = some item) :
    (item.state.isDone = false ∧ (∃ entry ∈ log, ¬entry.request.WritesNothing) ∧
        ∃ next, next.program = item.program ∧ Store.Puts id next before after) ∨
      item.state.isDone = true ∧ (∃ entry ∈ log, ¬entry.request.Keeps) ∧
        Store.Drops id before after := by
  cases h with
  | insert answer hnone => cases hfound.symm.trans hnone
  | run owner hsettings hfired hran hsame =>
      have hsaves := hran.saves.imp fun _ =>
        And.imp_left (List.mem_append_left [⟨.store (.release id owner), ()⟩])
      obtain ⟨answer, hother, -, hopen, -, -, hputs⟩ := hran
      obtain rfl := Option.some.inj (hfound.symm.trans hother)
      exact Or.inl ⟨hopen, hsaves, _, item.settled_program _ _, hputs.same hsame⟩
  | terminate hterminates =>
      have hsaves := hterminates.saves
      obtain ⟨hother, -, hopen, -, -, hputs⟩ := hterminates
      obtain rfl := Option.some.inj (hfound.symm.trans hother)
      exact Or.inl ⟨hopen, hsaves, _, item.settled_program _ _, hputs⟩
  | record answer hrecording hother hreadable hopen hputs =>
      obtain rfl := Option.some.inj (hfound.symm.trans hother)
      refine Or.inl ⟨hopen, ⟨_, List.mem_cons_self, not_false⟩, _, ?_, hputs⟩
      rfl
  | remove answer hother hdone hdrops =>
      obtain rfl := Option.some.inj (hfound.symm.trans hother)
      exact Or.inr ⟨hdone, ⟨_, List.mem_cons_self, not_false⟩, hdrops⟩

/-- Nothing can happen to a program that was deleted. -/
theorem Deed.not_deleted (h : Deed terms id before log after)
    (hnone : before.items.find? id = none) (hretired : id ∈ before.retired) : False := by
  cases h with
  | insert answer _ hunused => exact hunused hretired
  | run owner hsettings hfired hran =>
      obtain ⟨-, hfound, -⟩ := hran
      cases hfound.symm.trans hnone
  | terminate hterminates =>
      obtain ⟨hfound, -⟩ := hterminates
      cases hfound.symm.trans hnone
  | record answer hrecording hfound => cases hfound.symm.trans hnone
  | remove answer hfound => cases hfound.symm.trans hnone

theorem Foreign.append {middle : Store} {first later : Log Surroundings}
    (hfirst : Foreign id before first middle) (hlater : Foreign id middle later after) :
    Foreign id before (first ++ later) after :=
  ⟨hlater.found.trans hfirst.found, hlater.retired.trans hfirst.retired,
    List.forall_mem_append.2 ⟨hfirst.requests, hlater.requests⟩⟩

theorem Foreign.refl (id : String) (store : Store) : Foreign id store [] store :=
  ⟨rfl, Iff.rfl, List.forall_mem_nil _⟩

/-- Unless something is deleted, nothing has to do with a program that is over. -/
theorem Moves.foreign_done (hfiled : before.Filed) (h : Moves terms before log after)
    (hkeeps : ∀ entry ∈ log, entry.request.Keeps)
    (hfound : before.items.find? id = some item) (hdone : item.state.isDone = true) :
    Foreign id before log after := by
  induction h with
  | nil store => exact .refl id store
  | cons move _ ih =>
      obtain ⟨hfirst, hlater⟩ := List.forall_mem_append.1 hkeeps
      obtain hforeign | hdeed := move.foreign_or_deed hfiled id
      · exact hforeign.append (ih (move.filed hfiled) hlater (hforeign.found.trans hfound))
      · obtain ⟨hopen, -⟩ | ⟨-, ⟨entry, hentry, hdeletes⟩, -⟩ := hdeed.of_found hfound
        · cases hopen.symm.trans hdone
        · exact absurd (hfirst entry hentry) hdeletes

/-- Nothing at all has to do with a program that was deleted. -/
theorem Moves.foreign_deleted (hfiled : before.Filed) (h : Moves terms before log after)
    (hnone : before.items.find? id = none) (hretired : id ∈ before.retired) :
    Foreign id before log after := by
  induction h with
  | nil store => exact .refl id store
  | cons move _ ih =>
      obtain hforeign | hdeed := move.foreign_or_deed hfiled id
      · exact hforeign.append (ih (move.filed hfiled) (hforeign.found.trans hnone)
          (hforeign.retired.2 hretired))
      · exact (hdeed.not_deleted hnone hretired).elim

/-! ## One program under an id -/

/-- The program is stored under the id, or it was deleted. -/
inductive Stands (id : String) (program : Program) (store : Store) : Prop
  | stored (item : Item) (hfound : store.items.find? id = some item)
      (hprogram : item.program = program)
  | deleted (hnone : store.items.find? id = none) (hretired : id ∈ store.retired)

/-- Unless something is deleted, a program that is stored stays the one that is stored. -/
theorem Moves.stored (hfiled : before.Filed) (h : Moves terms before log after)
    (hkeeps : ∀ entry ∈ log, entry.request.Keeps)
    (hfound : before.items.find? id = some item) :
    ∃ later, after.items.find? id = some later ∧ later.program = item.program := by
  induction h generalizing item with
  | nil => exact ⟨item, hfound, rfl⟩
  | cons move _ ih =>
      obtain ⟨hfirst, hlater⟩ := List.forall_mem_append.1 hkeeps
      obtain hforeign | hdeed := move.foreign_or_deed hfiled id
      · exact ih (move.filed hfiled) hlater (hforeign.found.trans hfound)
      · obtain ⟨-, -, next, hprogram, hputs⟩ | ⟨-, ⟨entry, hentry, hdeletes⟩, -⟩ :=
          hdeed.of_found hfound
        · obtain ⟨later, hstored, heq⟩ := ih (move.filed hfiled) hlater hputs.self
          exact ⟨later, hstored, heq.trans hprogram⟩
        · exact absurd (hfirst entry hentry) hdeletes

/-- Where nothing is written, a record is kept; or the program was over and is deleted. -/
theorem Moves.deletes_only (hfiled : before.Filed) (h : Moves terms before log after)
    (hwrites : ∀ entry ∈ log, entry.request.WritesNothing)
    (hfound : before.items.find? id = some item) :
    after.items.find? id = some item ∨
      item.state.isDone = true ∧ after.items.find? id = none ∧ id ∈ after.retired := by
  induction h with
  | nil => exact Or.inl hfound
  | cons move rest ih =>
      obtain ⟨hfirst, hlater⟩ := List.forall_mem_append.1 hwrites
      obtain hforeign | hdeed := move.foreign_or_deed hfiled id
      · exact ih (move.filed hfiled) hlater (hforeign.found.trans hfound)
      · obtain ⟨-, ⟨entry, hentry, hwritten⟩, -⟩ | ⟨hdone, -, hdrops⟩ := hdeed.of_found hfound
        · exact absurd (hfirst entry hentry) hwritten
        · have hnone := (hdrops.items id).trans (if_pos rfl)
          have hforeign := rest.foreign_deleted (move.filed hfiled) hnone
            (hdrops.retired ▸ List.mem_cons_self)
          exact Or.inr ⟨hdone, hforeign.found.trans hnone,
            hforeign.retired.2 (hdrops.retired ▸ List.mem_cons_self)⟩

/-- A new program is stored when it was scheduled, whatever came of running it. -/
theorem schedule_stored (hfiled : before.Filed) (hinsert : (before.insert program).1 = .ok item)
    {result : Except Error State}
    (h : Completes (schedule settings program) before log result after) :
    ∃ later, after.items.find? program.id = some later ∧ later.program = program := by
  obtain ⟨_, answer, inserted, _, -, hstored, hrest⟩ := completes_bind.1 h
  obtain ⟨-, heq⟩ := completes_store.1 hstored
  have hanswer : (before.insert program).1 = answer := congrArg Prod.fst heq
  have hinserted : (before.insert program).2 = inserted := congrArg Prod.snd heq
  obtain ⟨-, -, -, hputs⟩ | ⟨-, hrefused⟩ := before.insert_cases program
  · rw [hinserted] at hputs
    obtain rfl : .ok item = answer := hinsert.symm.trans hanswer
    have hfiled' : inserted.Filed := hfiled.puts hputs ⟨rfl, rfl, nofun⟩
    have hmoves : Moves .free inserted _ after := made_run trivial program.id _ _ _ _ hfiled' hrest
    exact hmoves.stored hfiled'
      (Within.follows ((keepsPrograms settings).run program.id none) hrest.follows) hputs.self
  · rw [hrefused] at hinsert
    cases hinsert

/-! ## Turns -/

namespace Turn

variable {turn : Turn} {store : Store}

theorem completes (turn : Turn) (store : Store) :
    Completes (turn.command.operation turn.settings) store (turn.log store) ()
      (turn.after store) :=
  completes_run turn.host _ ⟨store, turn.outer⟩

theorem moves_free (turn : Turn) (hfiled : store.Filed) :
    Moves .free store (turn.log store) (turn.after store) :=
  turn.moves turn.keeps_free hfiled

theorem keeps_programs (h : turn.command.removes = false) (store : Store) :
    ∀ entry ∈ turn.log store, entry.request.Keeps :=
  Within.follows ((keepsPrograms turn.settings).holds h) (turn.completes store).follows

theorem writes_nothing (h : turn.command.removes = true) (store : Store) :
    ∀ entry ∈ turn.log store, entry.request.WritesNothing :=
  Within.follows (within_removing h) (turn.completes store).follows

/-- A command that deletes leaves every record as it is, or it deletes the program, which
was over. -/
theorem kept_or_deleted (hremoves : turn.command.removes = true) (hfiled : store.Filed)
    (hfound : store.items.find? id = some item) :
    (turn.after store).items.find? id = some item ∨
      item.state.isDone = true ∧ (turn.after store).items.find? id = none ∧
        id ∈ (turn.after store).retired :=
  (turn.moves_free hfiled).deletes_only hfiled (writes_nothing hremoves store) hfound

/-- A program is deleted only by a command that deletes, and only if it is over. -/
theorem deletes_done (hfiled : store.Filed) (hfound : store.items.find? id = some item)
    (hnone : (turn.after store).items.find? id = none) :
    turn.command.removes = true ∧ item.state.isDone = true ∧
      id ∈ (turn.after store).retired := by
  cases hremoves : turn.command.removes with
  | true =>
      obtain hkept | ⟨hdone, -, hretired⟩ := turn.kept_or_deleted hremoves hfiled hfound
      · cases hnone.symm.trans hkept
      · exact ⟨rfl, hdone, hretired⟩
  | false =>
      obtain ⟨later, hstored, -⟩ :=
        (turn.moves_free hfiled).stored hfiled (keeps_programs hremoves store) hfound
      cases hnone.symm.trans hstored

/-- A new program is stored when it was scheduled, whatever came of running it. -/
theorem schedule_stores (hcommand : turn.command = .schedule program) (hfiled : store.Filed)
    (hinsert : (store.insert program).1 = .ok item) :
    ∃ later, (turn.after store).items.find? program.id = some later ∧
      later.program = program := by
  have hturn := turn.completes store
  rw [hcommand] at hturn
  obtain ⟨_, result, _, _, -, hschedule, hdone⟩ := completes_bind.1 hturn
  obtain ⟨-, -, hlast⟩ := completes_pure.1 hdone
  rw [hlast]
  exact schedule_stored hfiled hinsert hschedule

/-- A turn leaves the program that is stored under an id, or deletes it. -/
theorem stands (hfiled : store.Filed) (hfound : store.items.find? id = some item) :
    Stands id item.program (turn.after store) := by
  cases hremoves : turn.command.removes with
  | true =>
      obtain hkept | ⟨-, hnone, hretired⟩ := turn.kept_or_deleted hremoves hfiled hfound
      · exact .stored item hkept rfl
      · exact .deleted hnone hretired
  | false =>
      obtain ⟨later, hstored, hprogram⟩ :=
        (turn.moves_free hfiled).stored hfiled (keeps_programs hremoves store) hfound
      exact .stored later hstored hprogram

end Turn

end ProgramQueue.Queue
