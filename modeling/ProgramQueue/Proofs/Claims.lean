import ProgramQueue.Proofs.Batches
import ProgramQueue.Proofs.Overlaps

/-!
# Whose claims are dropped

An operation drops the claims that it makes, whatever comes in between.  A claim of someone
else goes only if it counts as abandoned when its program is acted on, or together with its
program; and whoever finds a program held does nothing at all.
-/

namespace ProgramQueue

/-- No program is claimed by this owner. -/
def Store.UnclaimedBy (owner : String) (store : Store) : Prop :=
  ∀ id claim, store.claims.find? id = some claim → claim.owner ≠ owner

/-- An event of the program is reported as fired. -/
def Push.EventStatus.Reports (status : Push.EventStatus) (id : String) : Prop :=
  status.state = .triggered ∧ Push.programIdOf? status.eventId = some id

namespace Queue

open ProgramQueue.Task (Within within_request)

variable {α β : Type} {settings : Settings} {before middle after : Store}
  {log first later : Log Surroundings} {id : String} {acts : String → Prop}

/-! ## What happens to the claims under an id -/

/-- A claim counts as abandoned at a time that was read. -/
def Lapses (settings : Settings) (log : Log Surroundings) (claim : Claim) : Prop :=
  ∃ now, ⟨.wallClock, now⟩ ∈ log ∧ claim.claimedAt + settings.lockTtl * 1000 ≤ now

/-- Under an id stands the claim that was there before, or none; and what is gone was the
queue's own, or it had lapsed for a program that is acted on. -/
def Spares (settings : Settings) (acts : String → Prop) (before : Store)
    (log : Log Surroundings) (after : Store) : Prop :=
  ∀ id, after.claims.find? id = before.claims.find? id ∨
    after.claims.find? id = none ∧ ∀ claim, before.claims.find? id = some claim →
      claim.owner ≠ settings.owner → acts id ∧ Lapses settings log claim

theorem Lapses.mono {claim : Claim} (h : Lapses settings first claim) (hlog : first ⊆ later) :
    Lapses settings later claim := by
  obtain ⟨now, hread, hexpired⟩ := h
  exact ⟨now, hlog hread, hexpired⟩

theorem Spares.of_claims (h : after.claims = before.claims) :
    Spares settings acts before log after := fun id => Or.inl (by rw [h])

theorem Spares.append (hfirst : Spares settings acts before first middle)
    (hlater : Spares settings acts middle later after) :
    Spares settings acts before (first ++ later) after := by
  intro id
  obtain hkept | ⟨hnone, hgone⟩ := hfirst id
  · obtain hsame | ⟨hnone, hgone⟩ := hlater id
    · exact Or.inl (hsame.trans hkept)
    · refine Or.inr ⟨hnone, fun claim hfound howner => ?_⟩
      obtain ⟨hacts, hlapses⟩ := hgone claim (hkept.trans hfound) howner
      exact ⟨hacts, hlapses.mono (List.subset_append_right _ _)⟩
  · have hstill : after.claims.find? id = none := by
      obtain hsame | ⟨hnone', -⟩ := hlater id
      · exact hsame.trans hnone
      · exact hnone'
    refine Or.inr ⟨hstill, fun claim hfound howner => ?_⟩
    obtain ⟨hacts, hlapses⟩ := hgone claim hfound howner
    exact ⟨hacts, hlapses.mono (List.subset_append_left _ _)⟩

theorem Spares.imp {more : String → Prop} (h : Spares settings acts before log after)
    (hmore : ∀ id, acts id → more id) : Spares settings more before log after := by
  intro id
  refine (h id).imp_right ?_
  rintro ⟨hnone, hgone⟩
  exact ⟨hnone, fun claim hfound howner => (hgone claim hfound howner).imp_left (hmore id)⟩

/-- Where the queue had no claim, it has none. -/
theorem Spares.unclaimed (h : Spares settings acts before log after)
    (hnone : before.UnclaimedBy settings.owner) : after.UnclaimedBy settings.owner := by
  intro id claim hfound
  obtain hsame | ⟨hgone, -⟩ := h id
  · exact hnone id claim (hsame.symm.trans hfound)
  · cases hgone.symm.trans hfound

/-! ## Operations that run programs -/

/-- Whatever is answered, an operation spares the claims of others. -/
def Sparing (settings : Settings) (acts : String → Prop) (operation : Operation α) : Prop :=
  ∀ before log value after, Completes operation before log value after →
    Spares settings acts before log after

theorem Sparing.imp {operation : Operation α} {more : String → Prop}
    (h : Sparing settings acts operation) (hmore : ∀ id, acts id → more id) :
    Sparing settings more operation :=
  fun before log value after hcompletes => (h before log value after hcompletes).imp hmore

theorem sparing_leaves {operation : Operation α} (h : operation.Within Request.LeavesClaims) :
    Sparing settings acts operation := by
  intro before log value after hcompletes
  refine .of_claims (hcompletes.serves.claims fun entry hentry own heq => ?_)
  rw [← heq]
  exact h.follows hcompletes.follows entry hentry

theorem sparing_pure (value : α) : Sparing settings acts (pure value) :=
  sparing_leaves trivial

theorem sparing_bind {operation : Operation α} {next : α → Operation β}
    (hfirst : Sparing settings acts operation)
    (hnext : ∀ value, Sparing settings acts (next value)) :
    Sparing settings acts (operation >>= next) := by
  intro before log result after h
  obtain ⟨first, value, middle, later, rfl, hbefore, hafter⟩ := completes_bind.1 h
  exact (hfirst _ _ _ _ hbefore).append (hnext value _ _ _ _ hafter)

theorem sparing_bindExcept {attempt : Attempt α} {next : α → Attempt β}
    (hfirst : Sparing settings acts attempt.run)
    (hnext : ∀ value, Sparing settings acts (next value).run) :
    Sparing settings acts (attempt >>= next).run := by
  refine sparing_bind hfirst fun result => ?_
  cases result with
  | error e => exact sparing_pure _
  | ok value => exact hnext value

theorem sparing_lift {operation : Operation α} (h : Sparing settings acts operation) :
    Sparing settings acts (ExceptT.lift operation : Attempt α).run :=
  sparing_bind h fun _ => sparing_pure _

/-- The claim that is made is dropped, whatever the task comes to, and it takes the place of
one that has lapsed at most. -/
theorem sparing_holding (hacts : acts id) {task : Operation (Except Error α)}
    (h : task.Within Request.LeavesClaims) :
    Sparing settings acts (holding settings id task) := by
  intro before log result after hcompletes
  obtain ⟨now, answer, e, -, -, rfl⟩ | ⟨now, held, began, ended, rfl, hclaim, htask, rfl⟩ :=
    completes_holding hcompletes
  · exact .of_claims rfl
  have hgranted : (before.tryClaim id settings.owner now settings.lockTtl).1 = .ok true :=
    congrArg Prod.fst hclaim
  have hbegan : (before.tryClaim id settings.owner now settings.lockTtl).2 = began :=
    congrArg Prod.snd hclaim
  have hkept : ended.claims = began.claims :=
    htask.serves.claims fun entry hentry own heq => heq ▸ h.follows htask.follows entry hentry
  have hown : ended.claims.find? id = some ⟨settings.owner, now⟩ := by
    rw [hkept, ← hbegan]
    exact Store.tryClaim_claimed hgranted
  intro key
  by_cases hkey : key = id
  · subst hkey
    refine Or.inr ⟨?_, fun claim hfound howner => ⟨hacts, now, by simp, ?_⟩⟩
    · rw [Store.release_own hown rfl, if_pos rfl]
    · exact Store.tryClaim_expired hgranted hfound howner
  · rw [Store.release_other hkey, hkept, ← hbegan, Store.tryClaim_other hkey]
    exact Or.inl rfl

theorem sparing_heldRun (hacts : acts id) (fired : Option String) :
    Sparing settings acts (holding settings id (runHeld settings id fired).run) :=
  sparing_holding hacts ((within_runHeld settings id fired).imp fun _ => leaves_of_inner)

theorem sparing_terminate (hacts : acts id) (failure : Failure) :
    Sparing settings acts (terminate settings id failure) :=
  sparing_holding hacts ((within_terminateHeld id failure).imp fun _ => leaves_of_inner)

theorem sparing_schedule (program : Program) (hacts : acts program.id) :
    Sparing settings acts (schedule settings program) := by
  refine sparing_bind (sparing_leaves (within_request trivial)) fun answer => ?_
  cases answer with
  | error e => exact sparing_pure _
  | ok item => exact sparing_heldRun hacts none

theorem sparing_onTriggerFired {event : String}
    (hacts : ∀ id, Push.programIdOf? event = some id → acts id) :
    Sparing settings acts (onTriggerFired settings event) := by
  unfold onTriggerFired
  match hevent : Push.programIdOf? event with
  | none => exact sparing_pure _
  | some id =>
      refine sparing_bind (sparing_leaves (within_request trivial)) fun answer => ?_
      match answer with
      | .error e => exact sparing_pure _
      | .ok none => exact sparing_pure _
      | .ok (some item) =>
          dsimp only
          split
          · exact sparing_pure _
          · refine sparing_bind (sparing_heldRun (hacts id hevent) _) fun result => ?_
            split <;> exact sparing_pure _

theorem sparing_handleStatus {status : Push.EventStatus}
    (hacts : ∀ id, status.Reports id → acts id) :
    Sparing settings acts (handleStatus settings status).run := by
  unfold handleStatus
  split
  · exact sparing_pure _
  rename_i hfired
  have hreports : ∀ id, Push.programIdOf? status.eventId = some id → acts id := by
    intro id hevent
    exact hacts id ⟨by simpa using hfired, hevent⟩
  dsimp only
  match hevent : Push.programIdOf? status.eventId with
  | none => exact sparing_pure _
  | some id =>
      refine sparing_bindExcept (sparing_leaves (within_request trivial)) fun found => ?_
      cases found with
      | none => exact sparing_pure _
      | some item =>
          dsimp only
          split
          · exact sparing_pure _
          · split
            · refine sparing_bindExcept (sparing_lift (sparing_onTriggerFired hreports)) ?_
              exact fun result => by split <;> exact sparing_pure _
            · refine sparing_bindExcept
                (sparing_lift (sparing_terminate (hreports id hevent) _)) ?_
              exact fun result => by split <;> exact sparing_pure _

theorem sparing_handleStatuses {statuses : List Push.EventStatus}
    (hacts : ∀ status ∈ statuses, ∀ id, status.Reports id → acts id) :
    Sparing settings acts (handleStatuses settings statuses).run := by
  induction statuses with
  | nil => exact sparing_pure _
  | cons status rest ih =>
      obtain ⟨hstatus, hrest⟩ := List.forall_mem_cons.1 hacts
      refine sparing_bindExcept (sparing_handleStatus hstatus) fun state => ?_
      exact sparing_bindExcept (ih hrest) fun states => sparing_pure _

theorem sparing_runEach {ids : List String} (hacts : ∀ id ∈ ids, acts id) :
    Sparing settings acts (runEach settings ids) := by
  induction ids with
  | nil => exact sparing_pure _
  | cons id rest ih =>
      obtain ⟨hid, hrest⟩ := List.forall_mem_cons.1 hacts
      refine sparing_bind (sparing_heldRun hid none) fun result => ?_
      refine sparing_bind (ih hrest) fun states => ?_
      split <;> exact sparing_pure _

theorem sparing_registerDevice (identity : DeviceIdentity) :
    Sparing settings acts (registerDevice settings identity) := by
  intro before log value after h
  exact .of_claims (h.serves.claims fun entry hentry own heq => leavesClaims_of_registering
    (heq ▸ (within_registerDevice settings identity).follows h.follows entry hentry))

theorem sparing_recover (hacts : ∀ id, acts id) : Sparing settings acts (recover settings) := by
  intro before log value after h
  obtain ⟨_, now, _, _, rfl, hnow, hrecover⟩ := completes_bind.1 h
  obtain ⟨rfl, hread⟩ := completes_wallClock.1 hnow
  rw [hread] at hrecover
  obtain ⟨rfl, hanswer⟩ := completes_store.1 hrecover
  have hafter : (before.recoverStale now settings.lockTtl).2 = after :=
    congrArg Prod.snd hanswer
  intro id
  rw [← hafter]
  refine (Store.recoverStale_cases id now settings.lockTtl before).imp_right ?_
  rintro ⟨hnone, hgone⟩
  exact ⟨hnone, fun claim hfound _ => ⟨hacts id, now, by simp, hgone claim hfound⟩⟩

/-! ## Operations that delete programs -/

/-- Under an id stands what was there before, or a program was removed and its claim with
it. -/
def Clears (before after : Store) : Prop :=
  ∀ id, after.items.find? id = before.items.find? id ∧
      after.claims.find? id = before.claims.find? id ∨
    (∃ item, before.items.find? id = some item) ∧ after.items.find? id = none ∧
      after.claims.find? id = none

theorem Clears.refl (store : Store) : Clears store store := fun _ => Or.inl ⟨rfl, rfl⟩

theorem Clears.trans (hfirst : Clears before middle) (hlater : Clears middle after) :
    Clears before after := by
  intro id
  obtain ⟨hitems, hclaims⟩ | ⟨hfound, hitem, hclaim⟩ := hfirst id
  · have hagain := hlater id
    rwa [hitems, hclaims] at hagain
  · right
    obtain ⟨hitems, hclaims⟩ | ⟨⟨item, hagain⟩, -, -⟩ := hlater id
    · exact ⟨hfound, hitems.trans hitem, hclaims.trans hclaim⟩
    · cases hitem.symm.trans hagain

def Clearing (operation : Operation α) : Prop :=
  ∀ before log value after, Completes operation before log value after → Clears before after

theorem clearing_pure (value : α) : Clearing (pure value) := by
  intro before log result after h
  obtain ⟨-, -, rfl⟩ := completes_pure.1 h
  exact .refl _

theorem clearing_bind {operation : Operation α} {next : α → Operation β}
    (hfirst : Clearing operation) (hnext : ∀ value, Clearing (next value)) :
    Clearing (operation >>= next) := by
  intro before log result after h
  obtain ⟨first, value, middle, later, rfl, hbefore, hafter⟩ := completes_bind.1 h
  exact (hfirst _ _ _ _ hbefore).trans (hnext value _ _ _ _ hafter)

theorem clearing_request {request : Request} (hother : ∀ own, request ≠ .store own) :
    Clearing (Task.request (I := Surroundings) request) := by
  intro before log answer after h
  obtain ⟨-, rfl⟩ := (completes_request hother).1 h
  exact .refl _

theorem clearing_delete (id : String) : Clearing (store (.remove id)) := by
  intro before log answer after h
  obtain ⟨-, hanswer⟩ := completes_store.1 h
  have hafter : (before.remove id).2 = after := congrArg Prod.snd hanswer
  rw [← hafter]
  obtain ⟨item, hfound, hremoved, hdrops⟩ | ⟨-, hsame⟩ := before.remove_cases id
  · intro key
    rw [hdrops.items, Store.claims_remove hremoved]
    by_cases hkey : key = id
    · rw [if_pos hkey, if_pos hkey, hkey]
      exact Or.inr ⟨⟨item, hfound⟩, rfl, rfl⟩
    · rw [if_neg hkey, if_neg hkey]
      exact Or.inl ⟨rfl, rfl⟩
  · rw [hsame]
    exact .refl _

theorem clearing_remove (id : String) : Clearing (remove id) := by
  refine clearing_bind (clearing_request nofun) fun _ => ?_
  refine clearing_bind (fun before log result after h => ?_) fun result => ?_
  · obtain ⟨e, rfl, hget⟩ | ⟨_, item, _, _, rfl, hget, hrest⟩ := completes_bindExcept.1 h
    · rw [(getExisting_cases hget).1]
      exact .refl _
    · rw [(getExisting_cases hget).1] at hrest
      split at hrest
      · exact clearing_delete id _ _ _ _ hrest
      · obtain ⟨-, -, rfl⟩ := completes_throw.1 hrest
        exact .refl _
  · exact clearing_bind (clearing_request nofun) fun _ => clearing_pure _

theorem clearing_removeEach (ids : List String) : Clearing (removeEach ids) := by
  induction ids with
  | nil => exact clearing_pure _
  | cons id rest ih =>
      refine clearing_bind (clearing_remove id) fun result => ?_
      cases result with
      | error e => exact clearing_pure _
      | ok item => exact ih

theorem clearing_prune : Clearing prune := by
  refine clearing_bind (fun before log answer after h => ?_) fun answer => ?_
  · obtain ⟨-, hanswer⟩ := completes_store.1 h
    obtain ⟨-, rfl⟩ := Prod.mk.inj hanswer
    exact .refl _
  · cases answer with
    | error e => exact clearing_pure _
    | ok entries => exact clearing_bind (clearing_removeEach _) fun _ => clearing_pure _

/-! ## A program that is busy -/

/-- An operation never ends with the answer that a program is busy. -/
def NeverBusy (operation : Operation (Except Error α)) : Prop :=
  ∀ before log id after, ¬Completes operation before log (.error (.programBusy id)) after

theorem neverBusy_bind {attempt : Attempt α} {next : α → Attempt β}
    (hfirst : NeverBusy attempt.run) (hnext : ∀ value, NeverBusy (next value).run) :
    NeverBusy (attempt >>= next).run := by
  intro before log id after h
  obtain ⟨e, heq, herror⟩ | ⟨_, value, _, _, rfl, -, hlater⟩ := completes_bindExcept.1 h
  · obtain rfl := Except.error.inj heq
    exact hfirst _ _ _ _ herror
  · exact hnext value _ _ _ _ hlater

theorem neverBusy_pure (value : α) : NeverBusy (pure value : Attempt α).run := by
  intro before log id after h
  cases (completes_pureExcept.1 h).2.1

theorem neverBusy_lift (operation : Operation α) :
    NeverBusy (ExceptT.lift operation : Attempt α).run := by
  intro before log id after h
  obtain ⟨_, heq, -⟩ := completes_lift.1 h
  cases heq

theorem neverBusy_getExisting (id : String) : NeverBusy (getExisting id).run := by
  refine neverBusy_bind (fun before log busy after h => ?_) fun found => ?_
  · obtain ⟨-, hanswer⟩ := completes_store.1 h
    obtain ⟨item, heq⟩ := Store.get_error (congrArg Prod.fst hanswer)
    cases heq
  · cases found with
    | none =>
        intro before log busy after h
        cases (completes_throw.1 h).2.1
    | some item => exact neverBusy_pure item

theorem neverBusy_save (state : State) : NeverBusy (save state).run := by
  intro before log busy after h
  obtain ⟨-, hanswer⟩ := completes_store.1 h
  obtain heq | ⟨item, heq⟩ := Store.save_error (congrArg Prod.fst hanswer)
  · cases heq
  · cases heq

theorem neverBusy_runHeld (settings : Settings) (id : String) (fired : Option String) :
    NeverBusy (runHeld settings id fired).run := by
  refine neverBusy_bind (neverBusy_getExisting id) fun item => ?_
  split
  · exact neverBusy_pure _
  refine neverBusy_bind (neverBusy_lift _) fun _ => ?_
  refine neverBusy_bind (neverBusy_lift _) fun driven => ?_
  refine neverBusy_bind (neverBusy_lift _) fun now => ?_
  refine neverBusy_bind (neverBusy_save _) fun _ => ?_
  split
  · refine neverBusy_bind (neverBusy_lift _) fun state => ?_
    exact neverBusy_bind (neverBusy_save _) fun _ => neverBusy_pure _
  · rename_i hopen
    refine neverBusy_bind (fun before log busy after h => ?_) fun state => ?_
    · obtain ⟨-, final, heq, -⟩ := registerTriggers_settles (by simpa using hopen) h
      cases heq
    · exact neverBusy_bind (neverBusy_save _) fun _ => neverBusy_pure _

theorem neverBusy_terminateHeld (id : String) (failure : Failure) :
    NeverBusy (terminateHeld id failure).run := by
  refine neverBusy_bind (neverBusy_getExisting id) fun item => ?_
  split
  · exact neverBusy_pure _
  refine neverBusy_bind (neverBusy_lift _) fun _ => ?_
  refine neverBusy_bind (neverBusy_save _) fun _ => ?_
  refine neverBusy_bind (neverBusy_lift _) fun state => ?_
  exact neverBusy_bind (neverBusy_save _) fun _ => neverBusy_pure _

/-- Whoever finds a program held leaves the store as it is and calls nobody. -/
theorem holding_busy {task : Operation (Except Error α)} (htask : NeverBusy task) {busy : String}
    (h : Completes (holding settings id task) before log (.error (.programBusy busy)) after) :
    after = before ∧ ∀ entry ∈ log, ¬entry.request.IsRemote := by
  obtain ⟨now, answer, e, rfl, -, rfl⟩ | ⟨_, _, _, _, -, -, hbusy, -⟩ := completes_holding h
  · refine ⟨rfl, ?_⟩
    simp only [List.forall_mem_cons]
    exact ⟨nofun, nofun, nofun, nofun, List.forall_mem_nil _⟩
  · exact absurd hbusy (htask _ _ _ _)

/-! ## All commands -/

/-- The program is one that a command acts on, given what was stored when it began and what
it was told. -/
inductive Command.ActsOn (store : Store) (log : Log Surroundings) : Command → String → Prop
  | scheduled (program : Program) : ActsOn store log (.schedule program) program.id
  | run (id : String) : ActsOn store log (.run id) id
  | cancelled (id : String) : ActsOn store log (.cancel id) id
  | fired {event id : String} (hevent : Push.programIdOf? event = some id) :
      ActsOn store log (.triggerFired event) id
  /-- One of its events is reported. -/
  | reported {login : Push.Login} {rest : Log Surroundings} {status : Push.EventStatus}
      {id : String} (htold : log = ⟨.push .loginEvents, .ok login⟩ :: rest)
      (hstatus : status ∈ login.events) (hreports : status.Reports id) : ActsOn store log .poll id
  /-- It is due. -/
  | due {now : Int64} {rest : Log Surroundings} {entry : String × Item}
      (hread : log = ⟨.outside .clock, now⟩ :: rest) (hstored : entry ∈ store.items.entries)
      (hdue : isDueItem now entry.2 = true) : ActsOn store log .resumeDue entry.2.program.id
  /-- All claims are looked at. -/
  | recovered (id : String) : ActsOn store log .recover id

theorem Command.actsOn_run {key : String} : (Command.run key).ActsOn before log id ↔ id = key := by
  constructor
  · intro h
    cases h
    rfl
  · rintro rfl
    exact .run id

/-- The value of an operation makes no difference to what it does. -/
theorem completes_discard {operation : Operation α} {value : Unit}
    (h : Completes (do let _ ← operation) before log value after) :
    ∃ result, Completes operation before log result after := by
  obtain ⟨first, result, _, later, rfl, hfirst, hlater⟩ := completes_bind.1 h
  obtain ⟨rfl, -, rfl⟩ := completes_pure.1 hlater
  exact ⟨result, by rwa [List.append_nil]⟩

theorem spares_poll {result : Except Error (List State)}
    (h : Completes (pollPushEvents settings) before log result after) :
    Spares settings (Command.poll.ActsOn before log) before log after := by
  obtain ⟨_, answer, _, later, rfl, htold, hrest⟩ := completes_bind.1 h
  obtain ⟨rfl, rfl⟩ := completes_push.1 htold
  cases answer with
  | error e =>
      obtain ⟨-, -, rfl⟩ := completes_pure.1 hrest
      exact .of_claims rfl
  | ok login =>
      have hspares : Spares settings (fun id => ∃ status ∈ login.events, status.Reports id) _
          later after :=
        sparing_handleStatuses (fun status hstatus id hreports => ⟨status, hstatus, hreports⟩)
          _ _ _ _ hrest
      refine Spares.append (.of_claims rfl) (hspares.imp ?_)
      rintro id ⟨status, hstatus, hreports⟩
      exact .reported rfl hstatus hreports

theorem spares_resumeDue {result : Except Error (List State)}
    (h : Completes (resumeDue settings) before log result after) :
    Spares settings (Command.resumeDue.ActsOn before log) before log after := by
  obtain ⟨_, now, _, _, rfl, hnow, hlist⟩ := completes_bind.1 h
  obtain ⟨rfl, rfl⟩ := completes_clock hnow
  obtain ⟨_, answer, middle, later, rfl, hlisted, hrest⟩ := completes_bind.1 hlist
  obtain ⟨rfl, hanswer⟩ := completes_store.1 hlisted
  obtain ⟨hentries, rfl⟩ := Prod.mk.inj hanswer
  cases answer with
  | error e =>
      obtain ⟨-, -, rfl⟩ := completes_pure.1 hrest
      exact .of_claims rfl
  | ok entries =>
      obtain rfl := Store.list_ok hentries
      obtain ⟨_, states, _, _, rfl, hruns, hdone⟩ := completes_bind.1 hrest
      obtain ⟨rfl, -, rfl⟩ := completes_pure.1 hdone
      refine Spares.append (.of_claims rfl) (Spares.append (.of_claims rfl) ?_)
      rw [List.append_nil]
      refine sparing_runEach (fun id hid => ?_) _ _ _ _ hruns
      obtain ⟨entry, hentry, rfl⟩ := List.mem_map.1 (List.mem_mergeSort.1 hid)
      obtain ⟨hlisted, hdue⟩ := List.mem_filter.1 hentry
      obtain ⟨stored, hstored, rfl⟩ := List.mem_map.1 hlisted
      rw [isDueItem_transcribed] at hdue
      change Command.ActsOn _ _ _ stored.2.program.id
      exact .due rfl hstored hdue

/-- A command that deletes nothing spares the claims of others. -/
theorem spares_command {command : Command} {value : Unit} (hkeeps : command.removes = false)
    (h : Completes (command.operation settings) before log value after) :
    Spares settings (command.ActsOn before log) before log after := by
  cases command with
  | schedule program =>
      obtain ⟨result, h⟩ := completes_discard h
      exact sparing_schedule program (.scheduled program) _ _ _ _ h
  | run id =>
      obtain ⟨result, h⟩ := completes_discard h
      exact sparing_heldRun (.run id) none _ _ _ _ h
  | triggerFired event =>
      obtain ⟨result, h⟩ := completes_discard h
      exact sparing_onTriggerFired (fun id => .fired) _ _ _ _ h
  | poll =>
      obtain ⟨result, h⟩ := completes_discard h
      exact spares_poll h
  | resumeDue =>
      obtain ⟨result, h⟩ := completes_discard h
      exact spares_resumeDue h
  | cancel id =>
      obtain ⟨result, h⟩ := completes_discard h
      exact sparing_terminate (.cancelled id) cancellation _ _ _ _ h
  | registerDevice identity =>
      obtain ⟨result, h⟩ := completes_discard h
      exact sparing_registerDevice identity _ _ _ _ h
  | recover =>
      obtain ⟨result, h⟩ := completes_discard h
      exact sparing_recover .recovered _ _ _ _ h
  | remove | prune => cases hkeeps

theorem clears_command {command : Command} {value : Unit} (hremoves : command.removes = true)
    (h : Completes (command.operation settings) before log value after) :
    Clears before after := by
  cases command with
  | remove id =>
      obtain ⟨result, h⟩ := completes_discard h
      exact clearing_remove id _ _ _ _ h
  | prune =>
      obtain ⟨result, h⟩ := completes_discard h
      exact clearing_prune _ _ _ _ h
  | schedule | run | triggerFired | poll | resumeDue | cancel | registerDevice | recover =>
      cases hremoves

namespace Turn

/-- An operation that answers that a program is busy has changed nothing in the store, and
has called neither a collaborator nor the push server. -/
def BusyIsQuiet (turn : Turn) (store : Store) (operation : Operation (Except Error State)) :
    Prop :=
  ∀ busy, (operation.run turn.host.world ⟨store, turn.outer⟩).value =
      .error (.programBusy busy) →
    (operation.run turn.host.world ⟨store, turn.outer⟩).state.store = store ∧
      ∀ entry ∈ operation.log turn.host.world ⟨store, turn.outer⟩,
        (∀ query, entry.request ≠ .outside query) ∧ ∀ request, entry.request ≠ .push request

/-- No claim is leaked and none is stolen. -/
structure RespectsClaims (turn : Turn) (store : Store) : Prop where
  own : store.UnclaimedBy turn.settings.owner →
    (turn.after store).UnclaimedBy turn.settings.owner
  /-- What is gone of others had lapsed for a program that was acted on, or went together with
  its program. -/
  others : ∀ id claim, store.claims.find? id = some claim → claim.owner ≠ turn.settings.owner →
    (turn.after store).claims.find? id = some claim ∨
      (turn.after store).claims.find? id = none ∧
        (turn.command.ActsOn store (turn.log store) id ∧
            Lapses turn.settings (turn.log store) claim ∨
          (∃ item, store.items.find? id = some item) ∧
            (turn.after store).items.find? id = none)
  run : ∀ id, turn.BusyIsQuiet store (Queue.run turn.settings id)
  cancel : ∀ id, turn.BusyIsQuiet store (Queue.cancel turn.settings id)

theorem busyIsQuiet_holding (turn : Turn) (store : Store) (id : String)
    {task : Operation (Except Error State)} (htask : NeverBusy task) :
    turn.BusyIsQuiet store (holding turn.settings id task) := by
  intro busy hbusy
  have hcompletes := completes_run turn.host (holding turn.settings id task) ⟨store, turn.outer⟩
  rw [hbusy] at hcompletes
  obtain ⟨hsame, hquiet⟩ := holding_busy htask hcompletes
  refine ⟨hsame, fun entry hentry => ⟨fun query heq => ?_, fun request heq => ?_⟩⟩
  · exact hquiet entry hentry (heq ▸ .outside query)
  · exact hquiet entry hentry (heq ▸ .push request)

/-- Whatever is told to a queue and whatever it is answered, it leaves no claim behind, and
drops none of someone else that is still good. -/
theorem respects_claims (turn : Turn) (store : Store) : turn.RespectsClaims store := by
  have hcompletes := completes_run turn.host (turn.command.operation turn.settings)
    ⟨store, turn.outer⟩
  have hrun (id : String) : turn.BusyIsQuiet store (Queue.run turn.settings id) :=
    turn.busyIsQuiet_holding store id (neverBusy_runHeld turn.settings id none)
  have hcancel (id : String) : turn.BusyIsQuiet store (Queue.cancel turn.settings id) :=
    turn.busyIsQuiet_holding store id (neverBusy_terminateHeld id cancellation)
  cases hremoves : turn.command.removes with
  | false =>
      have hspares : Spares turn.settings (turn.command.ActsOn store (turn.log store)) store
          (turn.log store) (turn.after store) := spares_command hremoves hcompletes
      refine ⟨hspares.unclaimed, fun id claim hfound howner => ?_, hrun, hcancel⟩
      refine (hspares id).imp (·.trans hfound) ?_
      rintro ⟨hnone, hgone⟩
      exact ⟨hnone, Or.inl (hgone claim hfound howner)⟩
  | true =>
      have hclears : Clears store (turn.after store) := clears_command hremoves hcompletes
      refine ⟨fun hnone id claim hfound => ?_, fun id claim hfound howner => ?_, hrun, hcancel⟩
      · obtain ⟨-, hclaim⟩ | ⟨-, -, hclaim⟩ := hclears id
        · exact hnone id claim (hclaim.symm.trans hfound)
        · cases hclaim.symm.trans hfound
      · refine (hclears id).imp (fun hsame => hsame.2.trans hfound) ?_
        rintro ⟨hitem, hgone, hclaim⟩
        exact ⟨hclaim, Or.inr ⟨hitem, hgone⟩⟩

/-- Two programs that someone else has claimed, one of them long ago. -/
def heldByOther : Store :=
  { besidePayment messages with
    claims := (Table.empty.insert "messages" ⟨"other", 0⟩).insert "payment" ⟨"other", 900000⟩ }

/-- The old claim is gone once the messages are shown, the other one is still there, and a run
of the payment comes to nothing. -/
theorem messages_respect_claims :
    let turn := Turn.granted 1000000 9 (.run "messages")
    let payment := (Queue.run turn.settings "payment").run turn.host.world
      ⟨heldByOther, turn.outer⟩
    heldByOther.UnclaimedBy "queue" ∧ (turn.after heldByOther).UnclaimedBy "queue" ∧
      (turn.after heldByOther).claims.find? "messages" = none ∧
      (turn.after heldByOther).claims.find? "payment" = some ⟨"other", 900000⟩ ∧
      payment.value = .error (.programBusy "payment") ∧ payment.state.store = heldByOther := by
  intro turn payment
  have hrespects := respects_claims turn heldByOther
  have hnone : heldByOther.UnclaimedBy "queue" := by
    intro id claim hfound
    change ((Table.empty.insert "messages" ⟨"other", 0⟩).insert "payment"
      ⟨"other", 900000⟩).find? id = some claim at hfound
    rw [Table.find?_insert, Table.find?_insert] at hfound
    split at hfound
    · exact Option.some.inj hfound ▸ by decide
    split at hfound
    · exact Option.some.inj hfound ▸ by decide
    · cases hfound
  have hbusy : payment.value = .error (.programBusy "payment") := by decide +kernel
  refine ⟨hnone, hrespects.own hnone, by decide +kernel, ?_, hbusy,
    (hrespects.run "payment" "payment" hbusy).1⟩
  obtain hkept | ⟨-, ⟨hacts, -⟩ | ⟨-, hremoved⟩⟩ :=
    hrespects.others "payment" ⟨"other", 900000⟩ (by decide +kernel) (by decide)
  · exact hkept
  · exact absurd (Command.actsOn_run.1 hacts) (by decide)
  · have hstill : ((turn.after heldByOther).items.find? "payment").isSome = true := by
      decide +kernel
    rw [hremoved] at hstill
    cases hstill

end Turn

end Queue

end ProgramQueue
