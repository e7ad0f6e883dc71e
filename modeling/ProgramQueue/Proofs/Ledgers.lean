import Mathlib.Data.List.Nodup
import ProgramQueue.Proofs.Logs
import ProgramQueue.Proofs.Rereading
import ProgramQueue.Proofs.Stores

/-!
# What a store remembers

A store is used by transactions, and may be closed and opened again between them, or in the
middle of one if its process ends.  What it holds is told by the transactions and their
answers alone: the record under each id, and the ids that were ever used.  What it gives back
is what it reads in the text of a record, where a rate may have another last digit.
-/

namespace ProgramQueue.Store

/-- The transactions of a store. -/
abbrev Transactions : Interface where
  Request := Request
  Answer := Request.Answer

/-- A use of a store. -/
inductive Use where
  | transact (request : Request)
  /-- The store is closed and opened again. -/
  | reopen
  /-- The process ends when so many steps of a transaction were taken, and the store is opened
  again. -/
  | interrupt (request : Request) (count : Nat)

namespace Use

def after : Use → Store → Store
  | transact request, store => (respond request store).2
  | reopen, store => store
  | interrupt request count, store => store.interrupted request count

/-- The transactions that took all their steps, with the answers to them. -/
def log : Use → Store → Log Transactions
  | transact request, store => [⟨request, (respond request store).1⟩]
  | reopen, _ => []
  | interrupt request count, store =>
      if count < store.steps request then [] else [⟨request, (respond request store).1⟩]

end Use

def afterAll : List Use → Store → Store
  | [], store => store
  | use :: rest, store => afterAll rest (use.after store)

def logAll : List Use → Store → Log Transactions
  | [], _ => []
  | use :: rest, store => use.log store ++ logAll rest (use.after store)

/-! ## What the answers tell -/

/-- The id that a transaction has used: that of the program it stored. -/
def usedBy : (request : Request) → request.Answer → Option String
  | .insert program, .ok _ => some program.id
  | _, _ => none

/-- What stands under an id after a transaction, from what stood there before it. -/
def standing (id : String) (last : Option Item) :
    (request : Request) → request.Answer → Option Item
  | .insert program, .ok _ => if id = program.id then some (Item.fresh program) else last
  | .update key _, .ok state =>
      if id = key then last.map fun item => { item with state := state } else last
  | .save state, .ok _ =>
      if id = state.programId then last.map fun item => { item with state := state } else last
  | .remove key, .ok _ => if id = key then none else last
  | _, _ => last

/-- The ids that were ever used. -/
def used (log : Log Transactions) : List String :=
  log.filterMap fun entry => usedBy entry.request entry.answer

/-- What was written last under an id, unless it was removed since. -/
def recorded (log : Log Transactions) (id : String) : Option Item :=
  log.foldl (fun last entry => standing id last entry.request entry.answer) none

/-- The id that a transaction names. -/
def Request.subject? : Request → Option String
  | insert program => some program.id
  | get id => some id
  | list => none
  | update id _ => some id
  | save state => some state.programId
  | remove id => some id
  | tryClaim id _ _ _ => some id
  | release id _ => some id
  | claim id => some id
  | recoverStale _ _ => none

/-- The answer to a transaction is an error. -/
def Request.isRefused : (request : Request) → request.Answer → Bool
  | insert _, .error _ => true
  | get _, .error _ => true
  | list, .error _ => true
  | update _ _, .error _ => true
  | save _, .error _ => true
  | remove _, .error _ => true
  | tryClaim _ _ _ _, .error _ => true
  | recoverStale _ _, .error _ => true
  | _, _ => false

/-- The id is that of a program that is stored or was removed. -/
def IsUsed (store : Store) (id : String) : Prop :=
  (∃ item, store.items.find? id = some item) ∨ id ∈ store.retired

/-! ## One transaction -/

variable {before after store : Store} {log : Log Transactions} {id other : String} {item : Item}

theorem Same.isUsed (h : Same before after) : after.IsUsed id ↔ before.IsUsed id := by
  rw [IsUsed, IsUsed, h.items, h.retired]

theorem Puts.isUsed (h : Puts id item before after) :
    after.IsUsed other ↔ before.IsUsed other ∨ other = id := by
  rw [IsUsed, IsUsed, h.items, h.retired]
  by_cases hid : other = id
  · simp [hid]
  · simp [hid]

/-- What is put in place of a record uses no new id. -/
theorem Puts.isUsed_found (h : Puts id item before after) {found : Item}
    (hfound : before.items.find? id = some found) :
    after.IsUsed other ↔ before.IsUsed other := by
  rw [h.isUsed, or_iff_left_iff_imp]
  rintro rfl
  exact Or.inl ⟨found, hfound⟩

/-- A state was put in place of the one that stood there. -/
theorem Puts.written {state : State} (h : Puts id { item with state := state } before after)
    (hfound : before.items.find? id = some item) (other : String) :
    after.items.find? other =
      if other = id then (before.items.find? other).map fun item => { item with state := state }
      else before.items.find? other := by
  rw [h.items]
  by_cases hid : other = id
  · rw [if_pos hid, if_pos hid, hid, hfound, Option.map_some]
  · rw [if_neg hid, if_neg hid]

theorem Drops.isUsed (h : Drops id before after) (hfound : before.items.find? id = some item) :
    after.IsUsed other ↔ before.IsUsed other := by
  rw [IsUsed, IsUsed, h.items, h.retired, List.mem_cons]
  by_cases hid : other = id
  · simp [hid, hfound]
  · simp [hid]

/-- A program is stored exactly if its id was never used. -/
theorem insert_ok_iff (program : Program) (store : Store) :
    (∃ item, (store.insert program).1 = .ok item) ↔ ¬store.IsUsed program.id := by
  rcases insert_cases program store with ⟨hnone, hunused, hresult, -⟩ | ⟨hused, hrefused⟩
  · refine iff_of_true ⟨_, hresult⟩ ?_
    rintro (⟨item, hitem⟩ | hretired)
    · rw [hnone] at hitem
      cases hitem
    · exact hunused hretired
  · refine iff_of_false ?_ (not_not_intro hused)
    rintro ⟨item, hitem⟩
    rw [hrefused] at hitem
    cases hitem

/-- What a transaction does to a store, together with its answer. -/
inductive Responds (before : Store) : (request : Request) → request.Answer → Store → Prop
  | inserted {program : Program} {after : Store} (hunused : ¬before.IsUsed program.id)
      (hputs : Puts program.id (Item.fresh program) before after)
      (hclaims : after.claims = before.claims) :
      Responds before (.insert program) (.ok (Item.fresh program)) after
  | updated {id : String} {change : State → State} {item : Item} {after : Store}
      (hfound : before.items.find? id = some item)
      (hputs : Puts id { item with state := change item.state.transcribed } before after)
      (hclaims : after.claims = before.claims) :
      Responds before (.update id change) (.ok (change item.state.transcribed)) after
  | saved {state : State} {item : Item} {after : Store}
      (hfound : before.items.find? state.programId = some item)
      (hputs : Puts state.programId { item with state := state } before after)
      (hclaims : after.claims = before.claims) :
      Responds before (.save state) (.ok ()) after
  | removed {id : String} {item : Item} {after : Store}
      (hfound : before.items.find? id = some item) (hdrops : Drops id before after)
      (hclaims : ∀ other, after.claims.find? other =
        if other = id then none else before.claims.find? other) :
      Responds before (.remove id) (.ok item.transcribed) after
  | refused {request : Request} {answer : request.Answer}
      (hrefused : request.isRefused answer = true) : Responds before request answer before
  /-- Something was looked up, or a claim has changed. -/
  | kept {request : Request} {answer : request.Answer} {after : Store}
      (hkeeps : request.keepsItems = true) (hsame : Same before after)
      (hclaims : ∀ id other, request.subject? = some id → other ≠ id →
        after.claims.find? other = before.claims.find? other)
      (hunchanged : request.isRefused answer = true → after = before) :
      Responds before request answer after

theorem responds (request : Request) (store : Store) :
    Responds store request (respond request store).1 (respond request store).2 := by
  cases request with
  | insert program =>
      rcases insert_cases program store with ⟨-, -, hresult, hputs⟩ | ⟨-, hrefused⟩
      · have hunused := (insert_ok_iff program store).1 ⟨_, hresult⟩
        rw [respond, hresult]
        exact .inserted hunused hputs (claims_insert program store)
      · rw [respond, hrefused]
        exact .refused rfl
  | update id change =>
      rcases update_cases id change store with
        ⟨item, hfound, -, hresult, hputs⟩ | ⟨-, ⟨e, hresult⟩, hsame⟩
      · rw [respond, hresult]
        exact .updated hfound hputs (claims_update id change store)
      · rw [respond, hresult, hsame]
        exact .refused rfl
  | save state =>
      rcases save_cases state store with
        ⟨item, hfound, -, hresult, hputs⟩ | ⟨-, ⟨e, hresult⟩, hsame⟩
      · rw [respond, hresult]
        exact .saved hfound hputs (claims_save state store)
      · rw [respond, hresult, hsame]
        exact .refused rfl
  | remove id =>
      rcases remove_cases id store with
        ⟨item, hfound, hresult, hdrops⟩ | ⟨⟨e, hresult⟩, hsame⟩
      · have hclaims := claims_remove hresult
        rw [respond, hresult]
        exact .removed hfound hdrops hclaims
      · rw [respond, hresult, hsame]
        exact .refused rfl
  | get | list | claim =>
      exact .kept rfl (.refl store) (fun _ _ _ _ => rfl) (fun _ => rfl)
  | tryClaim key owner now ttl =>
      refine .kept rfl (respond_same rfl store) ?_ fun h => ?_
      · rintro id other ⟨⟩ hne
        exact tryClaim_other hne
      · rw [respond, tryClaim_eq] at h ⊢
        cases hspan : span ttl with
        | error e => rfl
        | ok ttl =>
            rw [hspan] at h
            dsimp only at h
            split at h
            · cases h
            · cases h
  | release key owner =>
      refine .kept rfl (respond_same rfl store) ?_ (fun h => by cases h)
      rintro id other ⟨⟩ hne
      exact release_other hne
  | recoverStale now maxAge =>
      refine .kept rfl (respond_same rfl store) (fun _ _ h => by cases h) fun h => ?_
      rw [respond, recoverStale_eq] at h ⊢
      cases hspan : span maxAge with
      | error e => rfl
      | ok maxAge =>
          rw [hspan] at h
          cases h

/-- What is looked up or refused leaves the records. -/
theorem standing_kept {request : Request} {answer : request.Answer}
    (h : request.keepsItems = true ∨ request.isRefused answer = true) (last : Option Item) :
    standing id last request answer = last := by
  unfold standing
  split
  · rcases h with h | h <;> cases h
  · rcases h with h | h <;> cases h
  · rcases h with h | h <;> cases h
  · rcases h with h | h <;> cases h
  · rfl

theorem usedBy_kept {request : Request} {answer : request.Answer}
    (h : request.keepsItems = true ∨ request.isRefused answer = true) :
    usedBy request answer = none := by
  unfold usedBy
  split
  · rcases h with h | h <;> cases h
  · rfl

namespace Responds

variable {request : Request} {answer : request.Answer}

/-- What stands under an id after a transaction is what its answer tells. -/
theorem items (h : Responds before request answer after) (id : String) :
    after.items.find? id = standing id (before.items.find? id) request answer := by
  cases h with
  | inserted _ hputs => exact hputs.items id
  | updated hfound hputs => exact hputs.written hfound id
  | saved hfound hputs => exact hputs.written hfound id
  | removed _ hdrops => exact hdrops.items id
  | refused hrefused => exact (standing_kept (.inr hrefused) _).symm
  | kept hkeeps hsame => rw [standing_kept (.inl hkeeps), hsame.items]

/-- An id is used after a transaction if it was before, or the transaction has used it. -/
theorem isUsed_iff (h : Responds before request answer after) (id : String) :
    after.IsUsed id ↔ before.IsUsed id ∨ usedBy request answer = some id := by
  cases h with
  | inserted _ hputs => rw [hputs.isUsed, usedBy, Option.some.injEq, eq_comm]
  | updated hfound hputs =>
      rw [hputs.isUsed_found hfound]
      simp [usedBy]
  | saved hfound hputs =>
      rw [hputs.isUsed_found hfound]
      simp [usedBy]
  | removed hfound hdrops =>
      rw [hdrops.isUsed hfound]
      simp [usedBy]
  | refused hrefused => simp [usedBy_kept (.inr hrefused)]
  | kept hkeeps hsame => simp [hsame.isUsed, usedBy_kept (.inl hkeeps)]

/-- A transaction uses only an id that was not used before. -/
theorem unused (h : Responds before request answer after)
    (hused : usedBy request answer = some id) : ¬before.IsUsed id := by
  cases h with
  | inserted hunused =>
      cases hused
      exact hunused
  | updated | saved | removed => cases hused
  | refused hrefused =>
      rw [usedBy_kept (.inr hrefused)] at hused
      cases hused
  | kept hkeeps =>
      rw [usedBy_kept (.inl hkeeps)] at hused
      cases hused

/-- A transaction that names an id changes nothing under another. -/
theorem apart (h : Responds before request answer after) (hnamed : request.subject? = some id)
    (hne : other ≠ id) :
    after.items.find? other = before.items.find? other ∧
      after.claims.find? other = before.claims.find? other := by
  cases h with
  | inserted _ hputs hclaims =>
      cases hnamed
      exact ⟨hputs.other hne, by rw [hclaims]⟩
  | updated _ hputs hclaims =>
      cases hnamed
      exact ⟨hputs.other hne, by rw [hclaims]⟩
  | saved _ hputs hclaims =>
      cases hnamed
      exact ⟨hputs.other hne, by rw [hclaims]⟩
  | removed _ hdrops hclaims =>
      cases hnamed
      exact ⟨hdrops.other hne, by rw [hclaims, if_neg hne]⟩
  | refused => exact ⟨rfl, rfl⟩
  | kept _ hsame hclaims => exact ⟨hsame.items other, hclaims id other hnamed hne⟩

/-- A transaction that is refused has no effect. -/
theorem unchanged (h : Responds before request answer after)
    (hrefused : request.isRefused answer = true) : after = before := by
  cases h with
  | inserted | updated | saved | removed => cases hrefused
  | refused => rfl
  | kept _ _ _ hunchanged => exact hunchanged hrefused

end Responds

/-! ## The ledger -/

/-- A new state under an id leaves the program that stands there. -/
theorem written_program {key : String} {last : Option Item} {state : State}
    (h : (if id = key then last.map fun item => { item with state := state } else last) =
      some item) : ∃ earlier, last = some earlier ∧ item.program = earlier.program := by
  split at h
  · obtain ⟨earlier, hlast, rfl⟩ := Option.map_eq_some_iff.1 h
    exact ⟨earlier, hlast, rfl⟩
  · exact ⟨item, h, rfl⟩

/-- What stands under an id is of the program that stood there before, or of the one that was
just inserted. -/
theorem standing_program {last : Option Item} {request : Request} {answer : request.Answer}
    (h : standing id last request answer = some item) :
    (∃ earlier, last = some earlier ∧ item.program = earlier.program) ∨
      item.program.id = id ∧ ∃ stored,
        (⟨request, answer⟩ : Answered Transactions) = ⟨.insert item.program, .ok stored⟩ := by
  unfold standing at h
  split at h
  · rename_i program stored
    split at h
    · rename_i hid
      cases h
      exact Or.inr ⟨hid.symm, stored, rfl⟩
    · exact Or.inl ⟨item, h, rfl⟩
  · exact Or.inl (written_program h)
  · exact Or.inl (written_program h)
  · split at h
    · cases h
    · exact Or.inl ⟨item, h, rfl⟩
  · exact Or.inl ⟨item, h, rfl⟩

/-- The store holds what the log tells. -/
structure Tallies (log : Log Transactions) (store : Store) : Prop where
  items : ∀ id, store.items.find? id = recorded log id
  isUsed : ∀ id, store.IsUsed id ↔ id ∈ used log
  once : (used log).Nodup
  inserted : ∀ id item, recorded log id = some item →
    item.program.id = id ∧ ∃ stored, ⟨.insert item.program, .ok stored⟩ ∈ log

theorem used_concat (log : Log Transactions) (request : Request) (answer : request.Answer) :
    used (log ++ [⟨request, answer⟩]) = used log ++ (usedBy request answer).toList := by
  rw [used, List.filterMap_append]
  refine congrArg (used log ++ ·) ?_
  rw [List.filterMap_cons]
  cases usedBy request answer <;> rfl

theorem recorded_concat (log : Log Transactions) (request : Request) (answer : request.Answer)
    (id : String) :
    recorded (log ++ [⟨request, answer⟩]) id = standing id (recorded log id) request answer := by
  rw [recorded, List.foldl_append]
  rfl

theorem Tallies.empty : Tallies [] empty where
  items id := rfl
  isUsed id := by
    refine iff_of_false ?_ List.not_mem_nil
    rintro (⟨item, hitem⟩ | hretired)
    · cases hitem
    · cases hretired
  once := List.nodup_nil
  inserted id item h := by cases h

/-- One transaction keeps the ledger. -/
theorem Tallies.transact (h : Tallies log store) (request : Request) :
    Tallies (log ++ [⟨request, (respond request store).1⟩]) (respond request store).2 where
  items id := by rw [(responds request store).items, recorded_concat, h.items]
  isUsed id := by
    rw [(responds request store).isUsed_iff, h.isUsed, used_concat, List.mem_append,
      Option.mem_toList]
  once := by
    rw [used_concat]
    cases hnew : usedBy request (respond request store).1 with
    | none => simpa using h.once
    | some id =>
        have hfresh : id ∉ used log := fun hmem =>
          (responds request store).unused hnew ((h.isUsed id).2 hmem)
        simpa using h.once.concat hfresh
  inserted id item hitem := by
    rw [recorded_concat] at hitem
    rcases standing_program hitem with ⟨earlier, hearlier, hprogram⟩ | ⟨hid, stored, hentry⟩
    · obtain ⟨hid, stored, hmem⟩ := h.inserted id earlier hearlier
      rw [hprogram]
      exact ⟨hid, stored, List.mem_append_left _ hmem⟩
    · refine ⟨hid, stored, ?_⟩
      rw [← hentry]
      exact List.mem_append_right _ List.mem_cons_self

/-- Whatever a store is used for, the ledger is kept. -/
theorem Tallies.uses (h : Tallies log store) (uses : List Use) :
    Tallies (log ++ logAll uses store) (afterAll uses store) := by
  induction uses generalizing log store with
  | nil => rwa [logAll, List.append_nil]
  | cons use rest ih =>
      rw [logAll, afterAll, ← List.append_assoc]
      apply ih
      cases use with
      | transact request => exact h.transact request
      | reopen => rwa [Use.log, List.append_nil]
      | interrupt request count =>
          rw [Use.log, Use.after, interrupted_eq]
          split
          · rwa [List.append_nil]
          · exact h.transact request

/-! ## What a store keeps to -/

/-- An id is used by one transaction at most. -/
theorem eq_of_usedBy {first later : Answered Transactions} (h : (used log).Nodup)
    (hfirst : first ∈ log) (hlater : later ∈ log)
    (hused : usedBy first.request first.answer = some id)
    (hagain : usedBy later.request later.answer = some id) : first = later := by
  have hmem {entry : Answered Transactions} {rest : Log Transactions} (hentry : entry ∈ rest)
      (hid : usedBy entry.request entry.answer = some id) : id ∈ used rest :=
    List.mem_filterMap.2 ⟨entry, hentry, hid⟩
  induction log with
  | nil => cases hfirst
  | cons entry rest ih =>
      rw [used, List.filterMap_cons] at h
      rcases List.mem_cons.1 hfirst with rfl | hinner
      · rw [hused] at h
        rcases List.mem_cons.1 hlater with rfl | hrest
        · rfl
        · exact absurd (hmem hrest hagain) (List.nodup_cons.1 h).1
      · rcases List.mem_cons.1 hlater with rfl | hrest
        · rw [hagain] at h
          exact absurd (hmem hinner hused) (List.nodup_cons.1 h).1
        · refine ih ?_ hinner hrest
          split at h
          · exact h
          · exact (List.nodup_cons.1 h).2

/-- What a store keeps to if this is what it was used for. -/
structure Remembers (log : Log Transactions) (store : Store) : Prop where
  /-- A program is stored exactly if no program was ever stored under its id. -/
  insert_iff : ∀ program,
    (∃ item, (store.insert program).1 = .ok item) ↔ program.id ∉ used log
  once : (used log).Nodup
  /-- What is recorded under an id is of the one program that was inserted under it. -/
  filed : ∀ id item, recorded log id = some item → item.program.id = id ∧
    (∃ stored, ⟨.insert item.program, .ok stored⟩ ∈ log) ∧
    ∀ program stored, ⟨.insert program, .ok stored⟩ ∈ log → program.id = id →
      program = item.program
  /-- What was written last under an id is given back as its text keeps it. -/
  get_iff : ∀ id found, store.get id = .ok found ↔
    (recorded log id).map Item.transcribed = found ∧
      ∀ item ∈ recorded log id, item.isReadable = true
  /-- The store hands on what it reads in the text of the record. -/
  text_iff : ∀ id item found, recorded log id = some item → item.state.IsRegular →
    (store.get id = .ok (some found) ↔ Kind.item.decode? (Kind.item.encode item) = some found)
  /-- That is what was written if all rates in it come back from their texts. -/
  kept_iff : ∀ id item, recorded log id = some item → (store.get id = .ok (some item) ↔
    item.isReadable = true ∧ item.state.current.transcribed = item.state.current)
  list_iff : ∀ entries, store.list = .ok entries ↔
    (entries.Pairwise fun first later => first.1 < later.1) ∧
      (∀ id item, (id, item) ∈ entries ↔
        (recorded log id).map Item.transcribed = some item) ∧
      ∀ id item, recorded log id = some item → item.isReadable = true
  update_iff : ∀ id change state, (store.update id change).1 = .ok state ↔
    ∃ item, recorded log id = some item ∧ item.isReadable = true ∧
      state = change item.state.transcribed
  save_iff : ∀ state, (store.save state).1 = .ok () ↔
    ∃ item, recorded log state.programId = some item ∧ item.isReadable = true
  remove_iff : ∀ id item, (store.remove id).1 = .ok item ↔
    ∃ stored, recorded log id = some stored ∧ stored.isReadable = true ∧
      item = stored.transcribed
  unclaimed : ∀ id item, (store.remove id).1 = .ok item →
    (store.remove id).2.claim? id = none
  /-- What names one id leaves the records and the claims under all others. -/
  apart : ∀ request id other, request.subject? = some id → other ≠ id →
    (respond request store).2.items.find? other = store.items.find? other ∧
      (respond request store).2.claim? other = store.claim? other
  /-- What is refused changes nothing. -/
  refused : ∀ request, request.isRefused (respond request store).1 = true →
    (respond request store).2 = store
  /-- What is cut short has no effect, or the whole one. -/
  interrupted : ∀ request count, store.interrupted request count = store ∨
    store.interrupted request count = (respond request store).2

namespace Tallies

theorem filed (h : Tallies log store) (hitem : recorded log id = some item) :
    item.program.id = id ∧ (∃ stored, ⟨.insert item.program, .ok stored⟩ ∈ log) ∧
      ∀ program stored, ⟨.insert program, .ok stored⟩ ∈ log → program.id = id →
        program = item.program := by
  obtain ⟨hid, stored, hmem⟩ := h.inserted id item hitem
  refine ⟨hid, ⟨stored, hmem⟩, fun program again hagain hsame => ?_⟩
  have heq := eq_of_usedBy h.once hagain hmem (congrArg some hsame) (congrArg some hid)
  cases heq
  rfl

theorem get_iff (h : Tallies log store) (id : String) (found : Option Item) :
    store.get id = .ok found ↔
      (recorded log id).map Item.transcribed = found ∧
        ∀ item ∈ recorded log id, item.isReadable = true := by
  rw [get_eq, h.items]
  cases recorded log id with
  | none =>
      constructor
      · intro heq
        cases heq
        exact ⟨rfl, nofun⟩
      · rintro ⟨rfl, -⟩
        rfl
  | some item =>
      rcases item.reread_cases with ⟨hreadable, heq⟩ | ⟨hunreadable, e, heq⟩
      · dsimp only
        rw [heq]
        constructor
        · intro hfound
          cases hfound
          exact ⟨rfl, fun item hitem => Option.some.inj hitem ▸ hreadable⟩
        · rintro ⟨rfl, -⟩
          rfl
      · dsimp only
        rw [heq]
        refine iff_of_false (fun hfound => by cases hfound) ?_
        rintro ⟨-, hreadable⟩
        exact absurd (hreadable item rfl) (by simp [hunreadable])

theorem text_iff (h : Tallies log store) {found : Item} (hitem : recorded log id = some item)
    (hregular : item.state.IsRegular) : store.get id = .ok (some found) ↔
      Kind.item.decode? (Kind.item.encode item) = some found := by
  rw [← Item.reread_iff_decode hregular, get_eq, h.items, hitem]
  cases hread : item.reread <;> simp [hread, Except.map]

theorem kept_iff (h : Tallies log store) (hitem : recorded log id = some item) :
    store.get id = .ok (some item) ↔
      item.isReadable = true ∧ item.state.current.transcribed = item.state.current := by
  rw [h.get_iff, hitem, Option.map_some, Option.some.injEq, Item.transcribed_eq_self, and_comm]
  simp

theorem mem_entries (h : Tallies log store) (id : String) (item : Item) :
    (id, item) ∈ store.items.entries ↔ recorded log id = some item := by
  rw [← h.items, Table.find?_iff_mem]

theorem mem_listed (h : Tallies log store) (id : String) (item : Item) :
    (id, item) ∈ store.listed ↔ (recorded log id).map Item.transcribed = some item := by
  rw [Store.mem_listed, h.items, Option.map_eq_some_iff]
  exact exists_congr fun stored => and_congr_right fun _ => eq_comm

theorem list_iff (h : Tallies log store) (entries : List (String × Item)) :
    store.list = .ok entries ↔
      (entries.Pairwise fun first later => first.1 < later.1) ∧
        (∀ id item, (id, item) ∈ entries ↔
          (recorded log id).map Item.transcribed = some item) ∧
        ∀ id item, recorded log id = some item → item.isReadable = true := by
  have hreadable : (∀ entry ∈ store.items.entries, entry.2.isReadable = true) ↔
      ∀ id item, recorded log id = some item → item.isReadable = true := by
    rw [Prod.forall]
    exact forall_congr' fun id => forall_congr' fun item => imp_congr (h.mem_entries id item) .rfl
  have hsorted : store.listed.Pairwise fun first later => first.1 < later.1 :=
    List.pairwise_map.2 store.items.sorted
  rw [list_ok_iff, hreadable]
  constructor
  · rintro ⟨hreadable, rfl⟩
    exact ⟨hsorted, h.mem_listed, hreadable⟩
  · rintro ⟨hentries, hmem, hreadable⟩
    have htable : (⟨entries, hentries⟩ : Table Item) = ⟨_, hsorted⟩ := by
      refine Table.ext_find? fun key => Option.ext fun item => ?_
      rw [Table.find?_iff_mem, Table.find?_iff_mem, hmem, h.mem_listed]
    exact ⟨hreadable, congrArg Table.entries htable⟩

theorem update_iff (h : Tallies log store) (id : String) (change : State → State) (state : State) :
    (store.update id change).1 = .ok state ↔
      ∃ item, recorded log id = some item ∧ item.isReadable = true ∧
        state = change item.state.transcribed := by
  rw [← h.items]
  obtain ⟨item, hfound, hreadable, hresult, -⟩ | ⟨hunreadable, ⟨e, hresult⟩, -⟩ :=
    update_cases id change store
  · rw [hresult]
    constructor
    · intro heq
      exact ⟨item, hfound, hreadable, (Except.ok.inj heq).symm⟩
    · rintro ⟨other, hother, -, rfl⟩
      rw [Option.some.inj (hfound.symm.trans hother)]
  · rw [hresult]
    refine iff_of_false (fun heq => by cases heq) ?_
    rintro ⟨item, hfound, hreadable, -⟩
    exact absurd hreadable (by simp [hunreadable item hfound])

theorem save_iff (h : Tallies log store) (state : State) :
    (store.save state).1 = .ok () ↔
      ∃ item, recorded log state.programId = some item ∧ item.isReadable = true := by
  rw [← h.items]
  obtain ⟨item, hfound, hreadable, hresult, -⟩ | ⟨hunreadable, ⟨e, hresult⟩, -⟩ :=
    save_cases state store
  · exact iff_of_true hresult ⟨item, hfound, hreadable⟩
  · rw [hresult]
    refine iff_of_false (fun heq => by cases heq) ?_
    rintro ⟨item, hfound, hreadable⟩
    exact absurd hreadable (by simp [hunreadable item hfound])

theorem remembers (h : Tallies log store) : Remembers log store where
  insert_iff program := (insert_ok_iff program store).trans (not_congr (h.isUsed program.id))
  once := h.once
  filed _ _ hitem := h.filed hitem
  get_iff := h.get_iff
  text_iff _ _ _ hitem := h.text_iff hitem
  kept_iff _ _ hitem := h.kept_iff hitem
  list_iff := h.list_iff
  update_iff := h.update_iff
  save_iff := h.save_iff
  remove_iff id item := by rw [remove_ok_iff, h.items]
  unclaimed id item hremoved := by
    rw [claim?, claims_remove hremoved, if_pos rfl]
  apart request _ _ hnamed hne := (responds request store).apart hnamed hne
  refused request hrefused := (responds request store).unchanged hrefused
  interrupted request count := by
    rw [interrupted_eq]
    exact ite_eq_or_eq _ _ _

end Tallies

/-- However a store is used from the start, it remembers what it was used for. -/
theorem remembers_uses (uses : List Use) : Remembers (logAll uses empty) (afterAll uses empty) :=
  (Tallies.empty.uses uses).remembers

/-- Of what was written last, the rate comes back with another last digit. -/
theorem priced_slips :
    let uses : List Use :=
      [.transact (.insert Item.priced.program), .transact (.save Item.priced.state)]
    recorded (logAll uses empty) "p1" = some Item.priced ∧ Item.priced.state.IsRegular ∧
      ∃ found, (afterAll uses empty).get "p1" = .ok (some found) ∧
        found.state.effect ≠ Item.priced.state.effect := by
  refine ⟨rfl, ?_, Item.priced.transcribed, rfl, by decide +kernel⟩
  rintro effect ⟨⟩
  exact .await trivial

end ProgramQueue.Store
