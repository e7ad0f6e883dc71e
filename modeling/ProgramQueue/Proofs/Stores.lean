import ProgramQueue.Proofs.Transactions
import ProgramQueue.Proofs.Transcriptions
import ProgramQueue.Push.Interest

/-!
# Transactions of the store

What each transaction does to the stored programs, and apart from them to the claims, seen
through what is found under an id.
-/

namespace ProgramQueue

namespace Item

/-- A record stands under the id of its program, and so do the events it lists. -/
structure FiledUnder (id : String) (item : Item) : Prop where
  program : item.program.id = id
  state : item.state.programId = id
  events : ∀ event ∈ item.state.pushEventIds, Push.programIdOf? event = some id

/-- A record is read back as its text keeps it, if it can be read. -/
theorem reread_cases (item : Item) :
    (item.isReadable = true ∧ item.reread = .ok item.transcribed) ∨
      (item.isReadable = false ∧ ∃ e, item.reread = .error e) := by
  unfold reread
  cases h : item.isReadable with
  | true => exact Or.inl ⟨rfl, rfl⟩
  | false => exact Or.inr ⟨rfl, _, rfl⟩

theorem FiledUnder.transcribed {id : String} {item : Item} (h : item.FiledUnder id) :
    item.transcribed.FiledUnder id := ⟨h.program, h.state, h.events⟩

theorem reread_error {item : Item} {e : Error} (h : item.reread = .error e) :
    e = item.depthError := by
  unfold reread at h
  split at h
  · cases h
  · exact (Except.error.inj h).symm

end Item

namespace Store

variable {before after middle : Store} {id : String} {item : Item}

/-- Every record stands under the id of its program. -/
def Filed (store : Store) : Prop :=
  ∀ id item, store.items.find? id = some item → item.FiledUnder id

/-- The record under an id is read from its text as it was written. -/
def Intact (id : String) (store : Store) : Prop :=
  ∀ item, store.items.find? id = some item → item.transcribed = item

/-- The same programs are stored, and the same ids are retired. -/
structure Same (before after : Store) : Prop where
  items : ∀ id, after.items.find? id = before.items.find? id
  retired : after.retired = before.retired

/-- A record was put under an id, and nothing else has changed. -/
structure Puts (id : String) (item : Item) (before after : Store) : Prop where
  items : ∀ other, after.items.find? other =
    if other = id then some item else before.items.find? other
  retired : after.retired = before.retired

/-- A program was dropped and its id retired, and nothing else has changed. -/
structure Drops (id : String) (before after : Store) : Prop where
  items : ∀ other, after.items.find? other =
    if other = id then none else before.items.find? other
  retired : after.retired = id :: before.retired

theorem Same.refl (store : Store) : Same store store := ⟨fun _ => rfl, rfl⟩

theorem Same.trans (first : Same before middle) (later : Same middle after) :
    Same before after :=
  ⟨fun id => (later.items id).trans (first.items id), later.retired.trans first.retired⟩

theorem Puts.self (h : Puts id item before after) : after.items.find? id = some item := by
  rw [h.items, if_pos rfl]

theorem Puts.other (h : Puts id item before after) {other : String} (hne : other ≠ id) :
    after.items.find? other = before.items.find? other := by
  rw [h.items, if_neg hne]

theorem Drops.other (h : Drops id before after) {other : String} (hne : other ≠ id) :
    after.items.find? other = before.items.find? other := by
  rw [h.items, if_neg hne]

theorem Puts.again {other : Item} (first : Puts id other before middle)
    (later : Puts id item middle after) : Puts id item before after where
  items name := by
    rw [later.items, first.items]
    split <;> rfl
  retired := later.retired.trans first.retired

theorem Same.puts (first : Same before middle) (later : Puts id item middle after) :
    Puts id item before after where
  items other := by rw [later.items, first.items]
  retired := later.retired.trans first.retired

theorem Puts.same (first : Puts id item before middle) (later : Same middle after) :
    Puts id item before after where
  items other := by rw [later.items, first.items]
  retired := later.retired.trans first.retired

theorem Filed.empty : Filed Store.empty := fun _ _ h => by cases h

theorem Filed.same (h : Filed before) (hsame : Same before after) : Filed after :=
  fun id item hitem => h id item ((hsame.items id).symm.trans hitem)

theorem Filed.puts (h : Filed before) (hputs : Puts id item before after)
    (hitem : item.FiledUnder id) : Filed after := fun other found hfound => by
  rw [hputs.items] at hfound
  split at hfound
  · rename_i heq
    rw [heq]
    exact Option.some.inj hfound ▸ hitem
  · exact h other found hfound

theorem Filed.drops (h : Filed before) (hdrops : Drops id before after) : Filed after :=
  fun other found hfound => by
    rw [hdrops.items] at hfound
    split at hfound
    · cases hfound
    · exact h other found hfound

theorem Intact.empty (id : String) : Store.empty.Intact id := fun _ h => by cases h

theorem Intact.state (h : before.Intact id) (hfound : before.items.find? id = some item) :
    item.state.transcribed = item.state := congrArg Item.state (h item hfound)

theorem Intact.same (h : before.Intact id) (hsame : Same before after) : after.Intact id :=
  fun item hitem => h item ((hsame.items id).symm.trans hitem)

theorem Puts.intact (h : Puts id item before after) (hitem : item.transcribed = item) :
    after.Intact id := fun found hfound => by
  obtain rfl := Option.some.inj (h.self.symm.trans hfound)
  exact hitem

/-! ## What the transactions do -/

theorem puts_insert (store : Store) (id : String) (item : Item) :
    Puts id item store { store with items := store.items.insert id item } :=
  ⟨fun other => store.items.find?_insert id other item, rfl⟩

/-- A program is stored if its id was never used, and refused otherwise. -/
theorem insert_cases (program : Program) (store : Store) :
    (store.items.find? program.id = none ∧ program.id ∉ store.retired ∧
        (store.insert program).1 = .ok (Item.fresh program) ∧
        Puts program.id (Item.fresh program) store (store.insert program).2) ∨
      ((∃ item, store.items.find? program.id = some item) ∨ program.id ∈ store.retired) ∧
        store.insert program = (.error (.programExists program.id), store) := by
  rw [insert_eq]
  split
  · rename_i hused
    refine Or.inr ⟨?_, rfl⟩
    obtain hretired | hstored := hused
    · exact Or.inr hretired
    · exact Or.inl (Option.isSome_iff_exists.1 hstored)
  · rename_i hunused
    rw [not_or] at hunused
    refine Or.inl ⟨?_, hunused.1, rfl, puts_insert store _ _⟩
    simpa [Table.contains] using hunused.2

theorem get_some {store : Store} (h : store.get id = .ok (some item)) :
    ∃ stored, store.items.find? id = some stored ∧ stored.isReadable = true ∧
      item = stored.transcribed := by
  rw [get_eq] at h
  cases hfound : store.items.find? id with
  | none => rw [hfound] at h; cases h
  | some found =>
      simp only [hfound] at h
      obtain ⟨hreadable, heq⟩ | ⟨-, e, heq⟩ := found.reread_cases
      · rw [heq] at h
        cases h
        exact ⟨found, rfl, hreadable, rfl⟩
      · rw [heq] at h
        cases h

/-- A program can be looked up if its record can be read. -/
theorem get_iff (hfound : before.items.find? id = some item) :
    before.get id = .ok (some item.transcribed) ↔ item.isReadable = true := by
  rw [get_eq, hfound]
  cases hreadable : item.isReadable <;> simp [Item.reread, hreadable, Except.map]

theorem get_ne_ok (hfound : before.items.find? id = some item)
    (hunreadable : item.isReadable = false) (found : Option Item) :
    before.get id ≠ .ok found := by
  simp [get_eq, hfound, Item.reread, hunreadable, Except.map]

/-- A program is not read only if its record nests too deep. -/
theorem get_error {store : Store} {e : Error} (h : store.get id = .error e) :
    ∃ item : Item, e = item.depthError := by
  rw [get_eq] at h
  cases hfound : store.items.find? id with
  | none =>
      rw [hfound] at h
      cases h
  | some found =>
      rw [hfound] at h
      dsimp only at h
      cases hread : found.reread with
      | error given =>
          rw [hread] at h
          obtain rfl := Except.error.inj h
          exact ⟨found, Item.reread_error hread⟩
      | ok item =>
          rw [hread] at h
          cases h

/-- The records as they are listed: as their texts keep them. -/
def listed (store : Store) : List (String × Item) :=
  store.items.entries.map fun entry => (entry.1, entry.2.transcribed)

theorem mem_listed {store : Store} {entry : String × Item} :
    entry ∈ store.listed ↔
      ∃ stored, store.items.find? entry.1 = some stored ∧ entry.2 = stored.transcribed := by
  rw [listed, List.mem_map]
  constructor
  · rintro ⟨⟨id, stored⟩, hmem, rfl⟩
    exact ⟨stored, Table.find?_of_mem hmem, rfl⟩
  · rintro ⟨stored, hfound, heq⟩
    exact ⟨(entry.1, stored), Table.mem_of_find? hfound, Prod.ext rfl heq.symm⟩

/-- All programs are listed if every record can be read. -/
theorem list_ok_iff {store : Store} {entries : List (String × Item)} :
    store.list = .ok entries ↔
      (∀ entry ∈ store.items.entries, entry.2.isReadable = true) ∧ entries = store.listed := by
  rw [list_eq, listed]
  induction store.items.entries generalizing entries with
  | nil =>
      rw [List.mapM_nil, List.map_nil]
      exact ⟨fun h => ⟨nofun, (Except.ok.inj h).symm⟩, fun h => h.2 ▸ rfl⟩
  | cons entry rest ih =>
      rw [List.mapM_cons, List.forall_mem_cons, List.map_cons]
      obtain ⟨hreadable, heq⟩ | ⟨hunreadable, e, heq⟩ := entry.2.reread_cases
      · rw [heq]
        cases hrest : rest.mapM fun entry => entry.2.reread.map (entry.1, ·) with
        | error e =>
            refine iff_of_false (fun h => by cases h) fun h => ?_
            cases hrest.symm.trans (ih.2 ⟨h.1.2, rfl⟩)
        | ok later =>
            obtain ⟨hlater, rfl⟩ := ih.1 hrest
            exact ⟨fun h => ⟨⟨hreadable, hlater⟩, (Except.ok.inj h).symm⟩, fun h => h.2 ▸ rfl⟩
      · rw [heq]
        refine iff_of_false (fun h => by cases h) fun h => ?_
        cases hunreadable.symm.trans h.1.1

/-- All programs can be listed if every record can be read. -/
theorem list_iff {store : Store} : (∃ entries, store.list = .ok entries) ↔
    ∀ entry ∈ store.items.entries, entry.2.isReadable = true :=
  ⟨fun ⟨_, h⟩ => (list_ok_iff.1 h).1, fun h => ⟨_, list_ok_iff.2 ⟨h, rfl⟩⟩⟩

theorem list_ok {store : Store} {entries : List (String × Item)}
    (h : store.list = .ok entries) : entries = store.listed :=
  (list_ok_iff.1 h).2

/-- The state of a program is changed from what is read of it, if its record can be read. -/
theorem update_cases (id : String) (change : State → State) (store : Store) :
    (∃ item, store.items.find? id = some item ∧ item.isReadable = true ∧
        (store.update id change).1 = .ok (change item.state.transcribed) ∧
        Puts id { item with state := change item.state.transcribed } store
          (store.update id change).2) ∨
      (∀ item, store.items.find? id = some item → item.isReadable = false) ∧
        (∃ e, (store.update id change).1 = .error e) ∧ (store.update id change).2 = store := by
  rw [update_eq]
  cases hfound : store.items.find? id with
  | none => exact Or.inr ⟨nofun, ⟨_, rfl⟩, rfl⟩
  | some item =>
      obtain ⟨hreadable, heq⟩ | ⟨hunreadable, e, heq⟩ := item.reread_cases
      · exact Or.inl ⟨item, rfl, hreadable, by simp only [heq]; rfl, by
          simp only [heq]
          exact puts_insert store id _⟩
      · refine Or.inr ⟨fun found h => ?_, ⟨e, by simp only [heq]⟩, by simp only [heq]⟩
        exact Option.some.inj h ▸ hunreadable

theorem save_cases (state : State) (store : Store) :
    (∃ item, store.items.find? state.programId = some item ∧ item.isReadable = true ∧
        (store.save state).1 = .ok () ∧
        Puts state.programId { item with state := state } store (store.save state).2) ∨
      (∀ item, store.items.find? state.programId = some item → item.isReadable = false) ∧
        (∃ e, (store.save state).1 = .error e) ∧ (store.save state).2 = store := by
  rw [save_eq]
  obtain ⟨item, hfound, hreadable, hresult, hputs⟩ | ⟨hnone, ⟨e, hresult⟩, hsame⟩ :=
    update_cases state.programId (fun _ => state) store
  · exact Or.inl ⟨item, hfound, hreadable, by rw [hresult]; rfl, hputs⟩
  · exact Or.inr ⟨hnone, ⟨e, by rw [hresult]; rfl⟩, hsame⟩

/-- A state is not stored only if its program is not there or nests too deep. -/
theorem save_error {state : State} {store : Store} {e : Error}
    (h : (store.save state).1 = .error e) :
    e = .programNotFound state.programId ∨ ∃ item : Item, e = item.depthError := by
  rw [save_eq, update_eq] at h
  cases hfound : store.items.find? state.programId with
  | none =>
      rw [hfound] at h
      exact Or.inl (Except.error.inj h).symm
  | some found =>
      rw [hfound] at h
      dsimp only at h
      cases hread : found.reread with
      | error given =>
          rw [hread] at h
          obtain rfl := Except.error.inj h
          exact Or.inr ⟨found, Item.reread_error hread⟩
      | ok item =>
          rw [hread] at h
          cases h

/-- A program is dropped if its record can be read. -/
theorem remove_cases (id : String) (store : Store) :
    (∃ item, store.items.find? id = some item ∧ (store.remove id).1 = .ok item.transcribed ∧
        Drops id store (store.remove id).2) ∨
      (∃ e, (store.remove id).1 = .error e) ∧ (store.remove id).2 = store := by
  rw [remove_eq]
  cases hfound : store.items.find? id with
  | none => exact Or.inr ⟨⟨_, rfl⟩, rfl⟩
  | some item =>
      obtain ⟨hreadable, heq⟩ | ⟨hunreadable, e, heq⟩ := item.reread_cases
      · exact Or.inl ⟨item, rfl, by simp only [heq], by
          simp only [heq]
          exact ⟨fun other => store.items.find?_erase id other, rfl⟩⟩
      · exact Or.inr ⟨⟨e, by simp only [heq]⟩, by simp only [heq]⟩

theorem remove_ok_iff {store : Store} : (store.remove id).1 = .ok item ↔
    ∃ stored, store.items.find? id = some stored ∧ stored.isReadable = true ∧
      item = stored.transcribed := by
  rw [remove_eq]
  cases store.items.find? id with
  | none => exact iff_of_false (fun h => by cases h) (fun ⟨_, h, _⟩ => by cases h)
  | some found =>
      obtain ⟨hreadable, heq⟩ | ⟨hunreadable, e, heq⟩ := found.reread_cases
      · simp only [heq]
        constructor
        · intro h
          cases h
          exact ⟨found, rfl, hreadable, rfl⟩
        · rintro ⟨stored, hfound, -, rfl⟩
          rw [Option.some.inj hfound]
      · simp only [heq]
        refine iff_of_false (fun h => by cases h) ?_
        rintro ⟨stored, hfound, hreadable, -⟩
        cases hfound
        rw [hunreadable] at hreadable
        cases hreadable

/-- A request that looks something up or deals with claims only. -/
def Request.keepsItems : Request → Bool
  | .get _ | .list | .tryClaim .. | .release .. | .claim _ | .recoverStale .. => true
  | .insert _ | .update .. | .save _ | .remove _ => false

theorem respond_same {request : Request} (h : request.keepsItems = true) (store : Store) :
    Same store (respond request store).2 := by
  cases request with
  | get | list | claim => exact Same.refl store
  | tryClaim id owner now ttl =>
      rw [respond, tryClaim_eq]
      split
      · exact Same.refl store
      · split
        · exact Same.refl store
        · exact ⟨fun _ => rfl, rfl⟩
  | release id owner =>
      rw [respond, release_eq]
      split
      · exact ⟨fun _ => rfl, rfl⟩
      · exact Same.refl store
  | recoverStale now maxAge =>
      rw [respond, recoverStale_eq]
      split
      · exact Same.refl store
      · exact ⟨fun _ => rfl, rfl⟩
  | insert | update | save | remove => cases h

/-! ## Claims -/

section Claims

variable {store : Store} {key owner : String} {claim : Claim} {now : Int} {seconds : Nat}

theorem claims_insert (program : Program) (store : Store) :
    (store.insert program).2.claims = store.claims := by
  rw [insert_eq]
  split <;> rfl

theorem claims_update (key : String) (change : State → State) (store : Store) :
    (store.update key change).2.claims = store.claims := by
  rw [update_eq]
  cases store.items.find? key with
  | none => rfl
  | some item =>
      dsimp only
      cases item.reread <;> rfl

theorem claims_save (state : State) (store : Store) :
    (store.save state).2.claims = store.claims := by
  rw [save_eq, claims_update]

/-- A claim is dropped together with its program. -/
theorem claims_remove (h : (store.remove key).1 = .ok item) (id : String) :
    (store.remove key).2.claims.find? id = if id = key then none else store.claims.find? id := by
  rw [remove_eq] at h ⊢
  cases hfound : store.items.find? key with
  | none =>
      rw [hfound] at h
      cases h
  | some found =>
      rw [hfound] at h
      dsimp only at h ⊢
      cases hread : found.reread with
      | error e =>
          rw [hread] at h
          cases h
      | ok item => exact store.claims.find?_erase key id

/-- A claim of someone else that does not count as abandoned keeps a program from being
claimed. -/
theorem tryClaim_refused (hfound : store.claims.find? id = some claim)
    (howner : claim.owner ≠ owner) (hlive : now < claim.claimedAt + seconds * 1000) :
    (store.tryClaim id owner now seconds).2 = store := by
  rw [tryClaim_eq]
  unfold span
  by_cases hspan : seconds ≤ longestSpan
  · simp [hspan, hfound, howner, hlive]
  · simp [hspan]

theorem tryClaim_other (hne : id ≠ key) :
    (store.tryClaim key owner now seconds).2.claims.find? id = store.claims.find? id := by
  rw [tryClaim_eq]
  cases span seconds with
  | error e => rfl
  | ok ttl =>
      dsimp only
      split
      · rfl
      · rw [Table.find?_insert, if_neg hne]

theorem tryClaim_claimed (h : (store.tryClaim id owner now seconds).1 = .ok true) :
    (store.tryClaim id owner now seconds).2.claims.find? id = some ⟨owner, now⟩ := by
  rw [tryClaim_eq] at h ⊢
  cases hspan : span seconds with
  | error e =>
      rw [hspan] at h
      cases h
  | ok ttl =>
      rw [hspan] at h
      dsimp only at h ⊢
      split at h
      · cases h
      · rename_i hfree
        rw [if_neg hfree, Table.find?_insert, if_pos rfl]

/-- A claim that is not granted leaves the store as it is. -/
theorem tryClaim_denied (h : (store.tryClaim id owner now seconds).1 ≠ .ok true) :
    (store.tryClaim id owner now seconds).2 = store := by
  rw [tryClaim_eq] at h ⊢
  cases hspan : span seconds with
  | error e => rfl
  | ok ttl =>
      rw [hspan] at h
      dsimp only at h ⊢
      split at h
      · rename_i hheld
        rw [if_pos hheld]
      · exact absurd rfl h

/-- A claim is granted in place of one of someone else only if that counts as abandoned. -/
theorem tryClaim_expired (h : (store.tryClaim id owner now seconds).1 = .ok true)
    (hfound : store.claims.find? id = some claim) (howner : claim.owner ≠ owner) :
    claim.claimedAt + seconds * 1000 ≤ now := by
  refine Int.not_lt.1 fun hlive => ?_
  have hclaimed := tryClaim_claimed h
  rw [tryClaim_refused hfound howner hlive, hfound] at hclaimed
  exact howner (congrArg Claim.owner (Option.some.inj hclaimed))

theorem release_own (hfound : store.claims.find? id = some claim) (howner : claim.owner = owner)
    (key : String) : (store.release id owner).claims.find? key =
      if key = id then none else store.claims.find? key := by
  rw [release_eq]
  rw [hfound, if_pos (by simp [howner]), Table.find?_erase]

theorem release_other (hne : id ≠ key) :
    (store.release key owner).claims.find? id = store.claims.find? id := by
  rw [release_eq]
  split
  · rw [Table.find?_erase, if_neg hne]
  · rfl

/-- A claim that is not older than the given number of seconds is not dropped. -/
theorem recoverStale_kept (hfound : store.claims.find? id = some claim)
    (hyoung : now ≤ claim.claimedAt + seconds * 1000) :
    (store.recoverStale now seconds).2.claims.find? id = some claim := by
  rw [recoverStale_eq]
  unfold span
  by_cases hspan : seconds ≤ longestSpan
  · rw [if_pos hspan]
    apply Table.find?_filter_of hfound
    have hfresh : ¬claim.claimedAt < now - seconds * 1000 := by omega
    simp [hfresh]
  · rw [if_neg hspan]
    exact hfound

/-- Claims are dropped only if they count as abandoned. -/
theorem recoverStale_cases (id : String) (now : Int) (seconds : Nat) (store : Store) :
    (store.recoverStale now seconds).2.claims.find? id = store.claims.find? id ∨
      (store.recoverStale now seconds).2.claims.find? id = none ∧
        ∀ claim, store.claims.find? id = some claim → claim.claimedAt + seconds * 1000 ≤ now := by
  cases hafter : (store.recoverStale now seconds).2.claims.find? id with
  | none =>
      refine Or.inr ⟨rfl, fun claim hfound => Int.not_lt.1 fun hyoung => ?_⟩
      cases (recoverStale_kept hfound (Int.le_of_lt hyoung)).symm.trans hafter
  | some claim =>
      refine Or.inl ?_
      rw [recoverStale_eq] at hafter
      cases hspan : span seconds with
      | error e =>
          rw [hspan] at hafter
          exact hafter.symm
      | ok maxAge =>
          rw [hspan] at hafter
          exact (Table.find?_of_filter hafter).1.symm

end Claims

end Store

end ProgramQueue
