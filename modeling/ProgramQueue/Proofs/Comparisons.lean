import ProgramQueue.Proofs.Lifetimes

/-!
# With a program and without it

An operation is compared with what it would be if a certain program were not stored and
its id were not free, in the same world.  If the world is asked for the same and answers
the same, then nothing was asked on behalf of that program.
-/

namespace ProgramQueue

namespace Task

variable {I : Interface} {σ α β : Type} (world : World I σ) (task : Task I α)
  (next : α → Task I β) (state : σ)

theorem value_bind : ((task >>= next).run world state).value =
    ((next (task.run world state).value).run world (task.run world state).state).value := by
  induction task generalizing state with
  | done value => rfl
  | ask request rest ih => exact ih _ _

theorem state_bind : ((task >>= next).run world state).state =
    ((next (task.run world state).value).run world (task.run world state).state).state := by
  induction task generalizing state with
  | done value => rfl
  | ask request rest ih => exact ih _ _

theorem log_bind : (task >>= next).log world state = task.log world state ++
    (next (task.run world state).value).log world (task.run world state).state := by
  induction task generalizing state with
  | done value => rfl
  | ask request rest ih => exact congrArg (_ :: ·) (ih _ _)

end Task

/-- Every record stands under the id of its program and of its state. -/
def Store.Keyed (store : Store) : Prop :=
  ∀ id item, store.items.find? id = some item → item.program.id = id ∧ item.state.programId = id

/-- The store as if a program were not there and its id could not be used. -/
def Store.without (id : String) (store : Store) : Store :=
  { store with items := store.items.erase id, retired := id :: store.retired }

namespace Queue

open ProgramQueue.Task (Follows Within within_request within_lift value_bind state_bind log_bind)

/-- The request goes to the world outside. -/
def Request.isCall : Request → Bool
  | .outside _ => true
  | .push _ => true
  | .wallClock => true
  | _ => false

/-- What the world outside was asked, and what it answered. -/
def calls (log : Log Surroundings) : Log Surroundings := log.filter (·.request.isCall)

/-- The same session with a program and without it. -/
structure Apart {σ : Type} (id : String) (item : Item) (session other : Session σ) : Prop where
  keyed : session.store.Keyed
  found : session.store.items.find? id = some item
  store : other.store = session.store.without id
  outer : other.outer = session.outer

/-- In the same world, with a program and without it, two operations make the same calls
and leave the same behind; their values are related in a certain way. -/
structure Alike {α β : Type} (id : String) (item : Item) (related : α → β → Prop)
    (operation : Operation α) (counterpart : Operation β) : Prop where
  abreast : ∀ {σ : Type} (host : Host σ) (session other : Session σ),
    Apart id item session other →
    related (operation.run host.world session).value (counterpart.run host.world other).value ∧
      Apart id item (operation.run host.world session).state
        (counterpart.run host.world other).state ∧
      calls (counterpart.log host.world other) = calls (operation.log host.world session)

variable {id key : String} {item : Item} {α β γ δ : Type}

/-! ## Rules -/

theorem alike_pure {related : α → β → Prop} {value : α} {counterpart : β}
    (h : related value counterpart) :
    Alike id item related (pure value) (pure counterpart) :=
  ⟨fun _ _ _ hapart => ⟨h, hapart, rfl⟩⟩

theorem alike_bind {related : α → β → Prop} {wanted : γ → δ → Prop} {operation : Operation α}
    {counterpart : Operation β} {next : α → Operation γ} {other : β → Operation δ}
    (hfirst : Alike id item related operation counterpart)
    (hnext : ∀ value answer, related value answer →
      Alike id item wanted (next value) (other answer)) :
    Alike id item wanted (operation >>= next) (counterpart >>= other) := by
  refine ⟨fun host session twin hapart => ?_⟩
  obtain ⟨hvalue, hmiddle, hcalls⟩ := hfirst.abreast host session twin hapart
  obtain ⟨hwanted, hlast, hrest⟩ := (hnext _ _ hvalue).abreast host _ _ hmiddle
  rw [value_bind, value_bind, state_bind, state_bind, log_bind, log_bind]
  refine ⟨hwanted, hlast, ?_⟩
  rw [calls, calls, List.filter_append, List.filter_append]
  exact congrArg₂ _ hcalls hrest

theorem Alike.imp {related weaker : α → β → Prop} {operation : Operation α}
    {counterpart : Operation β} (h : Alike id item related operation counterpart)
    (hweaker : ∀ value answer, related value answer → weaker value answer) :
    Alike id item weaker operation counterpart := by
  refine ⟨fun host session twin hapart => ?_⟩
  obtain ⟨hrelated, hrest⟩ := h.abreast host session twin hapart
  exact ⟨hweaker _ _ hrelated, hrest⟩

/-- A part that stops with an error may do so on one side only. -/
theorem alike_bindExcept {related : Except Error α → Except Error β → Prop}
    {wanted : Except Error γ → Except Error δ → Prop} {attempt : Attempt α}
    {counterpart : Attempt β} {next : α → Attempt γ} {other : β → Attempt δ}
    (hfirst : Alike id item related attempt.run counterpart.run)
    (hnext : ∀ value answer, related value answer →
      Alike id item wanted (ExceptT.bindCont next value) (ExceptT.bindCont other answer)) :
    Alike id item wanted (attempt >>= next).run (counterpart >>= other).run :=
  alike_bind hfirst hnext

/-- A request that is not to the store. -/
def Request.IsOutward : Request → Prop
  | .store _ => False
  | _ => True

theorem outward_of_remote {request : Request} (h : request.IsRemote) : request.IsOutward := by
  cases h <;> trivial

theorem Apart.eq {σ : Type} {session other : Session σ} (h : Apart id item session other) :
    other = ⟨session.store.without id, session.outer⟩ := by
  obtain ⟨store, outer⟩ := other
  exact congrArg₂ Session.mk h.store h.outer

theorem alike_request (request : Request) (h : request.IsOutward) :
    Alike id item Eq (Task.request (I := Surroundings) request)
      (Task.request (I := Surroundings) request) := by
  refine ⟨fun host session other hapart => ?_⟩
  obtain rfl := hapart.eq
  obtain ⟨hkeyed, hfound, -, -⟩ := hapart
  cases request with
  | store => cases h
  | _ => exact ⟨rfl, ⟨hkeyed, hfound, rfl, rfl⟩, rfl⟩

/-- Whatever asks nothing of the store makes no difference, and comes to a value that it can
come to. -/
theorem alike_outward {task : Operation α} (h : task.Within Request.IsOutward) :
    Alike id item (fun value answer => value = answer ∧ ∃ log, task.Follows log value)
      task task := by
  induction task with
  | done value => exact alike_pure ⟨rfl, [], .done value⟩
  | ask request next ih =>
      change Alike id item _ (Task.request request >>= next) (Task.request request >>= next)
      refine alike_bind (alike_request request h.1) ?_
      rintro answer _ rfl
      refine (ih answer (h.2 answer)).imp fun value _ ⟨heq, log, hfollows⟩ => ?_
      exact ⟨heq, _, .ask hfollows⟩

theorem alike_same {task : Operation α} (h : task.Within Request.IsOutward) :
    Alike id item Eq task task :=
  (alike_outward h).imp fun _ _ => And.left

/-- A transaction does the same with the program and without it, and leaves the program as
it is. -/
theorem alike_store {request : Store.Request}
    {related : request.Answer → request.Answer → Prop}
    (h : ∀ store : Store, store.Keyed → store.items.find? id = some item →
      related (Store.respond request store).1 (Store.respond request (store.without id)).1 ∧
        (Store.respond request store).2.Keyed ∧
        (Store.respond request store).2.items.find? id = some item ∧
        (Store.respond request (store.without id)).2 =
          (Store.respond request store).2.without id) :
    Alike id item related (store request) (store request) := by
  refine ⟨fun host session other hapart => ?_⟩
  obtain rfl := hapart.eq
  obtain ⟨hrelated, hkeyed, hfound, hstore⟩ := h session.store hapart.keyed hapart.found
  exact ⟨hrelated, ⟨hkeyed, hfound, hstore, rfl⟩, rfl⟩

/-! ## Transactions -/

theorem find?_without (store : Store) (id other : String) :
    (store.without id).items.find? other =
      if other = id then none else store.items.find? other :=
  store.items.find?_erase id other

/-- What is put under another id is put there in either case. -/
theorem without_insert (store : Store) (hne : key ≠ id) (next : Item) :
    ({ store.without id with items := (store.without id).items.insert key next } : Store) =
      ({ store with items := store.items.insert key next } : Store).without id := by
  rw [Store.without, Store.without, Table.erase_insert _ hne]

theorem keyed_puts {before after : Store} (h : before.Keyed) {next : Item}
    (hputs : Store.Puts key next before after) (hprogram : next.program.id = key)
    (hstate : next.state.programId = key) : after.Keyed := by
  intro other found hfound
  rw [hputs.items] at hfound
  split at hfound
  · rename_i heq
    obtain rfl := Option.some.inj hfound
    exact heq ▸ ⟨hprogram, hstate⟩
  · exact h other found hfound

theorem alike_get (hne : key ≠ id) :
    Alike id item (fun value answer => value = answer ∧ ∀ found, value = .ok (some found) →
      found.program.id = key ∧ found.state.programId = key)
      (store (.get key)) (store (.get key)) := by
  refine alike_store fun store hkeyed hfound => ?_
  have hsame : (store.without id).get key = store.get key := by
    rw [Store.get_eq, Store.get_eq, find?_without, if_neg hne]
  refine ⟨⟨hsame.symm, fun found hget => ?_⟩, hkeyed, hfound, rfl⟩
  obtain ⟨stored, hstored, -, rfl⟩ := Store.get_some hget
  exact hkeyed key stored hstored

/-- The program itself is found on one side only. -/
theorem alike_get_self (hreadable : item.isReadable = true) :
    Alike id item (fun value answer => value = .ok (some item.transcribed) ∧ answer = .ok none)
      (store (.get id)) (store (.get id)) := by
  refine alike_store fun store hkeyed hfound => ⟨⟨?_, ?_⟩, hkeyed, hfound, rfl⟩
  · change store.get id = _
    simp [Store.get_eq, hfound, Item.reread, hreadable, Except.map]
  · change (store.without id).get id = _
    simp [Store.get_eq, find?_without]

/-- Entries as they are listed: under the id of their program. -/
def Listed (id : String) (item : Item) (entries : List (String × Item)) : Prop :=
  ∀ entry ∈ entries, entry.2.program.id = entry.1 ∧ (entry.1 = id → entry.2 = item.transcribed)

/-- Leaving out a record that can be read does not change whether all can be read. -/
theorem list_without {store : Store}
    (hreadable : ∀ entry ∈ store.items.entries, entry.1 = id → entry.2.isReadable = true) :
    (store.without id).list = store.list.map (·.filter (·.1 != id)) := by
  rw [Store.list_eq, Store.list_eq]
  change (store.items.entries.filter (·.1 != id)).mapM _ = _
  generalize store.items.entries = entries at hreadable
  induction entries with
  | nil => rfl
  | cons entry rest ih =>
      obtain ⟨hfirst, hrest⟩ := List.forall_mem_cons.1 hreadable
      rw [List.mapM_cons]
      by_cases hkey : entry.1 = id
      · rw [List.filter_cons_of_neg (by simpa using hkey), ih hrest]
        rw [Item.reread, if_pos (hfirst hkey)]
        cases rest.mapM fun entry => entry.2.reread.map (entry.1, ·) with
        | error e => rfl
        | ok later =>
            exact congrArg Except.ok (List.filter_cons_of_neg (by simpa using hkey)).symm
      · rw [List.filter_cons_of_pos (by simpa using hkey), List.mapM_cons, ih hrest]
        cases entry.2.reread with
        | error e => rfl
        | ok item =>
            cases rest.mapM fun entry => entry.2.reread.map (entry.1, ·) with
            | error e => rfl
            | ok later =>
                exact congrArg Except.ok (List.filter_cons_of_pos (by simpa using hkey)).symm

/-- The program itself is listed on one side only. -/
theorem alike_list (hreadable : item.isReadable = true) :
    Alike id item (fun value answer => (∃ e, value = .error e ∧ answer = .error e) ∨
      ∃ entries, value = .ok entries ∧ answer = .ok (entries.filter (·.1 != id)) ∧
        Listed id item entries)
      (store .list) (store .list) := by
  refine alike_store fun store hkeyed hfound => ⟨?_, hkeyed, hfound, rfl⟩
  have hentries : ∀ entry ∈ store.items.entries,
      entry.2.program.id = entry.1 ∧ (entry.1 = id → entry.2 = item) := fun entry hentry => by
    have hentry := Table.find?_of_mem hentry
    refine ⟨(hkeyed _ _ hentry).1, fun heq => ?_⟩
    exact Option.some.inj (hentry.symm.trans (heq ▸ hfound))
  have hwithout := list_without fun entry hentry hkey => (hentries entry hentry).2 hkey ▸ hreadable
  change (∃ e, store.list = .error e ∧ (store.without id).list = .error e) ∨
    ∃ entries, store.list = .ok entries ∧
      (store.without id).list = .ok (entries.filter (·.1 != id)) ∧ Listed id item entries
  rw [hwithout]
  cases hlist : store.list with
  | error e => exact Or.inl ⟨e, rfl, rfl⟩
  | ok entries =>
      refine Or.inr ⟨entries, rfl, rfl, ?_⟩
      rw [Store.list_ok hlist]
      refine List.forall_mem_map.2 fun entry hentry => ?_
      exact (hentries entry hentry).imp_right fun h hkey => congrArg Item.transcribed (h hkey)

theorem insert_without {store : Store} (hfound : store.items.find? id = some item)
    (program : Program) :
    (store.without id).insert program =
      ((store.insert program).1, (store.insert program).2.without id) := by
  have hused : (program.id ∈ (store.without id).retired ∨
      (store.without id).items.contains program.id) ↔
        (program.id ∈ store.retired ∨ store.items.contains program.id) := by
    unfold Table.contains
    rw [find?_without, Store.without, List.mem_cons]
    by_cases hid : program.id = id
    · simp [hid, hfound]
    · simp [hid]
  rw [Store.insert_eq, Store.insert_eq]
  by_cases h : program.id ∈ store.retired ∨ store.items.contains program.id
  · rw [if_pos (hused.2 h), if_pos h]
  · have hne : program.id ≠ id := fun hid => h (Or.inr (by simp [Table.contains, hid, hfound]))
    rw [if_neg (mt hused.1 h), if_neg h]
    exact congrArg (Prod.mk _) (without_insert store hne _)

/-- The id of the program itself is refused in either case. -/
theorem alike_insert (program : Program) :
    Alike id item (fun value answer => value = answer ∧ ∀ stored, value = .ok stored →
      program.id ≠ id) (store (.insert program)) (store (.insert program)) := by
  refine alike_store fun store hkeyed hfound => ?_
  have hwithout := insert_without hfound program
  refine ⟨⟨(congrArg Prod.fst hwithout).symm, fun stored hstored => ?_⟩, ?_, ?_,
    congrArg Prod.snd hwithout⟩
  all_goals
    obtain ⟨hnone, -, -, hputs⟩ | ⟨-, hrefused⟩ := store.insert_cases program
  · exact fun heq => by cases hfound.symm.trans (heq ▸ hnone)
  · cases hstored.symm.trans (congrArg Prod.fst hrefused)
  · exact keyed_puts hkeyed hputs rfl rfl
  · exact (congrArg (Store.Keyed ·.2) hrefused).mpr hkeyed
  · have hne : id ≠ program.id := fun heq => by cases hfound.symm.trans (heq ▸ hnone)
    exact (hputs.other hne).trans hfound
  · exact (congrArg (·.2.items.find? id) hrefused).trans hfound

theorem update_without (store : Store) (hne : key ≠ id) (change : State → State) :
    (store.without id).update key change =
      ((store.update key change).1, (store.update key change).2.without id) := by
  rw [Store.update_eq, Store.update_eq, find?_without, if_neg hne]
  cases store.items.find? key with
  | none => rfl
  | some found =>
      dsimp only
      cases found.reread with
      | error e => rfl
      | ok found => exact congrArg (Prod.mk _) (without_insert store hne _)

theorem keyed_update {store : Store} (hkeyed : store.Keyed) (hfound : store.items.find? id = some item)
    (hne : key ≠ id) {change : State → State}
    (hchange : ∀ state, state.programId = key → (change state).programId = key) :
    (store.update key change).2.Keyed ∧
      (store.update key change).2.items.find? id = some item := by
  obtain ⟨other, hother, -, -, hputs⟩ | ⟨-, -, hsame⟩ := store.update_cases key change
  · obtain ⟨hprogram, hstate⟩ := hkeyed key other hother
    exact ⟨keyed_puts hkeyed hputs hprogram (hchange _ hstate),
      (hputs.other hne.symm).trans hfound⟩
  · rw [hsame]
    exact ⟨hkeyed, hfound⟩

/-- The state of another program is changed in either case. -/
theorem alike_update (hne : key ≠ id) {change : State → State}
    (hchange : ∀ state, state.programId = key → (change state).programId = key) :
    Alike id item Eq (store (.update key change)) (store (.update key change)) := by
  refine alike_store fun store hkeyed hfound => ?_
  have hwithout := update_without store hne change
  obtain ⟨hkeyed', hfound'⟩ := keyed_update hkeyed hfound hne hchange
  exact ⟨(congrArg Prod.fst hwithout).symm, hkeyed', hfound', congrArg Prod.snd hwithout⟩

theorem alike_save {state : State} (hne : state.programId ≠ id) :
    Alike id item Eq (store (.save state)) (store (.save state)) := by
  refine alike_store fun store hkeyed hfound => ?_
  have hwithout := update_without store hne fun _ => state
  obtain ⟨hkeyed', hfound'⟩ := keyed_update hkeyed hfound hne fun _ _ => rfl
  simp only [Store.respond, Store.save_eq, hwithout]
  exact ⟨trivial, hkeyed', hfound', trivial⟩

/-- Transactions that deal with claims only do not depend on what is stored. -/
theorem alike_kept {request : Store.Request} (hkeeps : request.keepsItems = true)
    (hwithout : ∀ store : Store, Store.respond request (store.without id) =
      ((Store.respond request store).1, (Store.respond request store).2.without id)) :
    Alike id item Eq (store request) (store request) := by
  refine alike_store fun store hkeyed hfound => ?_
  have hsame := Store.respond_same hkeeps store
  refine ⟨(congrArg Prod.fst (hwithout store)).symm, fun key found hkey => ?_,
    (hsame.items id).trans hfound, congrArg Prod.snd (hwithout store)⟩
  exact hkeyed key found ((hsame.items key).symm.trans hkey)

theorem claims_without (id : String) (store : Store) :
    (store.without id).claims = store.claims := rfl

theorem alike_tryClaim (key owner : String) (now : Int) (ttl : Nat) :
    Alike id item Eq (store (.tryClaim key owner now ttl))
      (store (.tryClaim key owner now ttl)) := by
  refine alike_kept rfl fun store => ?_
  simp only [Store.respond]
  rw [Store.tryClaim_eq, Store.tryClaim_eq, claims_without]
  cases Store.span ttl with
  | error e => rfl
  | ok ttl =>
      dsimp only
      split <;> rfl

theorem alike_release (key owner : String) :
    Alike id item Eq (store (.release key owner)) (store (.release key owner)) := by
  refine alike_kept rfl fun store => ?_
  simp only [Store.respond]
  rw [Store.release_eq, Store.release_eq, claims_without]
  split <;> rfl

theorem alike_recoverStale (now : Int) (maxAge : Nat) :
    Alike id item Eq (store (.recoverStale now maxAge))
      (store (.recoverStale now maxAge)) := by
  refine alike_kept rfl fun store => ?_
  simp only [Store.respond, Store.recoverStale_eq, Store.without]
  cases Store.span maxAge <;> rfl

/-! ## Runs and terminations -/

theorem alike_unlock {related : α → β → Prop} {value : α} {counterpart : β}
    (h : related value counterpart) :
    Alike id item related (do unlock key; return value) (do unlock key; return counterpart) :=
  alike_bind (alike_request (.unlock key) trivial) fun _ _ _ => alike_pure h

/-- Holding a program is the same in either case, if the tasks are alike. -/
theorem alike_holding {related : Except Error α → Except Error β → Prop}
    {task : Operation (Except Error α)} {counterpart : Operation (Except Error β)}
    (settings : Settings) (key : String) (h : Alike id item related task counterpart)
    (herrors : ∀ e, related (.error e) (.error e)) :
    Alike id item related (holding settings key task) (holding settings key counterpart) := by
  refine alike_bind (alike_request (.lock key) trivial) fun _ _ _ => ?_
  refine alike_bind (alike_request .wallClock trivial) fun now _ hnow => ?_
  obtain rfl := hnow
  refine alike_bind (alike_tryClaim key settings.owner now settings.lockTtl) fun claimed _ heq => ?_
  obtain rfl := heq
  match claimed with
  | .ok true =>
      refine alike_bind h fun value answer hrelated => ?_
      refine alike_bind (alike_release key settings.owner) fun _ _ _ => ?_
      exact alike_unlock hrelated
  | .ok false => exact alike_unlock (herrors _)
  | .error e => exact alike_unlock (herrors e)

/-- A part that does the same in either case, in an operation that goes on in the same way. -/
theorem alike_bindSame {attempt : Attempt α} {next : α → Attempt β} {P : α → Prop}
    (hfirst : Alike id item (fun value answer => value = answer ∧ ∀ found, value = .ok found →
      P found) attempt.run attempt.run)
    (hnext : ∀ value, P value → Alike id item Eq (next value).run (next value).run) :
    Alike id item Eq (attempt >>= next).run (attempt >>= next).run := by
  refine alike_bindExcept hfirst ?_
  rintro (e | value) _ ⟨rfl, hvalue⟩
  · exact alike_pure rfl
  · exact hnext value (hvalue value rfl)

/-- The same where the value of the part does not matter. -/
theorem alike_bindEq {attempt : Attempt α} {next : α → Attempt β}
    (hfirst : Alike id item Eq attempt.run attempt.run)
    (hnext : ∀ value, Alike id item Eq (next value).run (next value).run) :
    Alike id item Eq (attempt >>= next).run (attempt >>= next).run :=
  alike_bindSame (P := fun _ => True) (hfirst.imp fun _ _ heq => ⟨heq, fun _ _ => trivial⟩)
    fun value _ => hnext value

theorem alike_liftEq {operation : Operation α} (h : Alike id item Eq operation operation) :
    Alike id item Eq (ExceptT.lift operation : Attempt α).run
      (ExceptT.lift operation : Attempt α).run :=
  alike_bind h fun _ _ heq => alike_pure (congrArg _ heq)

/-- The same where the part asks nothing of the store. -/
theorem alike_bindRemote {attempt : Attempt α} {next : α → Attempt β} {P : α → Prop}
    (hremote : attempt.run.Within Request.IsRemote)
    (hfirst : ∀ log value, attempt.run.Follows log (.ok value) → P value)
    (hnext : ∀ value, P value → Alike id item Eq (next value).run (next value).run) :
    Alike id item Eq (attempt >>= next).run (attempt >>= next).run := by
  refine alike_bindSame ((alike_outward (hremote.imp fun _ => outward_of_remote)).imp ?_) hnext
  rintro value _ ⟨rfl, log, hfollows⟩
  exact ⟨rfl, fun found hfound => hfirst log found (hfound ▸ hfollows)⟩

theorem alike_getExisting (hne : key ≠ id) :
    Alike id item (fun value answer => value = answer ∧ ∀ found, value = .ok found →
      found.program.id = key ∧ found.state.programId = key)
      (getExisting key).run (getExisting key).run := by
  refine alike_bindExcept (alike_get hne) ?_
  rintro value _ ⟨rfl, hkeyed⟩
  match value with
  | .error e => exact alike_pure ⟨rfl, nofun⟩
  | .ok none => exact alike_pure ⟨rfl, nofun⟩
  | .ok (some found) =>
      refine alike_pure ⟨rfl, ?_⟩
      rintro _ ⟨⟩
      exact hkeyed found rfl

/-- What asks nothing of the store completes with any store. -/
theorem completes_of_remote {task : Operation α} (h : task.Within Request.IsRemote)
    {log : Log Surroundings} {value : α} (hfollows : task.Follows log value) (store : Store) :
    Completes task store log value store := by
  refine ⟨hfollows, (serves_others fun entry hentry own heq => ?_).2 rfl⟩
  have hremote := h.follows hfollows entry hentry
  rw [heq] at hremote
  cases hremote

theorem alike_saved {state : State} (hne : state.programId ≠ id) :
    Alike id item Eq (do save state; return state : Attempt State).run
      (do save state; return state : Attempt State).run :=
  alike_bindEq (alike_save hne) fun _ => alike_pure rfl

/-- A run of another program is the same in either case. -/
theorem alike_runHeld (hne : key ≠ id) (settings : Settings) (fired : Option String) :
    Alike id item Eq (runHeld settings key fired).run (runHeld settings key fired).run := by
  refine alike_bindSame (alike_getExisting hne) fun found ⟨hprogram, hstate⟩ => ?_
  split
  · exact alike_pure rfl
  refine alike_bindRemote (P := fun _ => True) (within_lift (within_request (.note _)))
    (fun _ _ _ => trivial) fun _ _ => ?_
  refine alike_bindRemote (P := fun driven => driven.programId = key)
    (within_lift (remote_journaled _)) (fun log driven hfollows => ?_) fun driven hdriven => ?_
  · obtain ⟨_, ⟨⟩, hlift⟩ := Task.follows_lift.1 hfollows
    obtain ⟨inner, -, hdrive⟩ := Task.follows_relay hlift
    obtain ⟨-, effect, rfl⟩ := (Program.plansOn _ _).holds hdrive
    cases fired <;> exact hstate
  refine alike_bindRemote (P := fun _ => True) (within_lift (remote_outside _))
    (fun _ _ _ => trivial) fun now _ => ?_
  refine alike_bindEq (alike_save (hdriven ▸ hne)) fun _ => ?_
  split
  · rename_i hdone
    refine alike_bindRemote (P := fun state => state.programId = key)
      (within_lift (remote_finish _ _)) (fun log state hfollows => ?_) fun state hid => ?_
    · obtain ⟨_, ⟨⟩, hlift⟩ := Task.follows_lift.1 hfollows
      have hfinish := completes_of_remote (remote_finish _ _) hlift .empty
      obtain ⟨-, hsettles⟩ : _ ∧ Settles settings found.program _ log state :=
        finish_settles hdone hfinish
      exact hsettles.state.1.trans hdriven
    · exact alike_saved (hid ▸ hne)
  · rename_i hopen
    refine alike_bindRemote (P := fun state => state.programId = key)
      (remote_registerTriggers _ _ _) (fun log state hfollows => ?_) fun state hid => ?_
    · have hregister := completes_of_remote (remote_registerTriggers _ _ _) hfollows .empty
      obtain ⟨-, final, ⟨⟩, hsettles⟩ :=
        registerTriggers_settles (Bool.eq_false_iff.2 hopen) hregister
      exact hsettles.state.1.trans hdriven
    · exact alike_saved (hid ▸ hne)

/-- So is a termination. -/
theorem alike_terminateHeld (hne : key ≠ id) (failure : Failure) :
    Alike id item Eq (terminateHeld key failure).run (terminateHeld key failure).run := by
  refine alike_bindSame (alike_getExisting hne) fun found ⟨hprogram, hstate⟩ => ?_
  split
  · exact alike_pure rfl
  refine alike_bindRemote (P := fun _ => True) (within_lift (within_request (.note _)))
    (fun _ _ _ => trivial) fun _ _ => ?_
  refine alike_bindEq (alike_save (hstate ▸ hne)) fun _ => ?_
  refine alike_bindRemote (P := fun state => state.programId = key)
    (within_lift (remote_retireEvents _)) (fun log state hfollows => ?_) fun state hid => ?_
  · obtain ⟨_, ⟨⟩, hlift⟩ := Task.follows_lift.1 hfollows
    have hretire := completes_of_remote (remote_retireEvents _) hlift .empty
    obtain ⟨-, rfl, -⟩ := retireEvents_cases hretire
    exact hstate
  · exact alike_saved (hid ▸ hne)

end Queue

end ProgramQueue
