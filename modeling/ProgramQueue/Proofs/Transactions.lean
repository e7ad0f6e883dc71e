import ProgramQueue.Proofs.Tables
import ProgramQueue.Queue.Requests

/-!
# Transactions step by step

What each operation on a store comes to, from the steps of its transaction on the tables.
A transaction commits with its last step.  So if it is cut short after any number of steps,
what is found afterwards is the store as it was, or the store as the whole transaction
leaves it.
-/

namespace ProgramQueue

namespace Store

variable {α β : Type}

/-! ## Running the steps -/

/-- What a transaction comes to, and the tables with the copy it has worked on. -/
def Transaction.on (transaction : Transaction α) (database : Database) :
    Except Error α × Database :=
  let run := Task.run Database.world transaction database
  (run.value, run.state)

theorem perform_eq (transaction : Transaction α) (store : Store) :
    perform transaction store = ((transaction.on (.resting store)).1,
      (transaction.on (.resting store)).2.committed) := rfl

theorem on_access (step : Access) (next : step.Answer → Transaction β) (database : Database) :
    Transaction.on (access step >>= next) database =
      (next (database.respond step).1).on (database.respond step).2 := rfl

theorem on_result (result : Except Error α) (next : α → Transaction β) (database : Database) :
    Transaction.on ((liftM result : Transaction α) >>= next) database =
      match result with
      | .ok value => (next value).on database
      | .error e => (.error e, database) := by
  cases result <;> rfl

/-- The errors of a transaction are values of the task below it. -/
theorem map_eq_bind (transaction : Transaction α) (f : α → β) :
    (do return f (← transaction) : Transaction β) =
      Task.bind transaction fun result => .done (result.map f) := by
  refine congrArg (Task.bind transaction) (funext fun result => ?_)
  cases result <;> rfl

theorem run_map (task : Task Tables α) (f : α → β) (database : Database) :
    (task.bind fun value => .done (f value)).run Database.world database =
      { task.run Database.world database with
        value := f (task.run Database.world database).value } := by
  induction task generalizing database with
  | done value => rfl
  | ask step next ih =>
      simp only [Task.bind, Task.run, ih]

theorem on_map (transaction : Transaction α) (f : α → β) (database : Database) :
    Transaction.on (do return f (← transaction)) database =
      ((transaction.on database).1.map f, (transaction.on database).2) := by
  rw [map_eq_bind, Transaction.on, run_map]
  rfl

/-- Marks are dropped one by one. -/
theorem on_droppingEach (ids : List String) (next : Unit → Transaction β) (database : Database) :
    Transaction.on (droppingEach ids >>= next) database =
      (next ()).on (database.change fun store =>
        { store with claims := ids.foldl Table.erase store.claims }) := by
  induction ids generalizing database with
  | nil =>
      obtain ⟨committed, working⟩ := database
      cases working <;> rfl
  | cons id rest ih =>
      obtain ⟨committed, working⟩ := database
      refine (ih _).trans ?_
      cases working <;> rfl

/-! ## The operations -/

theorem insert_eq (program : Program) (store : Store) :
    store.insert program =
      if program.id ∈ store.retired ∨ store.items.contains program.id then
        (.error (.programExists program.id), store)
      else
        (.ok (.fresh program),
          { store with items := store.items.insert program.id (.fresh program) }) := by
  rw [insert, perform_eq, inserting, on_access, on_access]
  have hanswer : (Database.respond (.isRetired program.id)
      (Database.respond .beginWrite (.resting store)).2).1 = true ↔ program.id ∈ store.retired :=
    List.contains_iff_mem
  by_cases hretired : program.id ∈ store.retired
  · rw [if_pos (Or.inl hretired), if_pos (hanswer.2 hretired)]
    rfl
  · rw [if_neg (hretired <| hanswer.1 ·), on_access, Table.contains]
    dsimp only [Database.respond, Database.seen, Database.resting]
    rw [Option.getD_some]
    cases store.items.find? program.id with
    | none =>
        rw [if_neg (by simp [hretired])]
        rfl
    | some item =>
        rw [if_pos (Or.inr Option.isSome_some)]
        rfl

theorem get_eq (id : String) (store : Store) :
    store.get id = match store.items.find? id with
      | none => .ok none
      | some item => item.reread.map some := by
  rw [get, perform_eq, getting, on_access]
  dsimp only [Database.respond, Database.seen, Database.resting]
  rw [Option.getD_none]
  cases store.items.find? id with
  | none => rfl
  | some item =>
      dsimp only
      rw [on_result]
      cases item.reread <;> rfl

theorem list_eq (store : Store) :
    store.list = store.items.entries.mapM fun entry => entry.2.reread.map (entry.1, ·) := rfl

theorem update_eq (id : String) (change : State → State) (store : Store) :
    store.update id change = match store.items.find? id with
      | none => (.error (.programNotFound id), store)
      | some item =>
          match item.reread with
          | .error e => (.error e, store)
          | .ok item =>
              (.ok (change item.state),
                { store with
                  items := store.items.insert id { item with state := change item.state } }) := by
  rw [update, perform_eq, updating, on_access, on_access]
  dsimp only [Database.respond, Database.seen, Database.resting]
  rw [Option.getD_some]
  cases store.items.find? id with
  | none => rfl
  | some item =>
      dsimp only
      rw [on_result]
      cases item.reread <;> rfl

theorem save_eq (state : State) (store : Store) :
    store.save state = ((store.update state.programId fun _ => state).1.map fun _ => (),
      (store.update state.programId fun _ => state).2) := by
  rw [save, perform_eq, saving, on_map]
  rfl

theorem remove_eq (id : String) (store : Store) :
    store.remove id = match store.items.find? id with
      | none => (.error (.programNotFound id), store)
      | some item =>
          match item.reread with
          | .error e => (.error e, store)
          | .ok item =>
              (.ok item,
                { items := store.items.erase id
                  claims := store.claims.erase id
                  retired := id :: store.retired }) := by
  rw [remove, perform_eq, removing, on_access, on_access]
  dsimp only [Database.respond, Database.seen, Database.resting]
  rw [Option.getD_some]
  cases store.items.find? id with
  | none => rfl
  | some item =>
      dsimp only
      rw [on_result]
      cases item.reread <;> rfl

theorem tryClaim_eq (id owner : String) (now : Int) (ttl : Nat) (store : Store) :
    store.tryClaim id owner now ttl = match span ttl with
      | .error e => (.error e, store)
      | .ok ttl =>
          if (store.claims.find? id).any fun claim =>
              claim.owner != owner && now < claim.claimedAt + ttl then (.ok false, store)
          else (.ok true, { store with claims := store.claims.insert id ⟨owner, now⟩ }) := by
  rw [tryClaim, perform_eq, claiming, on_result]
  cases span ttl with
  | error e => rfl
  | ok ttl =>
      dsimp only
      rw [on_access, on_access]
      split
      · rename_i hheld
        rw [if_pos (show (store.claims.find? id).any _ = true from hheld)]
        rfl
      · rename_i hfree
        rw [if_neg (show ¬(store.claims.find? id).any _ = true from hfree)]
        rfl

theorem release_eq (id owner : String) (store : Store) :
    store.release id owner =
      if (store.claims.find? id).any (·.owner = owner) then
        { store with claims := store.claims.erase id }
      else store := by
  rw [release, perform_eq, releasing, on_access, on_access]
  split
  · rename_i hown
    rw [if_pos (show (store.claims.find? id).any _ = true from hown)]
    rfl
  · rename_i hother
    rw [if_neg (show ¬(store.claims.find? id).any _ = true from hother)]
    rfl

theorem recoverStale_eq (now : Int) (maxAge : Nat) (store : Store) :
    store.recoverStale now maxAge = match span maxAge with
      | .error e => (.error e, store)
      | .ok maxAge =>
          let isStale (entry : String × Claim) : Bool := entry.2.claimedAt < now - maxAge
          (.ok (store.claims.entries.filter isStale).length,
            { store with claims := store.claims.filter fun entry => !isStale entry }) := by
  rw [recoverStale, perform_eq, recovering, on_result]
  cases span maxAge with
  | error e => rfl
  | ok maxAge =>
      dsimp only
      rw [on_access, on_access, on_droppingEach]
      have hclaims := store.claims.foldl_erase_keys fun entry : String × Claim =>
        decide (entry.2.claimedAt < now - maxAge)
      exact Prod.ext rfl (congrArg (fun claims => { store with claims }) hclaims)

/-! ## What a transaction leaves when it is cut short -/

def Access.isCommit : Access → Bool
  | commit => true
  | _ => false

/-- Nothing is kept of a step before the commit. -/
theorem committed_respond {step : Access} (h : step.isCommit = false) (database : Database) :
    (database.respond step).2.committed = database.committed := by
  cases step with
  | commit => cases h
  | _ => rfl

/-- If a task commits, it does so with its last step. -/
inductive CommitsLast : Task Tables α → Prop
  | done (value : α) : CommitsLast (.done value)
  | commit (value : α) : CommitsLast (.ask .commit fun _ => .done value)
  | step {step : Access} {next : step.Answer → Task Tables α} (hstep : step.isCommit = false)
      (hnext : ∀ answer, CommitsLast (next answer)) : CommitsLast (.ask step next)

namespace CommitsLast

theorem access {step : Access} {next : step.Answer → Transaction α}
    (hstep : step.isCommit = false) (hnext : ∀ answer, CommitsLast (next answer)) :
    CommitsLast (Store.access step >>= next : Transaction α) := .step hstep hnext

theorem last : CommitsLast (Store.access .commit) := .commit (Except.ok ())

theorem result {next : α → Transaction β} (result : Except Error α)
    (hnext : ∀ value, CommitsLast (next value)) :
    CommitsLast ((liftM result : Transaction α) >>= next : Transaction β) := by
  cases result with
  | error e => exact .done _
  | ok value => exact hnext value

theorem map {task : Task Tables α} (h : CommitsLast task) (f : α → β) :
    CommitsLast (task.bind fun value => .done (f value)) := by
  induction h with
  | done value => exact .done _
  | commit value => exact .commit _
  | step hstep _ ih => exact .step hstep ih

/-- As long as a step is missing nothing has changed. -/
theorem committed {task : Task Tables α} (h : CommitsLast task) (count : Nat)
    (database : Database) : (task.stateAfter Database.world count database).committed =
      if count < (task.run Database.world database).requests.length then database.committed
      else (task.run Database.world database).state.committed := by
  induction h generalizing count database with
  | done => cases count <;> rfl
  | commit =>
      cases count with
      | zero => rfl
      | succ count => cases count <;> rfl
  | step hstep _ ih =>
      cases count with
      | zero => rfl
      | succ count =>
          refine (ih _ count _).trans ?_
          simp only [Task.run, List.length_cons, Nat.add_lt_add_iff_right]
          rw [← committed_respond hstep database]
          rfl

end CommitsLast

theorem commitsLast_droppingEach {next : Unit → Transaction α}
    (h : ∀ answer, CommitsLast (next answer)) (ids : List String) :
    CommitsLast (droppingEach ids >>= next : Transaction α) := by
  induction ids with
  | nil => exact h ()
  | cons id rest ih => exact CommitsLast.step rfl fun _ => ih

theorem commitsLast_updating (id : String) (change : State → State) :
    CommitsLast (updating id change) := by
  refine .access rfl fun _ => .access rfl fun found => ?_
  cases found with
  | none => exact .done _
  | some item => exact .result _ fun item => .access rfl fun _ => .commit _

/-- The transaction that is asked for, as steps on the tables. -/
def Request.transaction : (request : Request) → Task Tables request.Answer
  | insert program => inserting program
  | get id => getting id
  | list => listing
  | update id change => updating id change
  | save state => saving state
  | remove id => removing id
  | tryClaim id owner now ttl => claiming id owner now ttl
  | release id owner => Task.bind (releasing id owner) fun _ => .done ()
  | claim id => Task.request (I := Tables) (.claim id)
  | recoverStale now maxAge => recovering now maxAge

theorem Request.commitsLast (request : Request) : CommitsLast request.transaction := by
  cases request with
  | insert program =>
      refine .access rfl fun _ => .access rfl fun retired => ?_
      cases retired with
      | true => exact .done _
      | false =>
          refine .access rfl fun found => ?_
          cases found with
          | some item => exact .done _
          | none => exact .access rfl fun _ => .commit _
  | get id =>
      refine .access rfl fun found => ?_
      cases found with
      | none => exact .done _
      | some item => exact .result _ fun item => .done _
  | list => exact .step rfl fun _ => .done _
  | update id change => exact commitsLast_updating id change
  | save state =>
      rw [transaction, saving]
      exact map_eq_bind (updating _ _) _ ▸ (commitsLast_updating _ _).map _
  | remove id =>
      refine .access rfl fun _ => .access rfl fun found => ?_
      cases found with
      | none => exact .done _
      | some item =>
          exact .result _ fun item => .access rfl fun _ => .access rfl fun _ => .commit _
  | tryClaim id owner now ttl =>
      refine .result _ fun ttl => .access rfl fun _ => .access rfl fun found => ?_
      dsimp only
      split
      · exact .done _
      · exact .access rfl fun _ => .commit _
  | release id owner =>
      refine .map ?_ _
      refine .access rfl fun _ => .access rfl fun found => ?_
      split
      · exact .access rfl fun _ => .last
      · exact .last
  | claim id => exact .step rfl fun _ => .done _
  | recoverStale now maxAge =>
      refine .result _ fun maxAge => .access rfl fun _ => .access rfl fun found => ?_
      exact commitsLast_droppingEach (fun _ => .commit _) _

/-- A transaction that is taken to its end answers and leaves what the operation does. -/
theorem run_transaction (request : Request) (store : Store) :
    (request.transaction.run Database.world (.resting store)).value = (respond request store).1 ∧
      (request.transaction.run Database.world (.resting store)).state.committed =
        (respond request store).2 := by
  cases request with
  | insert | list | update | save | remove | tryClaim | claim | recoverStale => exact ⟨rfl, rfl⟩
  | get id =>
      refine ⟨rfl, ?_⟩
      change (Transaction.on (getting id) (.resting store)).2.committed = store
      rw [getting, on_access]
      dsimp only [Database.respond, Database.seen, Database.resting]
      rw [Option.getD_none]
      cases store.items.find? id with
      | none => rfl
      | some item =>
          dsimp only
          rw [on_result]
          cases item.reread <;> rfl
  | release id owner =>
      rw [Request.transaction, run_map]
      exact ⟨rfl, rfl⟩

/-- How many steps a transaction takes. -/
def steps (request : Request) (store : Store) : Nat :=
  (request.transaction.run Database.world (.resting store)).requests.length

/-- The process ends when so many steps of a transaction were taken, and the store is opened
again: the copy that was worked on is gone. -/
def interrupted (request : Request) (count : Nat) (store : Store) : Store :=
  (request.transaction.stateAfter Database.world count (.resting store)).committed

/-- If a step of a transaction is missing the store is as it was, and otherwise as the whole
transaction leaves it. -/
theorem interrupted_eq (request : Request) (count : Nat) (store : Store) :
    store.interrupted request count =
      if count < store.steps request then store else (respond request store).2 := by
  rw [interrupted, request.commitsLast.committed, (run_transaction request store).2]
  rfl

end Store

end ProgramQueue
