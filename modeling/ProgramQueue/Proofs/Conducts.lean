import ProgramQueue.Proofs.Disciplines

/-!
# How a task holds programs

A task takes the lock of its process before it claims a program in the store, dates the
claim with the time that it has just read, and drops the claim before it lets go of the
lock.  Between its claim and the release it asks nothing that has to do with claims.  The
store keeps a claim that is young enough from everyone else.
-/

namespace ProgramQueue.Queue

open ProgramQueue.Task (Within Obeys within_request obeys_bind obeys_request)

/-- How far a task is with holding a program. -/
inductive Conduct where
  /-- It has no program; and the last time that it has read since it had one. -/
  | free (reading : Option Int)
  /-- It has the lock of a program, but has not claimed it; and the last time that it has
  read since. -/
  | locked (id : String) (reading : Option Int)
  /-- It is between its claim of a program and the release; and the date of the claim. -/
  | inside (id : String) (since : Int)

namespace Conduct

/-- The program of which the task has the lock. -/
def locked? : Conduct → Option String
  | free _ => none
  | locked id _ => some id
  | inside id _ => some id

/-- The last time that was read. -/
def reading? : Conduct → Option Int
  | free reading => reading
  | locked _ reading => reading
  | inside _ _ => none

def after : Conduct → (request : Request) → request.Answer → Conduct
  | free _, .lock id, _ => locked id none
  | free _, .wallClock, now => free (some now)
  | locked id _, .wallClock, now => locked id (some now)
  | _, .store (.tryClaim id _ now _), .ok true => inside id now
  | locked _ _, .unlock _, _ => free none
  | inside id _, .store (.release _ _), _ => locked id none
  | conduct, _, _ => conduct

theorem after_tryClaim (key owner : String) (last : Option Int) (now : Int)
    (seconds : Nat) (answer : Except Error Bool) :
    (locked key last).after (.store (.tryClaim key owner now seconds)) answer = .locked key last ∨
      (locked key last).after (.store (.tryClaim key owner now seconds)) answer = .inside key now ∧
        answer = .ok true := by
  rcases answer with e | (_ | _)
  · exact .inl rfl
  · exact .inl rfl
  · exact .inr ⟨rfl, rfl⟩

/-- What a task of a queue with these settings may ask. -/
def Allows (settings : Settings) (conduct : Conduct) : Request → Prop
  | .lock _ => ∃ reading, conduct = free reading
  | .unlock id => ∃ reading, conduct = locked id reading
  | .store (.tryClaim id owner now ttl) =>
      conduct = locked id (some now) ∧ owner = settings.owner ∧ ttl = settings.lockTtl
  | .store (.release id owner) => (∃ since, conduct = inside id since) ∧ owner = settings.owner
  | .store (.recoverStale now maxAge) =>
      conduct = free (some now) ∧ maxAge = settings.lockTtl
  | .store (.remove _) => False
  | _ => True

end Conduct

def conduct (settings : Settings) : Discipline Surroundings Conduct where
  allows stage request := stage.Allows settings request
  after := Conduct.after

variable {α β : Type} {settings : Settings}

/-- A request that has nothing to do with locks, claims and their dates. -/
def Request.LeavesClaims : Request → Prop
  | .lock _ => False
  | .unlock _ => False
  | .wallClock => False
  | .store (.tryClaim _ _ _ _) => False
  | .store (.release _ _) => False
  | .store (.recoverStale _ _) => False
  | .store (.remove _) => False
  | _ => True

theorem conduct_leaves {request : Request} (h : request.LeavesClaims) (stage : Conduct) :
    (conduct settings).allows stage request ∧
      ∀ answer, (conduct settings).after stage request answer = stage := by
  cases request with
  | store request =>
      cases request <;> first | exact h.elim | (refine ⟨trivial, fun _ => ?_⟩; cases stage <;> rfl)
  | lock | unlock | wallClock => exact h.elim
  | outside | push | note => refine ⟨trivial, fun _ => ?_⟩; cases stage <;> rfl

theorem leaves_of_inner {request : Request} (h : request.IsInner) : request.LeavesClaims := by
  cases h with
  | remote hremote => cases hremote <;> trivial
  | get | save => trivial

theorem leaves_of_plain {request : Request} (h : request.IsPlain) : request.LeavesClaims := by
  cases h with
  | inquiry hinquiry => cases hinquiry <;> trivial
  | insert | get | list | update => trivial

/-- Whatever is answered, an operation conducts itself well, and has no program in the end. -/
def Conducted (settings : Settings) {α : Type} (operation : Operation α) : Prop :=
  ∀ reading, operation.Obeys (conduct settings) (fun _ stage => ∃ reading, stage = .free reading)
    (.free reading)

theorem conducted_pure (value : α) : Conducted settings (pure value) :=
  fun reading => ⟨reading, rfl⟩

theorem conducted_bind {operation : Operation α} {next : α → Operation β}
    (hfirst : Conducted settings operation) (hnext : ∀ value, Conducted settings (next value)) :
    Conducted settings (operation >>= next) := by
  intro reading
  apply obeys_bind.2
  apply (hfirst reading).imp
  rintro value _ ⟨later, rfl⟩
  exact hnext value later

/-- What is done while a program is held may be anything that leaves claims alone. -/
theorem conducted_holding (id : String) {task : Operation (Except Error α)}
    (h : task.Within Request.LeavesClaims) : Conducted settings (holding settings id task) := by
  intro reading
  have hunlocked (result : Except Error α) (last : Option Int) :
      (do unlock id; return result : Operation (Except Error α)).Obeys (conduct settings)
        (fun _ stage => ∃ reading, stage = .free reading) (.locked id last) :=
    obeys_bind.2 ⟨⟨last, rfl⟩, fun _ => ⟨none, rfl⟩⟩
  apply obeys_bind.2
  refine ⟨⟨reading, rfl⟩, fun _ => ?_⟩
  apply obeys_bind.2
  refine ⟨trivial, fun now => ?_⟩
  apply obeys_bind.2
  refine ⟨⟨rfl, rfl, rfl⟩, fun claimed => ?_⟩
  match claimed with
  | .ok true =>
      apply obeys_bind.2
      apply (h.obeys fun request hleaves => conduct_leaves hleaves (.inside id now)).imp
      rintro result _ rfl
      apply obeys_bind.2
      exact ⟨⟨⟨now, rfl⟩, rfl⟩, fun _ => hunlocked result none⟩
  | .ok false => exact hunlocked _ _
  | .error e => exact hunlocked _ _

theorem conducted (settings : Settings) : OperationCases settings (Conducted settings) where
  pure := conducted_pure
  bind := conducted_bind
  plain request hplain := by
    intro reading
    obtain ⟨hallowed, hstays⟩ := conduct_leaves (leaves_of_plain hplain) (.free reading)
    refine obeys_request.2 ⟨hallowed, fun answer => ⟨reading, hstays answer⟩⟩
  run id fired := conducted_holding id
    ((within_runHeld settings id fired).imp fun _ => leaves_of_inner)
  terminate id failure := conducted_holding id
    ((within_terminateHeld id failure).imp fun _ => leaves_of_inner)
  recover := by
    intro reading
    apply obeys_bind.2
    refine ⟨trivial, fun now => ?_⟩
    exact ⟨⟨rfl, rfl⟩, fun _ => ⟨some now, rfl⟩⟩

theorem claims_respond {request : Store.Request} (h : Request.LeavesClaims (.store request))
    (store : Store) : (Store.respond request store).2.claims = store.claims := by
  cases request with
  | insert program => exact Store.claims_insert program store
  | update key change => exact Store.claims_update key change store
  | save state => exact Store.claims_save state store
  | get | list | claim => rfl
  | remove | tryClaim | release | recoverStale => exact h.elim

end ProgramQueue.Queue
