import ProgramQueue.Proofs.Comparisons
import ProgramQueue.Proofs.Conducts
import ProgramQueue.Proofs.Readability

/-!
# Operations that overlap

Of two operations that share a store each makes its requests in its own order, and the
store answers them in the order in which they come.  What is stored for a program at the
end is told by the requests that concern it, whichever operation they belong to.
-/

namespace ProgramQueue

/-- A list that is made of two others, each of which keeps its order. -/
inductive Interleaved {α : Type} : List α → List α → List α → Prop
  | nil : Interleaved [] [] []
  | left {entry : α} {first second merged : List α} (rest : Interleaved first second merged) :
      Interleaved (entry :: first) second (entry :: merged)
  | right {entry : α} {first second merged : List α} (rest : Interleaved first second merged) :
      Interleaved first (entry :: second) (entry :: merged)

namespace Interleaved

variable {α β : Type} {entry : α} {first second merged : List α}

theorem symm (h : Interleaved first second merged) : Interleaved second first merged := by
  induction h with
  | nil => exact .nil
  | left _ ih => exact .right ih
  | right _ ih => exact .left ih

theorem inOrder (first second : List α) : Interleaved first second (first ++ second) := by
  induction first with
  | cons entry first ih => exact .left ih
  | nil =>
      induction second with
      | nil => exact .nil
      | cons entry second ih => exact .right ih

/-- One list in the middle of the other. -/
theorem between (early second late : List α) :
    Interleaved (early ++ late) second (early ++ (second ++ late)) := by
  induction early with
  | nil => exact (inOrder second late).symm
  | cons entry early ih => exact .left ih

theorem map (f : α → β) (h : Interleaved first second merged) :
    Interleaved (first.map f) (second.map f) (merged.map f) := by
  induction h with
  | nil => exact .nil
  | left _ ih => exact .left ih
  | right _ ih => exact .right ih

theorem filter (keep : α → Bool) (h : Interleaved first second merged) :
    Interleaved (first.filter keep) (second.filter keep) (merged.filter keep) := by
  induction h with
  | nil => exact .nil
  | @left entry _ _ _ _ ih =>
      rw [List.filter_cons, List.filter_cons]
      split
      · exact .left ih
      · exact ih
  | @right entry _ _ _ _ ih =>
      rw [List.filter_cons, List.filter_cons]
      split
      · exact .right ih
      · exact ih

theorem mem (h : Interleaved first second merged) (hentry : entry ∈ merged) :
    entry ∈ first ∨ entry ∈ second := by
  induction h with
  | nil => cases hentry
  | left _ ih =>
      rcases List.mem_cons.1 hentry with rfl | hrest
      · exact Or.inl List.mem_cons_self
      · exact (ih hrest).imp_left (List.mem_cons_of_mem _)
  | right _ ih =>
      rcases List.mem_cons.1 hentry with rfl | hrest
      · exact Or.inr List.mem_cons_self
      · exact (ih hrest).imp_right (List.mem_cons_of_mem _)

/-- Where one of the two comes to a certain entry, the whole is parted. -/
theorem part {before after : List α} (h : Interleaved first (before ++ entry :: after) merged) :
    ∃ early late past next, first = early ++ late ∧ merged = past ++ entry :: next ∧
      Interleaved early before past ∧ Interleaved late after next := by
  generalize hsecond : before ++ entry :: after = second at h
  induction h generalizing before with
  | nil => cases List.append_eq_nil_iff.1 hsecond |>.2
  | @left other _ _ _ _ ih =>
      obtain ⟨early, late, past, next, rfl, rfl, hpast, hnext⟩ := ih hsecond
      exact ⟨other :: early, late, other :: past, next, rfl, rfl, .left hpast, hnext⟩
  | @right other first second merged rest ih =>
      cases before with
      | nil =>
          obtain ⟨rfl, rfl⟩ := List.cons.inj hsecond
          exact ⟨[], first, [], merged, rfl, rfl, .nil, rest⟩
      | cons same before =>
          obtain ⟨rfl, hrest⟩ := List.cons.inj hsecond
          obtain ⟨early, late, past, next, rfl, rfl, hpast, hnext⟩ := ih hrest
          exact ⟨early, late, same :: past, next, rfl, rfl, .right hpast, hnext⟩

theorem mem_of_left (h : Interleaved first second merged) (hentry : entry ∈ first) :
    entry ∈ merged := by
  induction h with
  | nil => cases hentry
  | left _ ih =>
      rcases List.mem_cons.1 hentry with rfl | hrest
      · exact List.mem_cons_self
      · exact List.mem_cons_of_mem _ (ih hrest)
  | right _ ih => exact List.mem_cons_of_mem _ (ih hentry)

theorem eq_of_nil (h : Interleaved first [] merged) : merged = first := by
  generalize hsecond : [] = second at h
  induction h with
  | nil => rfl
  | left _ ih => exact congrArg _ (ih hsecond)
  | right => cases hsecond

/-- Before the first entry of one of the two stand entries of the other only. -/
theorem head (h : Interleaved (entry :: first) second merged) :
    ∃ before later rest, second = before ++ later ∧ merged = before ++ entry :: rest ∧
      Interleaved first later rest := by
  have hparts : Interleaved second ([] ++ entry :: first) merged := h.symm
  obtain ⟨before, later, past, rest, rfl, rfl, hpast, hrest⟩ := hparts.part
  obtain rfl := hpast.eq_of_nil
  exact ⟨past, later, rest, rfl, rfl, hrest.symm⟩

end Interleaved

namespace Queue

open ProgramQueue.Task (Follows Within)

variable {settings : Settings} {program : Program} {before after store : Store}
  {log first second merged : Log Surroundings} {id : String} {item : Item}

/-! ## Requests that are granted -/

/-- What was asked was granted, as far as an operation can fail for it. -/
def Request.grants : (request : Request) → request.Answer → Bool
  | .outside (.walletInfo _), answer => answer.toBool
  | .push (.updateDevice _), answer => answer.toBool
  | .push (.updateLogin _), answer => answer.toBool
  | .store (.get _), answer => answer.toBool
  | .store .list, answer => answer.toBool
  | .store (.update _ _), answer => answer.toBool
  | .store (.save _), answer => answer.toBool
  | .store (.tryClaim _ _ _ _), answer => answer.toOption.getD false
  | _, _ => true

/-- All requests of a log were granted. -/
def Granted (log : Log Surroundings) : Prop :=
  ∀ entry ∈ log, entry.request.grants entry.answer = true

theorem Granted.sublist {part : Log Surroundings} (h : Granted log) (hpart : part ⊆ log) :
    Granted part := fun entry hentry => h entry (hpart hentry)

@[simp]
theorem granted_append {later : Log Surroundings} :
    Granted (log ++ later) ↔ Granted log ∧ Granted later := by
  unfold Granted
  rw [List.forall_mem_append]

@[simp]
theorem granted_cons {entry : Answered Surroundings} :
    Granted (entry :: log) ↔ entry.request.grants entry.answer = true ∧ Granted log := by
  unfold Granted
  rw [List.forall_mem_cons]

/-! ## What is stored for a program -/

/-- The state that is stored for a program once a request is granted. -/
def stateAfter (id : String) (state : State) : Request → State
  | .store (.update other change) => if other = id then change state.transcribed else state
  | .store (.save new) => if new.programId = id then new else state
  | _ => state

/-- The same once all of them are. -/
def stateThrough (id : String) (requests : List Request) (state : State) : State :=
  requests.foldl (stateAfter id) state

/-- A request that neither stores a program nor deletes one. -/
def Request.KeepsPrograms : Request → Prop
  | .store (.insert _) => False
  | .store (.remove _) => False
  | _ => True

/-- What is found under an id after one request that was granted. -/
theorem found_respond {request : Store.Request} {before : Store}
    (hkept : Request.KeepsPrograms (.store request))
    (hgrants : Request.grants (.store request) (Store.respond request before).1 = true)
    (id : String) : (Store.respond request before).2.items.find? id =
      (before.items.find? id).map fun item =>
        { item with state := stateAfter id item.state (.store request) } := by
  have hquiet (hitems : request.keepsItems = true)
      (hstate : ∀ state, stateAfter id state (.store request) = state) :
      (Store.respond request before).2.items.find? id =
        (before.items.find? id).map fun item =>
          { item with state := stateAfter id item.state (.store request) } := by
    rw [(Store.respond_same hitems before).items]
    simp [hstate]
  have hputs (change : State → State) {key : String} {found : Item}
      (hfound : before.items.find? key = some found)
      (hputs : Store.Puts key { found with state := change found.state } before
        (Store.respond request before).2)
      (hstate : ∀ state, stateAfter id state (.store request) =
        if key = id then change state else state) :
      (Store.respond request before).2.items.find? id =
        (before.items.find? id).map fun item =>
          { item with state := stateAfter id item.state (.store request) } := by
    rw [hputs.items]
    by_cases hid : id = key
    · subst hid
      simp [hfound, hstate]
    · simp [hid, hstate, Ne.symm hid]
  cases request with
  | insert | remove => exact hkept.elim
  | get | list | tryClaim | release | claim | recoverStale =>
      exact hquiet rfl fun _ => rfl
  | update key change =>
      rcases before.update_cases key change with
        ⟨found, hfound, -, -, hput⟩ | ⟨-, ⟨e, herror⟩, -⟩
      · exact hputs (fun state => change state.transcribed) hfound hput fun _ => rfl
      · have hgrants : (before.update key change).1.toBool = true := hgrants
        rw [herror] at hgrants
        cases hgrants
  | save state =>
      rcases before.save_cases state with ⟨found, hfound, -, -, hput⟩ | ⟨-, ⟨e, herror⟩, -⟩
      · exact hputs (fun _ => state) hfound hput fun _ => rfl
      · have hgrants : (before.save state).1.toBool = true := hgrants
        rw [herror] at hgrants
        cases hgrants

/-- What is found under an id is told by the requests that were granted. -/
theorem Serves.found (h : Serves before log after)
    (hkeeps : ∀ entry ∈ log, entry.request.KeepsPrograms) (hgranted : Granted log)
    (id : String) : after.items.find? id = (before.items.find? id).map fun item =>
      { item with state := stateThrough id (log.map (·.request)) item.state } := by
  induction h with
  | nil => simp [stateThrough]
  | @other before after request answer log hother rest ih =>
      have hsame (state : State) : stateAfter id state request = state := by
        cases request with
        | store own => exact absurd rfl (hother own)
        | _ => rfl
      rw [ih (fun entry hentry => hkeeps entry (List.mem_cons_of_mem _ hentry))
        (hgranted.sublist (List.subset_cons_self _ _))]
      simp only [List.map_cons, stateThrough, List.foldl_cons, hsame]
  | store _ ih =>
      rw [ih (fun entry hentry => hkeeps entry (List.mem_cons_of_mem _ hentry))
        (hgranted.sublist (List.subset_cons_self _ _)),
        found_respond (hkeeps _ List.mem_cons_self) (hgranted _ List.mem_cons_self),
        Option.map_map]
      rfl

/-- What happens to the record of a program. -/
inductive Mark where
  /-- It is listed together with all others. -/
  | listed
  /-- A run stores its state. -/
  | stored
  /-- The events that the server was sent for it are recorded. -/
  | recorded
deriving DecidableEq, Repr

def Request.mark? (id : String) : Request → Option Mark
  | .store .list => some .listed
  | .store (.save state) => if state.programId = id then some .stored else none
  | .store (.update other _) => if other = id then some .recorded else none
  | _ => none

/-- The requests of a log that show the record of a program or change it. -/
def concerning (id : String) (log : Log Surroundings) : List Request :=
  (log.map (·.request)).filter fun request => (request.mark? id).isSome

/-- What happens to the record of a program in a log. -/
def marks (id : String) (log : Log Surroundings) : List Mark :=
  (log.map (·.request)).filterMap (Request.mark? id)

theorem marks_eq (id : String) (log : Log Surroundings) :
    marks id log = (concerning id log).filterMap (Request.mark? id) := by
  rw [marks, concerning, List.filterMap_filter]
  congr 1
  funext request
  cases request.mark? id <;> rfl

@[simp]
theorem concerning_nil (id : String) : concerning id [] = [] := rfl

@[simp]
theorem concerning_append (id : String) (first later : Log Surroundings) :
    concerning id (first ++ later) = concerning id first ++ concerning id later := by
  simp [concerning]

theorem concerning_cons (id : String) (entry : Answered Surroundings) (log : Log Surroundings) :
    concerning id (entry :: log) =
      (if (entry.request.mark? id).isSome then [entry.request] else []) ++ concerning id log := by
  rw [concerning, List.map_cons, List.filter_cons]
  split <;> rfl

theorem interleaved_concerning (h : Interleaved first second merged) (id : String) :
    Interleaved (concerning id first) (concerning id second) (concerning id merged) :=
  (h.map _).filter _

/-- The requests that do not concern a program leave its state as it is. -/
theorem stateThrough_concerning (id : String) (log : Log Surroundings) (state : State) :
    stateThrough id (log.map (·.request)) state = stateThrough id (concerning id log) state := by
  have hother (state : State) (request : Request) (hmark : request.mark? id = none) :
      stateAfter id state request = state := by
    unfold Request.mark? at hmark
    unfold stateAfter
    split at hmark <;> simp_all
  unfold stateThrough concerning
  induction log.map (·.request) generalizing state with
  | nil => rfl
  | cons request rest ih =>
      rw [List.filter_cons, List.foldl_cons, ih]
      cases hmark : request.mark? id with
      | none => rw [hother _ _ hmark]; rfl
      | some mark => rfl

theorem concerning_remote (h : ∀ entry ∈ log, entry.request.IsRemote) : concerning id log = [] := by
  rw [concerning, List.filter_eq_nil_iff]
  intro request hrequest
  obtain ⟨entry, hentry, rfl⟩ := List.mem_map.1 hrequest
  have hremote := h entry hentry
  revert hremote
  rcases entry with ⟨request, answer⟩
  rintro (_ | _ | _) <;> exact Bool.false_ne_true

/-- A request that changes nothing but the events that are listed, of a state that comes
back from its text as it was. -/
def Request.Lists (request : Request) : Prop :=
  ∀ id state, state.transcribed = state →
    (stateAfter id state request).listing [] = state.listing []

/-- A request that changes no state by what is stored of it, and stores only states that
come back from their texts as they were. -/
def Request.Overwrites (request : Request) : Prop :=
  (∀ key change, request ≠ .store (.update key change)) ∧
    ∀ state, request = .store (.save state) → state.transcribed = state

/-- Requests of one operation that change only what is listed make no other difference to
what another operation leaves, wherever they fall. -/
theorem stateThrough_interleaved {first second merged : List Request}
    (h : Interleaved first second merged) (hfirst : ∀ request ∈ first, request.Lists)
    (hsecond : ∀ request ∈ second, request.Overwrites) (id : String) {state other : State}
    (hother : other.transcribed = other) (hstate : state.listing [] = other.listing []) :
    (stateThrough id merged state).listing [] = (stateThrough id second other).listing [] := by
  induction h generalizing state other with
  | nil => exact hstate
  | left _ ih =>
      obtain ⟨hlists, hrest⟩ := List.forall_mem_cons.1 hfirst
      have hlasts := (State.transcribed_congr hstate).2 hother
      exact ih hrest hsecond hother ((hlists id state hlasts).trans hstate)
  | @right request _ _ _ _ ih =>
      obtain ⟨⟨hnone, hsaved⟩, hrest⟩ := List.forall_mem_cons.1 hsecond
      cases request with
      | store own =>
          cases own with
          | update key change => exact absurd rfl (hnone key change)
          | save new =>
              simp only [stateThrough, List.foldl_cons, stateAfter]
              split
              · exact ih hfirst hrest (hsaved new rfl) rfl
              · exact ih hfirst hrest hother hstate
          | _ => exact ih hfirst hrest hother hstate
      | _ => exact ih hfirst hrest hother hstate

/-! ## Answers of the store -/

theorem serves_store {request : Store.Request} {answer : request.Answer} :
    Serves before (⟨.store request, answer⟩ :: log) after ↔
      (Store.respond request before).1 = answer ∧
        Serves (Store.respond request before).2 log after := by
  constructor
  · intro h
    cases h with
    | store rest => exact ⟨rfl, rest⟩
    | other hother => exact absurd rfl (hother _)
  · rintro ⟨rfl, rest⟩
    exact .store rest

/-- What is asked of others than the store makes no difference to it. -/
theorem serves_remote (h : ∀ entry ∈ first, entry.request.IsRemote) :
    Serves before (first ++ log) after ↔ Serves before log after := by
  rw [serves_append]
  have hsame (middle : Store) : Serves before first middle ↔ middle = before :=
    serves_others fun entry hentry own heq => by cases heq ▸ h entry hentry
  simp [hsame]

/-- The claims of a store change only by requests that have to do with them. -/
theorem Serves.claims (h : Serves before log after) (hleaves : ∀ entry ∈ log, ∀ own,
    entry.request = .store own → Request.LeavesClaims (.store own)) :
    after.claims = before.claims := by
  induction h with
  | nil => rfl
  | other _ _ ih => exact ih fun entry hentry => hleaves entry (List.mem_cons_of_mem _ hentry)
  | store _ ih =>
      rw [ih fun entry hentry => hleaves entry (List.mem_cons_of_mem _ hentry)]
      exact claims_respond (hleaves _ List.mem_cons_self _ rfl) _

/-- Whether a program can be claimed depends on the claims only. -/
theorem tryClaim_congr {other : Store} (h : other.claims = store.claims) (id owner : String)
    (now : Int) (ttl : Nat) :
    (other.tryClaim id owner now ttl).1 = (store.tryClaim id owner now ttl).1 := by
  rw [Store.tryClaim_eq, Store.tryClaim_eq, h]
  cases Store.span ttl with
  | error e => rfl
  | ok span =>
      dsimp only
      split <;> rfl

end Queue

end ProgramQueue
