import ProgramQueue.Proofs.Shapes

/-!
# What an advance starts

Which leaves an advance starts can be read off the effect that it goes on from: it
starts what it meets that has not been started, and of a sequence only the first child.
No answer that the advance is given makes a difference to it.
-/

namespace ProgramQueue

namespace Action

/-- The node at a place. -/
def node? : Action → Path → Option Action
  | action, [] => some action
  | seq children _, .seq index :: below => children[index]?.bind fun child => child.node? below
  | par children _, .par index :: below => children[index]?.bind fun child => child.node? below
  | _, _ => none

mutual

/-- The places of the leaves that start at once when an action starts. -/
def firsts : Action → List Path
  | seq [] _ => []
  | seq (first :: _) _ => (firsts first).map (.seq 0 :: ·)
  | par children _ => firstsFrom 0 children
  | step _ _ => [[]]

def firstsFrom (index : Nat) : List Action → List Path
  | [] => []
  | child :: rest => (firsts child).map (.par index :: ·) ++ firstsFrom (index + 1) rest

end

mutual

/-- The places of the leaves that an advance starts. -/
def starting : Action → Effect → List Path
  | action, .init => action.firsts
  | seq children _, .seq index child => startingSeq index children index child
  | par children _, .par effects => startingAll 0 children effects
  | _, _ => []

/-- The same below the children of a sequence, of which so many are over. -/
def startingSeq (index : Nat) : List Action → Nat → Effect → List Path
  | [], _, _ => []
  | running :: _, 0, child => (starting running child).map (.seq index :: ·)
  | _ :: rest, skip + 1, child => startingSeq index rest skip child

def startingAll (index : Nat) : List Action → List Effect → List Path
  | child :: children, effect :: effects =>
      (starting child effect).map (.par index :: ·) ++ startingAll (index + 1) children effects
  | _, _ => []

end

@[simp]
theorem starting_init (action : Action) : action.starting .init = action.firsts := by
  cases action <;> simp [starting]

@[simp]
theorem starting_done (action : Action) (failure : Option Failure)
    (snapshot : Option (List Effect)) : action.starting (.done failure snapshot) = [] := by
  cases action <;> simp [starting]

@[simp]
theorem starting_await (action : Action) (condition : Condition) :
    action.starting (.await condition) = [] := by
  cases action <;> simp [starting]

/-- A sequence starts what its running child starts. -/
theorem starting_seq {children : List Action} {index : Nat} {running : Action}
    (hrunning : children[index]? = some running) (status : Option Status) (child : Effect) :
    (seq children status).starting (.seq index child) =
      (running.starting child).map (.seq index :: ·) := by
  suffices h : ∀ (rest : List Action) (skip : Nat), rest[skip]? = some running →
      startingSeq index rest skip child = (running.starting child).map (.seq index :: ·) by
    rw [starting, h children index hrunning]
  intro rest
  induction rest with
  | nil => intro skip h; simp at h
  | cons first rest ih =>
      intro skip h
      cases skip with
      | zero =>
          obtain rfl : first = running := by simpa using h
          rw [startingSeq]
      | succ skip => rw [startingSeq, ih skip (by simpa using h)]

theorem startingAll_init (index : Nat) (children : List Action) :
    startingAll index children (children.map fun _ => .init) = firstsFrom index children := by
  induction children generalizing index with
  | nil => simp [startingAll, firstsFrom]
  | cons child rest ih =>
      rw [List.map_cons, startingAll, firstsFrom, starting_init, ih]

@[simp]
theorem starting_opened (action : Action) : action.starting action.opened = action.firsts := by
  cases action with
  | seq children status =>
      cases children with
      | nil => simp [opened, starting, startingSeq, firsts]
      | cons first rest => rw [opened, starting_seq rfl, starting_init, firsts]
  | par children status => rw [opened, starting, startingAll_init, firsts]
  | step step status => exact starting_init _

/-- Parallel children start nothing if none of them does. -/
theorem startingAll_eq_nil {index : Nat} {children : List Action} {effects : List Effect}
    (h : ∀ pair ∈ children.zip effects, pair.1.starting pair.2 = []) :
    startingAll index children effects = [] := by
  induction children generalizing index effects with
  | nil => cases effects <;> simp [startingAll]
  | cons child rest ih =>
      cases effects with
      | nil => simp [startingAll]
      | cons effect effects =>
          rw [List.zip_cons_cons, List.forall_mem_cons] at h
          rw [startingAll, h.1, ih h.2, List.map_nil, List.nil_append]

theorem firsts_empty {action : Action} (hempty : action.children? = some []) :
    action.firsts = [] := by
  cases action with
  | seq children status =>
      cases hempty
      rw [firsts]
  | par children status =>
      cases hempty
      rw [firsts, firstsFrom]
  | step step status => cases hempty

/-! ## The journal tells what was to be started -/

/-- The leaves that are started are the ones that the effect names. -/
def Launches (site : Site) (action : Action) (effect : Effect) (log : Log Journaled)
    (_next : Effect) : Prop :=
  action.Sound effect →
    (Journaled.journal log).executed = (action.starting effect).map site.reach

theorem Alongside.launches {site : Site} {index : Nat} {children : List Action}
    {effects nexts : List Effect} {log : Log Journaled}
    (h : Alongside Launches site index children effects log nexts)
    (hsound : ∀ pair ∈ children.zip effects, pair.1.Sound pair.2) :
    (Journaled.journal log).executed =
      (startingAll index children effects).map site.reach := by
  induction h with
  | nil => simp [startingAll, Journal.executed]
  | cons first rest ih =>
      rw [List.zip_cons_cons, List.forall_mem_cons] at hsound
      rw [Journaled.journal_append, Journal.executed_append, first hsound.1, ih hsound.2,
        startingAll, List.map_append, List.map_map, Site.below_reach]
      rfl

/-- Every advance starts what the effect names, in the order of the tree. -/
theorem launches (inlineCap : Nat) : NodeCases inlineCap Launches where
  ended site action failure snapshot _ := by
    rw [starting_done]
    rfl
  misfit site action effect misfit hmisfit h := absurd h.admits hmisfit
  empty site action effect hempty hopen _ h := by
    rw [(h.fits_of_isOpen hopen).eq_init hempty, starting_init, firsts_empty hempty]
    rfl
  opens site action log next hsome h _ := by
    rw [h (.fits (fits_opened hsome)), starting_opened, starting_init]
  execute site step status log next h _ := by
    rw [Step.journal_execute h, starting_init, firsts, List.map_singleton, Site.reach_nil]
    rfl
  recheck site step status condition log next h _ := by
    rw [Condition.journal_recheck h, starting_await]
    rfl
  seq site children status index running child log next hrunning h hsound := by
    rw [h (hsound.below_seq hrunning), starting_seq hrunning, List.map_map, Site.below_reach]
    rfl
  par site children status effects log nexts h hsound := by
    rw [starting]
    exact h.launches hsound.below_par

end Action

end ProgramQueue
