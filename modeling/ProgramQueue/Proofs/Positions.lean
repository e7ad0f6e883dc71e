import Mathlib.Data.List.Nodup
import Mathlib.Data.List.Perm.Subperm
import ProgramQueue.Interpreter

/-!
# Leaf positions

The leaves of an action tree are named by their places.  An effect divides them:
some have not been started, some are known to have completed, and the rest are
waited for.  One place comes before another if a sequence runs the child above the
first one earlier.
-/

namespace ProgramQueue

/-- A sequence above both places runs the child above the first one earlier. -/
def Path.Before (earlier later : Path) : Prop :=
  ∃ (place : Path) (i j : Nat) (first second : Path), i < j ∧
    earlier = place ++ .seq i :: first ∧ later = place ++ .seq j :: second

namespace Action

mutual

/-- The places of all leaves. -/
def leaves : Action → List Path
  | seq children _ => leavesFrom .seq 0 children
  | par children _ => leavesFrom .par 0 children
  | step _ _ => [[]]

/-- The places of the leaves below children that are numbered from an index. -/
def leavesFrom (turn : Nat → Branch) (index : Nat) : List Action → List Path
  | [] => []
  | child :: rest =>
      (leaves child).map (turn index :: ·) ++ leavesFrom turn (index + 1) rest

end

mutual

/-- The places of the leaves that an effect leaves to be started. -/
def unstarted : Action → Effect → List Path
  | action, .init => action.leaves
  | seq children _, .seq index child => unstartedSeq index children index child
  | par children _, .par effects => unstartedAll 0 children effects
  | _, _ => []

/-- The same below the children of a sequence, of which so many are over. -/
def unstartedSeq (index : Nat) : List Action → Nat → Effect → List Path
  | [], _, _ => []
  | running :: rest, 0, child =>
      (unstarted running child).map (.seq index :: ·) ++
        leavesFrom .seq (index + 1) rest
  | _ :: rest, skip + 1, child => unstartedSeq index rest skip child

def unstartedAll (index : Nat) : List Action → List Effect → List Path
  | child :: children, effect :: effects =>
      (unstarted child effect).map (.par index :: ·) ++
        unstartedAll (index + 1) children effects
  | _, _ => []

end

mutual

/-- The places of the leaves that have completed, as far as an effect shows it. -/
def finished : Action → Effect → List Path
  | action, .done none _ => action.leaves
  | seq children _, .seq index child => finishedSeq 0 children index child
  | par children _, .par effects => finishedAll 0 children effects
  | _, _ => []

/-- The same below the children of a sequence that are numbered from an index, of
which so many are over. -/
def finishedSeq (index : Nat) : List Action → Nat → Effect → List Path
  | [], _, _ => []
  | running :: _, 0, child => (finished running child).map (.seq index :: ·)
  | ended :: rest, skip + 1, child =>
      (leaves ended).map (.seq index :: ·) ++ finishedSeq (index + 1) rest skip child

def finishedAll (index : Nat) : List Action → List Effect → List Path
  | child :: children, effect :: effects =>
      (finished child effect).map (.par index :: ·) ++
        finishedAll (index + 1) children effects
  | _, _ => []

end

/-! ## What the effects of each shape leave and show -/

@[simp]
theorem unstarted_init (action : Action) : action.unstarted .init = action.leaves := by
  cases action <;> simp [unstarted]

@[simp]
theorem unstarted_done (action : Action) (failure : Option Failure)
    (snapshot : Option (List Effect)) : action.unstarted (.done failure snapshot) = [] := by
  cases action <;> simp [unstarted]

@[simp]
theorem unstarted_await (action : Action) (condition : Condition) :
    action.unstarted (.await condition) = [] := by
  cases action <;> simp [unstarted]

@[simp]
theorem unstarted_misfit (action : Action) (misfit : Misfit) :
    action.unstarted misfit.effect = [] :=
  unstarted_done _ _ _

@[simp]
theorem finished_completed (action : Action) (snapshot : Option (List Effect)) :
    action.finished (.done none snapshot) = action.leaves := by
  cases action <;> simp [finished]

@[simp]
theorem finished_failed (action : Action) (failure : Failure)
    (snapshot : Option (List Effect)) :
    action.finished (.done (some failure) snapshot) = [] := by
  cases action <;> simp [finished]

@[simp]
theorem finished_await (action : Action) (condition : Condition) :
    action.finished (.await condition) = [] := by
  cases action <;> simp [finished]

@[simp]
theorem finished_init (action : Action) : action.finished .init = [] := by
  cases action <;> simp [finished]

@[simp]
theorem finished_misfit (action : Action) (misfit : Misfit) :
    action.finished misfit.effect = [] :=
  finished_failed _ _ _

/-! ## Children -/

theorem leavesFrom_append (turn : Nat → Branch) (index : Nat)
    (front back : List Action) :
    leavesFrom turn index (front ++ back) =
      leavesFrom turn index front ++ leavesFrom turn (index + front.length) back := by
  induction front generalizing index with
  | nil => simp [leavesFrom]
  | cons child rest ih =>
      simp only [List.cons_append, leavesFrom, ih, List.append_assoc, List.length_cons]
      congr 3
      omega

theorem mem_leavesFrom {turn : Nat → Branch} {index : Nat} {children : List Action}
    {place : Path} :
    place ∈ leavesFrom turn index children ↔
      ∃ offset child below, children[offset]? = some child ∧
        place = turn (index + offset) :: below ∧ below ∈ child.leaves := by
  induction children generalizing index with
  | nil => simp [leavesFrom]
  | cons child rest ih =>
      simp only [leavesFrom, List.mem_append, List.mem_map, ih]
      constructor
      · rintro (⟨below, hbelow, rfl⟩ | ⟨offset, other, below, hother, rfl, hbelow⟩)
        · exact ⟨0, child, below, rfl, rfl, hbelow⟩
        · refine ⟨offset + 1, other, below, by simpa using hother, ?_, hbelow⟩
          rw [Nat.add_assoc, Nat.add_comm 1]
      · rintro ⟨offset, other, below, hother, rfl, hbelow⟩
        cases offset with
        | zero =>
            obtain rfl : child = other := by simpa using hother
            exact Or.inl ⟨below, hbelow, rfl⟩
        | succ offset =>
            refine Or.inr ⟨offset, other, below, by simpa using hother, ?_, hbelow⟩
            rw [Nat.add_assoc, Nat.add_comm 1]

/-- A sequence leaves to be started what its running child leaves, and all below
later children. -/
theorem unstarted_seq {children : List Action} {index : Nat} {running : Action}
    (hrunning : children[index]? = some running) (status : Option Status)
    (child : Effect) :
    (seq children status).unstarted (.seq index child) =
      (running.unstarted child).map (.seq index :: ·) ++
        leavesFrom .seq (index + 1) (children.drop (index + 1)) := by
  suffices h : ∀ (rest : List Action) (skip : Nat), rest[skip]? = some running →
      unstartedSeq index rest skip child =
        (running.unstarted child).map (.seq index :: ·) ++
          leavesFrom .seq (index + 1) (rest.drop (skip + 1)) by
    simpa only [unstarted] using h children index hrunning
  intro rest
  induction rest with
  | nil => intro skip h; simp at h
  | cons first rest ih =>
      intro skip h
      cases skip with
      | zero =>
          obtain rfl : first = running := by simpa using h
          simp [unstartedSeq]
      | succ skip =>
          rw [unstartedSeq, ih skip (by simpa using h)]
          simp

/-- A sequence shows that all below earlier children has completed, and what its
running child shows. -/
theorem finished_seq {children : List Action} {index : Nat} {running : Action}
    (hrunning : children[index]? = some running) (status : Option Status)
    (child : Effect) :
    (seq children status).finished (.seq index child) =
      leavesFrom .seq 0 (children.take index) ++
        (running.finished child).map (.seq index :: ·) := by
  suffices h : ∀ (rest : List Action) (skip position : Nat), rest[skip]? = some running →
      finishedSeq position rest skip child =
        leavesFrom .seq position (rest.take skip) ++
          (running.finished child).map (.seq (position + skip) :: ·) by
    simpa only [finished, Nat.zero_add] using h children index 0 hrunning
  intro rest
  induction rest with
  | nil => intro skip position h; simp at h
  | cons first rest ih =>
      intro skip position h
      cases skip with
      | zero =>
          obtain rfl : first = running := by simpa using h
          simp [finishedSeq, leavesFrom]
      | succ skip =>
          rw [finishedSeq, ih skip (position + 1) (by simpa using h)]
          simp only [List.take_succ_cons, leavesFrom, List.append_assoc]
          rw [Nat.add_assoc position, Nat.add_comm 1]

/-- What parallel children leave to be started is below one of them. -/
theorem mem_unstartedAll {index : Nat} {children : List Action} {effects : List Effect}
    {place : Path} (h : place ∈ unstartedAll index children effects) :
    ∃ offset below, place = .par (index + offset) :: below := by
  induction children generalizing index effects with
  | nil => simp [unstartedAll] at h
  | cons child rest ih =>
      cases effects with
      | nil => simp [unstartedAll] at h
      | cons effect effects =>
          rw [unstartedAll, List.mem_append, List.mem_map] at h
          obtain ⟨below, -, rfl⟩ | hrest := h
          · exact ⟨0, below, rfl⟩
          · obtain ⟨offset, below, rfl⟩ := ih hrest
            exact ⟨offset + 1, below, by rw [Nat.add_assoc, Nat.add_comm 1]⟩

theorem unstartedAll_init (index : Nat) (children : List Action) :
    unstartedAll index children (children.map fun _ => .init) =
      leavesFrom .par index children := by
  induction children generalizing index with
  | nil => simp [unstartedAll, leavesFrom]
  | cons child rest ih =>
      simp only [List.map_cons, unstartedAll, leavesFrom, unstarted_init, ih]

theorem finishedAll_init (index : Nat) (children : List Action) :
    finishedAll index children (children.map fun _ => .init) = [] := by
  induction children generalizing index with
  | nil => simp [finishedAll]
  | cons child rest ih =>
      simp only [List.map_cons, finishedAll, finished_init, ih, List.map_nil,
        List.append_nil]

/-- A step shows itself as completed, if anything. -/
theorem mem_finished_step {s : Step} {status : Option Status} {effect : Effect}
    {place : Path} (h : place ∈ (step s status).finished effect) :
    place = [] ∧ ∃ snapshot, effect = .done none snapshot := by
  cases effect with
  | done failure snapshot =>
      cases failure with
      | none =>
          rw [finished_completed, leaves, List.mem_singleton] at h
          exact ⟨h, snapshot, rfl⟩
      | some failure => simp at h
  | init => simp at h
  | await condition => simp at h
  | seq index child => simp [finished] at h
  | par effects => simp [finished] at h

/-- Children that have all completed show all their leaves. -/
theorem finishedAll_completed {index : Nat} {children : List Action}
    {effects : List Effect} (hlength : effects.length = children.length)
    (hcompleted : ∀ effect ∈ effects, ∃ snapshot, effect = .done none snapshot) :
    finishedAll index children effects = leavesFrom .par index children := by
  induction children generalizing index effects with
  | nil => cases effects <;> simp [finishedAll, leavesFrom]
  | cons child rest ih =>
      cases effects with
      | nil => simp at hlength
      | cons effect effects =>
          obtain ⟨snapshot, rfl⟩ := hcompleted effect List.mem_cons_self
          simp only [finishedAll, leavesFrom, finished_completed]
          rw [ih (by simpa using hlength)
            fun other hother => hcompleted other (List.mem_cons_of_mem _ hother)]

mutual

/-- No place is listed twice. -/
theorem leaves_nodup : (action : Action) → action.leaves.Nodup
  | seq children _ => by
      rw [leaves]
      exact leavesFrom_nodup .seq (fun _ _ h => Branch.seq.inj h) 0 children
  | par children _ => by
      rw [leaves]
      exact leavesFrom_nodup .par (fun _ _ h => Branch.par.inj h) 0 children
  | step _ _ => by simp [leaves]

theorem leavesFrom_nodup (turn : Nat → Branch) (hturn : ∀ i j, turn i = turn j → i = j)
    (index : Nat) : (children : List Action) → (leavesFrom turn index children).Nodup
  | [] => by simp [leavesFrom]
  | child :: rest => by
      rw [leavesFrom]
      refine List.Nodup.append ?_ (leavesFrom_nodup turn hturn (index + 1) rest) ?_
      · exact (leaves_nodup child).map fun _ _ h => List.tail_eq_of_cons_eq h
      · intro place hfirst hrest
        obtain ⟨below, -, rfl⟩ := List.mem_map.1 hfirst
        obtain ⟨offset, other, rest', -, heq, -⟩ := mem_leavesFrom.1 hrest
        have := hturn _ _ (List.head_eq_of_cons_eq heq)
        omega

end

end Action

namespace Path

theorem not_before_nil (earlier : Path) : ¬earlier.Before [] := by
  rintro ⟨place, i, j, first, second, -, -, heq⟩
  simp at heq

/-- Places in the order of a sequence that have a turn to a parallel child have
the same one. -/
theorem before_par {earlier later : Path} {index : Nat}
    (h : earlier.Before (.par index :: later)) :
    ∃ below, earlier = .par index :: below ∧ Before below later := by
  obtain ⟨place, i, j, first, second, hlt, rfl, hlater⟩ := h
  cases place with
  | nil => cases (List.cons.inj hlater).1
  | cons turn place =>
      obtain ⟨rfl, rfl⟩ := List.cons.inj hlater
      exact ⟨place ++ .seq i :: first, rfl, place, i, j, first, second, hlt, rfl, rfl⟩

/-- Places in the order of a sequence that have a turn to the child of a sequence
are below an earlier child and that child, or in that order below that child. -/
theorem before_seq {earlier later : Path} {index : Nat}
    (h : earlier.Before (.seq index :: later)) :
    (∃ i below, i < index ∧ earlier = .seq i :: below) ∨
      ∃ below, earlier = .seq index :: below ∧ Before below later := by
  obtain ⟨place, i, j, first, second, hlt, rfl, hlater⟩ := h
  cases place with
  | nil =>
      obtain ⟨hbranch, rfl⟩ := List.cons.inj hlater
      cases hbranch
      exact Or.inl ⟨i, first, hlt, rfl⟩
  | cons turn place =>
      obtain ⟨rfl, rfl⟩ := List.cons.inj hlater
      exact Or.inr ⟨place ++ .seq i :: first, rfl, place, i, j, first, second, hlt, rfl, rfl⟩

end Path

end ProgramQueue
