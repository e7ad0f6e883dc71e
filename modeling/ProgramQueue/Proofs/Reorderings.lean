import Mathlib.Data.List.OfFn
import Mathlib.Data.Fin.Rev
import Mathlib.Data.Fintype.Perm
import ProgramQueue.Proofs.Failures

/-!
# The order of parallel children

An advance does the same whichever order parallel children stand in, as far as answers depend
on nothing but the request: it asks the same, in another order, and comes to the same, in that
order.  Only of several failures it may be another one that counts.
-/

namespace ProgramQueue

open ProgramQueue.Task (follows_bind follows_pure follows_request answer_of_mem_log log_requests)

/-- For the parallel children at each place, of which there are so many, which of them comes to
stand at each position. -/
abbrev Arrangement := Path → (count : Nat) → Equiv.Perm (Fin count)

namespace Arrangement

variable {α β : Type} (order : Arrangement)

/-- The arrangement seen from a child. -/
def below (branch : Branch) : Arrangement := fun place => order (branch :: place)

/-- What belongs to the parallel children at the root, in their new order. -/
def arrange (list : List α) : List α :=
  List.ofFn fun position => list.get (order [] list.length position)

theorem arrange_eq {count : Nat} {list : List α} (h : list.length = count) :
    order.arrange list =
      List.ofFn fun position : Fin count => list.get ((order [] count position).cast h.symm) := by
  subst h
  rfl

@[simp]
theorem length_arrange (list : List α) : (order.arrange list).length = list.length :=
  List.length_ofFn

theorem arrange_map (f : α → β) (list : List α) :
    order.arrange (list.map f) = (order.arrange list).map f := by
  rw [order.arrange_eq (List.length_map f), arrange, List.map_ofFn]
  congr 1
  funext position
  simp

theorem arrange_perm (list : List α) : (order.arrange list).Perm list := by
  have hperm := Equiv.Perm.ofFn_comp_perm (order [] list.length) list.get
  rwa [List.ofFn_get] at hperm

end Arrangement

/-! ## Actions and effects in another order -/

namespace Action

mutual

/-- The same action with its parallel children in another order. -/
def reorder (order : Arrangement) : Action → Action
  | seq children status => seq (reorderFrom order .seq 0 children) status
  | par children status => par (order.arrange (reorderFrom order .par 0 children)) status
  | step s status => step s status

/-- Children that are numbered from an index and keep their places, reordered each. -/
def reorderFrom (order : Arrangement) (turn : Nat → Branch) (index : Nat) :
    List Action → List Action
  | [] => []
  | child :: rest =>
      reorder (order.below (turn index)) child :: reorderFrom order turn (index + 1) rest

end

end Action

namespace Effect

mutual

/-- The effect of an action whose parallel children stand in another order.  What is over stays
as it is. -/
def reorder (order : Arrangement) : Effect → Effect
  | seq index child => seq index (reorder (order.below (.seq index)) child)
  | par effects => par (order.arrange (reorderFrom order 0 effects))
  | await condition => await condition
  | init => init
  | done failure snapshot => done failure snapshot

def reorderFrom (order : Arrangement) (index : Nat) : List Effect → List Effect
  | [] => []
  | effect :: rest =>
      reorder (order.below (.par index)) effect :: reorderFrom order (index + 1) rest

end

end Effect

/-- The same program with its parallel children in another order. -/
def Program.reorder (order : Arrangement) (program : Program) : Program :=
  { program with action := program.action.reorder order }

/-- A node is unfinished, or it has succeeded, or it has failed. -/
inductive Outcome where
  | pending
  | succeeded
  | failed
deriving DecidableEq, Repr

def Effect.outcome : Effect → Outcome
  | done none _ => .succeeded
  | done (some _) _ => .failed
  | _ => .pending

variable {order : Arrangement}

namespace Effect

@[simp]
theorem isDone_reorder (effect : Effect) : (effect.reorder order).isDone = effect.isDone := by
  cases effect <;> rfl

@[simp]
theorem failure?_reorder (effect : Effect) :
    (effect.reorder order).failure? = effect.failure? := by
  cases effect <;> rfl

@[simp]
theorem outcome_reorder (effect : Effect) : (effect.reorder order).outcome = effect.outcome := by
  cases effect <;> rfl

theorem outcome_failed {effect : Effect} : effect.outcome = .failed ↔ effect.failure? ≠ none := by
  cases effect with
  | done failure snapshot => cases failure <;> simp [outcome, failure?]
  | seq | par | await | init => simp [outcome, failure?]

theorem isDone_of_outcome {effect : Effect} (h : effect.outcome ≠ .pending) :
    effect.isDone = true := by
  cases effect with
  | done failure snapshot => rfl
  | seq | par | await | init => exact absurd rfl h

theorem length_reorderFrom (order : Arrangement) (index : Nat) (effects : List Effect) :
    (reorderFrom order index effects).length = effects.length := by
  induction effects generalizing index with
  | nil => rfl
  | cons effect rest ih => rw [reorderFrom, List.length_cons, List.length_cons, ih]

/-- Whether effects are over, and how they have failed, does not depend on their order. -/
theorem reorderFrom_unfailed {index : Nat} {effects : List Effect}
    (h : ∀ effect ∈ effects, effect.failure? = none) :
    ∀ effect ∈ reorderFrom order index effects, effect.failure? = none := by
  induction effects generalizing index with
  | nil => exact List.forall_mem_nil _
  | cons effect rest ih =>
      rw [List.forall_mem_cons] at h
      rw [reorderFrom, List.forall_mem_cons, failure?_reorder]
      exact ⟨h.1, ih h.2⟩

theorem all_isDone_reorderFrom (index : Nat) (effects : List Effect) :
    (reorderFrom order index effects).all isDone = effects.all isDone := by
  induction effects generalizing index with
  | nil => rfl
  | cons effect rest ih =>
      rw [reorderFrom, List.all_cons, List.all_cons, isDone_reorder, ih]

theorem reorderFrom_init {α : Type} (index : Nat) (list : List α) :
    reorderFrom order index (list.map fun _ => .init) = list.map fun _ => .init := by
  induction list generalizing index with
  | nil => rfl
  | cons item rest ih => rw [List.map_cons, reorderFrom, ih, reorder]

end Effect

namespace Action

variable {children : List Action} {status : Option Status}

theorem length_reorderFrom (order : Arrangement) (turn : Nat → Branch) (index : Nat)
    (children : List Action) :
    (reorderFrom order turn index children).length = children.length := by
  induction children generalizing index with
  | nil => rfl
  | cons child rest ih => rw [reorderFrom, List.length_cons, List.length_cons, ih]

theorem getElem?_reorderFrom (order : Arrangement) (turn : Nat → Branch) (start : Nat)
    {index : Nat} {child : Action} (h : children[index]? = some child) :
    (reorderFrom order turn start children)[index]? =
      some (child.reorder (order.below (turn (start + index)))) := by
  induction children generalizing start index with
  | nil => cases h
  | cons first rest ih =>
      cases index with
      | zero =>
          obtain rfl := Option.some.inj h
          rfl
      | succ index =>
          have hrest := ih (start + 1) h
          rw [Nat.add_assoc, Nat.add_comm 1] at hrest
          exact hrest

theorem children?_reorder {action : Action} (hempty : action.children? = some []) :
    (action.reorder order).children? = some [] := by
  cases action with
  | seq children status =>
      cases hempty
      rfl
  | par children status =>
      cases hempty
      exact congrArg some (List.length_eq_zero_iff.1 (order.length_arrange _))
  | step step status => cases hempty

/-- Whatever has begun in one order has begun in the other. -/
theorem opened_reorder (action : Action) :
    action.opened.reorder order = (action.reorder order).opened := by
  cases action with
  | seq children status => rfl
  | par children status =>
      have hinit {α : Type} (list : List α) :
          (list.map fun _ => Effect.init) = List.replicate list.length .init :=
        List.map_const' ..
      rw [opened, Effect.reorder, Effect.reorderFrom_init, order.arrange_map, reorder, opened,
        hinit, hinit, order.length_arrange, order.length_arrange, length_reorderFrom]
  | step step status => rfl

end Action

/-! ## One advance in both orders -/

/-- A step that is started does the same wherever it stands. -/
theorem Step.execute_elsewhere {inlineCap : Nat} {site : Site} {step : Step}
    {log : Log Journaled} {next : Effect} (h : (step.execute inlineCap site).Follows log next)
    (other : Site) : ∃ moved, (step.execute inlineCap other).Follows moved next ∧
      Journaled.asked moved = Journaled.asked log := by
  unfold execute at h ⊢
  obtain ⟨first, _, later, rfl, hfirst, hlater⟩ := follows_bind.1 h
  obtain ⟨outer, result, last, rfl, hasked, hlast⟩ := follows_bind.1 hlater
  obtain ⟨written, _, ended, rfl, hwritten, hended⟩ := follows_bind.1 hlast
  obtain ⟨rfl, rfl⟩ := follows_pure.1 hended
  refine ⟨[⟨.note (.execute other), ()⟩] ++
    (outer ++ [⟨.note (.leaf other (.ofStart result)), ()⟩]), ?_, ?_⟩
  · refine follows_bind.2 ⟨_, (), _, rfl, follows_request.2 rfl, ?_⟩
    exact follows_bind.2 ⟨outer, result, _, rfl, hasked, .ask (.done _)⟩
  · rw [follows_request.1 hfirst, follows_request.1 hwritten]
    simp [Journaled.asked, Journaled.asked_append]

theorem Condition.recheck_elsewhere {site : Site} {condition : Condition} {log : Log Journaled}
    {next : Effect} (h : (condition.recheck site).Follows log next) (other : Site) :
    ∃ moved, (condition.recheck other).Follows moved next ∧
      Journaled.asked moved = Journaled.asked log := by
  unfold recheck at h ⊢
  obtain ⟨outer, result, last, rfl, hasked, hlast⟩ := follows_bind.1 h
  obtain ⟨written, _, ended, rfl, hwritten, hended⟩ := follows_bind.1 hlast
  obtain ⟨rfl, rfl⟩ := follows_pure.1 hended
  refine ⟨outer ++ [⟨.note (.leaf other (.ofCheck (.await condition) result)), ()⟩], ?_, ?_⟩
  · exact follows_bind.2 ⟨outer, result, _, rfl, hasked, .ask (.done _)⟩
  · rw [follows_request.1 hwritten]
    simp [Journaled.asked, Journaled.asked_append]

/-- As long as an effect has not failed, the other one is its image; and they fail together. -/
def Effect.Mirrors (next image other : Effect) : Prop :=
  next.failure? = none ∧ other = image ∨ next.failure? ≠ none ∧ other.failure? ≠ none

/-- What an action in another order goes on from, what is asked in the first order, what the
action comes to there, and the image of that in the other order. -/
structure Story where
  action : Action
  effect : Effect
  asked : Log Outside
  next : Effect
  image : Effect

/-- In the other order the same is asked, and the image is what comes out. -/
def Story.Holds (inlineCap : Nat) (story : Story) : Prop :=
  ∀ site, ∃ log next, Action.Advances inlineCap site story.action story.effect log next ∧
    (Journaled.asked log).Perm story.asked ∧ Effect.Mirrors story.next story.image next

namespace Effect

/-- What is its own image comes out as it. -/
theorem mirrors_self {next image : Effect} (h : image = next) : Mirrors next image next := by
  by_cases hunfailed : next.failure? = none
  · exact Or.inl ⟨hunfailed, h.symm⟩
  · exact Or.inr ⟨hunfailed, hunfailed⟩

/-- Together all children come out as they would each by itself. -/
abbrev MirrorEach (stories : List Story) (others : List Effect) : Prop :=
  List.Forall₂ (fun story other => Mirrors story.next story.image other) stories others

theorem MirrorEach.eq_images {stories : List Story} {others : List Effect}
    (h : MirrorEach stories others) (hunfailed : ∀ story ∈ stories, story.next.failure? = none) :
    others = stories.map Story.image := by
  induction h with
  | nil => rfl
  | cons first _ ih =>
      rw [List.forall_mem_cons] at hunfailed
      obtain ⟨-, rfl⟩ := first.resolve_right fun hfailed => hfailed.1 hunfailed.1
      rw [List.map_cons, ih hunfailed.2]

theorem MirrorEach.exists_failed {stories : List Story} {others : List Effect}
    (h : MirrorEach stories others) {story : Story} (hstory : story ∈ stories)
    (hfailed : story.next.failure? ≠ none) : ∃ other ∈ others, other.failure? ≠ none := by
  induction h with
  | nil => cases hstory
  | cons first _ ih =>
      obtain rfl | hrest := List.mem_cons.1 hstory
      · obtain ⟨-, hother⟩ := first.resolve_left fun hunfailed => hfailed hunfailed.1
        exact ⟨_, List.mem_cons_self, hother⟩
      · obtain ⟨other, hother, hfailing⟩ := ih hrest
        exact ⟨other, List.mem_cons_of_mem _ hother, hfailing⟩

end Effect

namespace Action

variable {inlineCap : Nat} {site : Site} {children : List Action} {status : Option Status}
  {effects nexts : List Effect} {log : Log Journaled}

/-- From what it can come to, an action advances in any order as it does in its own. -/
def Mirrored (inlineCap : Nat) (_site : Site) (action : Action) (effect : Effect)
    (log : Log Journaled) (next : Effect) : Prop :=
  action.Sound effect → ∀ order : Arrangement, Story.Holds inlineCap
    ⟨action.reorder order, effect.reorder order, Journaled.asked log, next, next.reorder order⟩

/-- The stories of parallel children. -/
structure Stories (inlineCap : Nat) (order : Arrangement) (index : Nat) (children : List Action)
    (effects : List Effect) (log : Log Journaled) (nexts : List Effect) (stories : List Story) :
    Prop where
  acting : stories.map Story.action = reorderFrom order .par index children
  starting : stories.map Story.effect = Effect.reorderFrom order index effects
  asking : stories.flatMap Story.asked = Journaled.asked log
  ending : stories.map Story.next = nexts
  mirroring : stories.map Story.image = Effect.reorderFrom order index nexts
  holds : ∀ story ∈ stories, story.Holds inlineCap

theorem Alongside.stories {index : Nat}
    (h : Alongside (Mirrored inlineCap) site index children effects log nexts)
    (hsound : ∀ pair ∈ children.zip effects, pair.1.Sound pair.2) (order : Arrangement) :
    ∃ stories, Stories inlineCap order index children effects log nexts stories := by
  induction h with
  | nil => exact ⟨[], rfl, rfl, rfl, rfl, rfl, List.forall_mem_nil _⟩
  | @cons index child children effect next effects nexts log later first rest ih =>
      rw [List.zip_cons_cons, List.forall_mem_cons] at hsound
      obtain ⟨stories, hstories⟩ := ih hsound.2
      refine ⟨⟨child.reorder (order.below (.par index)), effect.reorder (order.below (.par index)),
        Journaled.asked log, next, next.reorder (order.below (.par index))⟩ :: stories, ?_⟩
      constructor
      · rw [List.map_cons, hstories.acting, reorderFrom]
      · rw [List.map_cons, hstories.starting, Effect.reorderFrom]
      · rw [List.flatMap_cons, hstories.asking, Journaled.asked_append]
      · rw [List.map_cons, hstories.ending]
      · rw [List.map_cons, hstories.mirroring, Effect.reorderFrom]
      · exact List.forall_mem_cons.2 ⟨first hsound.1 _, hstories.holds⟩

/-- Children advance together as each of them does by itself. -/
theorem alongside_stories {stories : List Story}
    (h : ∀ story ∈ stories, story.Holds inlineCap) (site : Site) (index : Nat) :
    ∃ log others, Alongside (Advances inlineCap) site index (stories.map Story.action)
        (stories.map Story.effect) log others ∧
      (Journaled.asked log).Perm (stories.flatMap Story.asked) ∧
      Effect.MirrorEach stories others := by
  induction stories generalizing index with
  | nil => exact ⟨[], [], .nil, .nil, .nil⟩
  | cons story rest ih =>
      rw [List.forall_mem_cons] at h
      obtain ⟨log, other, hadvances, hasked, hmirrors⟩ := h.1 (site.below (.par index))
      obtain ⟨later, others, hrest, hlater, hothers⟩ := ih h.2 (index + 1)
      refine ⟨log ++ later, other :: others, .cons hadvances hrest, ?_, .cons hmirrors hothers⟩
      rw [Journaled.asked_append, List.flatMap_cons]
      exact hasked.append hlater

end Action

namespace Effect

theorem mirrors_afterChild {count index : Nat} {next other : Effect}
    (h : Mirrors next (next.reorder (order.below (.seq index))) other) :
    Mirrors (afterChild count index next) ((afterChild count index next).reorder order)
      (afterChild count index other) := by
  unfold Mirrors
  rw [failure?_afterChild, failure?_afterChild]
  refine h.imp_left ?_
  rintro ⟨hunfailed, rfl⟩
  refine ⟨hunfailed, ?_⟩
  cases hdone : next.isDone with
  | false =>
      rw [afterChild_pending hdone, afterChild_pending (by rwa [isDone_reorder]), reorder]
  | true =>
      obtain ⟨failure, snapshot, rfl⟩ := isDone_iff.1 hdone
      obtain rfl : failure = none := hunfailed
      rw [reorder, afterChild_completed]
      split <;> rfl

/-- Children that come out as their images, in any order, come to the image of what they come
to in their own. -/
theorem mirrors_afterChildren {stories : List Story} {nexts others : List Effect}
    (hnexts : stories.map Story.next = nexts)
    (himages : stories.map Story.image = reorderFrom order 0 nexts)
    (h : MirrorEach (order.arrange stories) others) :
    Mirrors (afterChildren nexts) ((afterChildren nexts).reorder order) (afterChildren others) := by
  have hperm := order.arrange_perm stories
  unfold Mirrors
  rw [failure?_afterChildren, failure?_afterChildren]
  by_cases hnone : nexts.findSome? failure? = none
  · refine Or.inl ⟨hnone, ?_⟩
    have hunfailed := List.findSome?_eq_none_iff.1 hnone
    have hothers : others = order.arrange (reorderFrom order 0 nexts) := by
      rw [← himages, order.arrange_map]
      refine h.eq_images fun story hstory => hunfailed _ ?_
      exact hnexts ▸ List.mem_map_of_mem (hperm.mem_iff.1 hstory)
    have hpermed : others.Perm (reorderFrom order 0 nexts) := hothers ▸ order.arrange_perm _
    have hothersNone : others.findSome? failure? = none := by
      rw [List.findSome?_eq_none_iff]
      exact fun other hother => reorderFrom_unfailed hunfailed other (hpermed.mem_iff.1 hother)
    rw [afterChildren, afterChildren, hnone, hothersNone, hpermed.all_eq, all_isDone_reorderFrom]
    cases nexts.all isDone with
    | true => rfl
    | false => rw [hothers]; rfl
  · -- The first failure may be another one, but a child that fails in one order fails in both.
    refine Or.inr ⟨hnone, fun hothers => hnone ?_⟩
    rw [List.findSome?_eq_none_iff] at hothers ⊢
    rw [← hnexts, List.forall_mem_map]
    intro story hstory
    by_contra hfailed
    obtain ⟨other, hother, hfailing⟩ := h.exists_failed (hperm.mem_iff.2 hstory) hfailed
    exact hfailing (hothers other hother)

end Effect

namespace Action

/-- In any order of parallel children an action advances as it does in its own. -/
theorem mirrored (inlineCap : Nat) : NodeCases inlineCap (Mirrored inlineCap) where
  ended site action failure snapshot _ order site' := by
    exact ⟨[], .done failure snapshot, advances_ended site' _ failure snapshot, .nil,
      Effect.mirrors_self rfl⟩
  misfit site action effect misfit hmisfit h := absurd h.admits hmisfit
  empty site action effect hempty hopen _ h order site' := by
    obtain rfl := (h.fits_of_isOpen hopen).eq_init hempty
    exact ⟨[], .completed, advances_empty (children?_reorder hempty), .nil,
      Effect.mirrors_self rfl⟩
  opens site action log next hsome h _ order site' := by
    obtain ⟨moved, other, hadvances, hrest⟩ := h (.fits (fits_opened hsome)) order site'
    refine ⟨moved, other, ?_, hrest⟩
    dsimp only at hadvances
    rw [opened_reorder, Advances, advance_opened] at hadvances
    exact hadvances
  execute site step status log next h _ order site' := by
    obtain ⟨moved, hmoved, hasked⟩ := Step.execute_elsewhere h site'
    obtain ⟨inner, outer, result, -, -, hstart, rfl⟩ := Step.follows_execute h
    refine ⟨moved, .ofStart result, hmoved, .of_eq hasked, Effect.mirrors_self ?_⟩
    obtain ⟨failure, heq⟩ | ⟨condition, heq, -⟩ := Effect.ofStart_cases hstart
    · rw [heq]
      rfl
    · rw [heq]
      rfl
  recheck site step status condition log next h _ order site' := by
    obtain ⟨moved, hmoved, hasked⟩ := Condition.recheck_elsewhere h site'
    obtain ⟨inner, outer, result, -, -, -, rfl⟩ := Condition.follows_recheck h
    refine ⟨moved, _, hmoved, .of_eq hasked, Effect.mirrors_self ?_⟩
    obtain ⟨failure, heq⟩ | heq := Effect.ofCheck_cases (.await condition) result
    · rw [heq]
      rfl
    · rw [heq]
      rfl
  seq site children status index running child log next hrunning h hsound order site' := by
    obtain ⟨moved, other, hadvances, hasked, hmirrors⟩ :=
      h (hsound.below_seq hrunning) (order.below (.seq index)) (site'.below (.seq index))
    have hchild := getElem?_reorderFrom order .seq 0 hrunning
    rw [Nat.zero_add] at hchild
    refine ⟨moved, _, advances_seq hchild hadvances, hasked, ?_⟩
    rw [length_reorderFrom]
    exact Effect.mirrors_afterChild hmirrors
  par site children status effects log nexts h hsound order site' := by
    -- Each child takes its story along to its new place.
    obtain ⟨stories, hstories⟩ := h.stories hsound.below_par order
    have hperm := order.arrange_perm stories
    obtain ⟨moved, others, htogether, hasked, hothers⟩ := alongside_stories
      (fun story hstory => hstories.holds story (hperm.mem_iff.1 hstory)) site' 0
    rw [← order.arrange_map, hstories.acting, ← order.arrange_map, hstories.starting] at htogether
    refine ⟨moved, _, advances_par ?_ htogether, ?_,
      Effect.mirrors_afterChildren hstories.ending hstories.mirroring hothers⟩
    · intro hnone
      obtain rfl : children = [] := by
        rw [← List.length_eq_zero_iff, ← length_reorderFrom order .par 0, ← order.length_arrange,
          hnone, List.length_nil]
      cases (hsound.fits_of_isOpen rfl).eq_init rfl
    · exact hasked.trans (hstories.asking ▸ hperm.flatMap_right _)

end Action

/-! ## Programs in both orders -/

/-- What is answered depends on nothing but the request. -/
def World.Memoryless {I : Interface} {σ : Type} (world : World I σ) : Prop :=
  ∀ request one other, (world.respond request one).1 = (world.respond request other).1

/-- Where each request is answered as in a log, a run makes the requests of the log. -/
theorem Task.Follows.run_eq {I : Interface} {α σ : Type} {world : World I σ} {task : Task I α}
    {log : Log I} {value : α} (h : task.Follows log value)
    (hanswers : ∀ entry ∈ log, ∀ state, entry.answer = (world.respond entry.request state).1)
    (state : σ) :
    (task.run world state).value = value ∧
      (task.run world state).requests = log.map Answered.request := by
  induction h generalizing state with
  | done value => exact ⟨rfl, rfl⟩
  | @ask request next answer log value _ ih =>
      rw [List.forall_mem_cons] at hanswers
      obtain ⟨hvalue, hrequests⟩ := ih hanswers.2 (world.respond request state).2
      obtain rfl : answer = (world.respond request state).1 := hanswers.1 state
      exact ⟨hvalue, congrArg (request :: ·) hrequests⟩

/-- An effect and what stands for it in the other order: both have come to the same, and while
they are unfinished they differ in the order only. -/
structure Effect.Counterparts (order : Arrangement) (one other : Effect) : Prop where
  outcome : other.outcome = one.outcome
  image : one.outcome = .pending → other = one.reorder order

theorem Effect.Mirrors.counterparts {one other : Effect}
    (h : Mirrors one (one.reorder order) other) : Counterparts order one other := by
  obtain ⟨-, rfl⟩ | ⟨hone, hother⟩ := h
  · exact ⟨outcome_reorder one, fun _ => rfl⟩
  · rw [← outcome_failed] at hone hother
    refine ⟨hother.trans hone.symm, fun hpending => ?_⟩
    cases hone.symm.trans hpending

namespace Program

variable {program : Program}

/-- Two advances come to counterparts of each other, and ask the same in another order. -/
structure SameAdvance (order : Arrangement) {σ : Type} (one other : Run Outside σ Effect) :
    Prop where
  counterparts : one.value.Counterparts order other.value
  requests : other.requests.Perm one.requests

theorem Reached.same_advance {effect : Effect} (h : program.Reached effect) (order : Arrangement)
    (inlineCap : Nat) {σ : Type} {world : World Outside σ} (hworld : world.Memoryless)
    (outer outer' : σ) :
    SameAdvance order ((program.advance inlineCap effect).run world outer)
      (((program.reorder order).advance inlineCap (effect.reorder order)).run world outer') := by
  obtain ⟨kept, hadvance, hlog⟩ := advances_run program inlineCap effect world outer
  obtain ⟨moved, other, hmoved, hperm, hmirrors⟩ :=
    (Action.mirrored inlineCap).holds _ hadvance h.sound order ⟨program.id, []⟩
  have hother : ((program.reorder order).advance inlineCap (effect.reorder order)).Follows
      (Journaled.asked (⟨.note (.advance program.id), ()⟩ :: moved)) other :=
    Journaled.follows_asked (follows_advance.2 ⟨moved, rfl, hmoved⟩)
  have hanswers : ∀ entry ∈ Journaled.asked moved, ∀ state,
      entry.answer = (world.respond entry.request state).1 := by
    intro entry hentry state
    obtain ⟨given, hgiven⟩ := answer_of_mem_log (hlog ▸ hperm.mem_iff.1 hentry)
    exact hgiven.trans (hworld entry.request given state)
  obtain ⟨hvalue, hrequests⟩ := hother.run_eq hanswers outer'
  constructor
  · rw [hvalue]
    exact hmirrors.counterparts
  · rw [hrequests, ← log_requests, hlog]
    exact hperm.map _

/-- What is over stays as it is. -/
theorem next_done {effect : Effect} (hdone : effect.isDone = true) (surrounding : Surrounding) :
    program.next surrounding effect = effect := by
  obtain ⟨failure, snapshot, rfl⟩ := Effect.isDone_iff.1 hdone
  have hfollows : (program.advance surrounding.inlineCap (.done failure snapshot)).Follows []
      (.done failure snapshot) :=
    Journaled.follows_asked (follows_advance.2 ⟨[], rfl, Action.advances_ended _ _ _ _⟩)
  exact (hfollows.run_eq (List.forall_mem_nil _) surrounding.outer).1

theorem Reached.next_counterparts {one other : Effect} (h : program.Reached one)
    (hcounterparts : one.Counterparts order other) {surrounding : Surrounding}
    (hworld : surrounding.world.Memoryless) :
    (program.next surrounding one).Counterparts order
      ((program.reorder order).next surrounding other) := by
  by_cases hpending : one.outcome = .pending
  · rw [hcounterparts.image hpending]
    exact (h.same_advance order _ hworld _ _).counterparts
  · have hothers : other.outcome ≠ .pending := hcounterparts.outcome ▸ hpending
    rw [next_done (Effect.isDone_of_outcome hpending), next_done (Effect.isDone_of_outcome hothers)]
    exact hcounterparts

/-- The order of its parallel children makes no difference to what a program comes to, where
answers depend on nothing but the request. -/
structure OrderIrrelevant (program : Program) (order : Arrangement) : Prop where
  /-- One advance from anything that the program can come to, and the same thing reordered. -/
  advance : ∀ {effect : Effect}, program.Reached effect → ∀ (inlineCap : Nat) {σ : Type}
    (world : World Outside σ), world.Memoryless → ∀ outer outer' : σ,
    SameAdvance order ((program.advance inlineCap effect).run world outer)
      (((program.reorder order).advance inlineCap (effect.reorder order)).run world outer')
  /-- After any number of advances, each in a world of its own. -/
  runs : ∀ {start : Effect}, program.Reached start → ∀ surroundings : Nat → Surrounding,
    (∀ turn, (surroundings turn).world.Memoryless) → ∀ turn,
    (program.effectAfter start surroundings turn).Counterparts order
      ((program.reorder order).effectAfter (start.reorder order) surroundings turn)

/-- Parallel children may stand in any order. -/
theorem order_irrelevant (program : Program) (order : Arrangement) :
    program.OrderIrrelevant order where
  advance h inlineCap _ _ hworld outer outer' := h.same_advance order inlineCap hworld outer outer'
  runs {start} h surroundings hworlds turn := by
    induction turn with
    | zero => exact ⟨Effect.outcome_reorder start, fun _ => rfl⟩
    | succ turn ih => exact (h.effectAfter surroundings turn).next_counterparts ih (hworlds turn)

/-- Parallel children stand the other way round. -/
def backwards : Arrangement := fun _ _ => Fin.revPerm

theorem errand_order_irrelevant :
    errand.Reached errandSent ∧ confirming.Memoryless ∧
    errandSent.reorder backwards =
      .par [.completed, .seq 2 (.await (.txConfs "tx" "wallet" 1))] ∧
    SameAdvance backwards ((errand.advance 0 errandSent).run confirming ())
      (((errand.reorder backwards).advance 0 (errandSent.reorder backwards)).run confirming ()) ∧
    ∀ turn, (errand.effectAfter .init (fun _ => ⟨confirming, (), 0⟩) turn).Counterparts backwards
      ((errand.reorder backwards).effectAfter .init (fun _ => ⟨confirming, (), 0⟩) turn) := by
  have hworld : confirming.Memoryless := fun _ _ _ => rfl
  have hirrelevant : errand.OrderIrrelevant backwards := order_irrelevant errand backwards
  exact ⟨errand_sent, hworld, rfl, hirrelevant.advance errand_sent 0 confirming hworld () (),
    hirrelevant.runs .fresh (fun _ => ⟨confirming, (), 0⟩) fun _ => hworld⟩

end Program

end ProgramQueue
