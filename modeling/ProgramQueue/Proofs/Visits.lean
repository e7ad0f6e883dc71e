import ProgramQueue.Proofs.Resumption

/-!
# Visits to leaves

An effect leads to certain leaves: through a sequence to its running child, through parallel
children to all of them.  An advance visits these leaves from left to right; a visit starts
the leaf or checks its condition, and the answers say what the leaf comes to.
-/

namespace ProgramQueue

open ProgramQueue.Task (Follows Relayed)

/-- The way to one of two places turns to a parallel child further to the left. -/
def Path.LeftOf (first second : Path) : Prop :=
  ∃ (place : Path) (i j : Nat) (below beyond : Path), i < j ∧
    first = place ++ .par i :: below ∧ second = place ++ .par j :: beyond

theorem Path.LeftOf.under {first second : Path} (h : first.LeftOf second) (branch : Branch) :
    Path.LeftOf (branch :: first) (branch :: second) := by
  obtain ⟨place, i, j, below, beyond, hlt, rfl, rfl⟩ := h
  exact ⟨branch :: place, i, j, below, beyond, hlt, rfl, rfl⟩

theorem Journaled.asked_relayed {inner : Log Outside} {outer : Log Journaled}
    (h : Relayed (J := Journaled) Request.ask (fun _ answer => answer) inner outer) :
    asked outer = inner := by
  induction h with
  | nil => rfl
  | cons _ ih => exact congrArg (_ :: ·) ih

theorem Journaled.asked_flatMap {α : Type} (list : List α) (part : α → Log Journaled) :
    asked (list.flatMap part) = list.flatMap fun item => asked (part item) := by
  induction list with
  | nil => rfl
  | cons item rest ih => rw [List.flatMap_cons, List.flatMap_cons, asked_append, ih]

/-! ## What a leaf comes to -/

/-- The kind of failure that an error of a collaborator is. -/
inductive CollaboratorError.FailsAs : CollaboratorError → FailureKind → Prop
  | walletNotFound (walletId : String) : FailsAs (.walletNotFound walletId) .validation
  | pluginNotFound (pluginId : String) : FailsAs (.pluginNotFound pluginId) .validation
  | invalid (reason : String) : FailsAs (.invalid reason) .validation
  | failed (reason : String) : FailsAs (.failed reason) .execution
  | unavailable (reason : String) : FailsAs (.unavailable reason) .execution

theorem CollaboratorError.failsAs_toFailure (e : CollaboratorError) :
    e.FailsAs e.toFailure.kind := by
  cases e with
  | walletNotFound walletId => exact .walletNotFound walletId
  | pluginNotFound pluginId => exact .pluginNotFound pluginId
  | invalid reason => exact .invalid reason
  | failed reason => exact .failed reason
  | unavailable reason => exact .unavailable reason

/-- A leaf that has not been started is started, and the condition of any other is checked;
the answers to what is asked for it say what it comes to. -/
inductive Step.Handles (inlineCap : Nat) (step : Step) : Effect → Log Outside → Effect → Prop
  | started {log : Log Outside} {next : Effect}
      (h : (step.start inlineCap).run.Follows log (.ok next)) (hunfailed : next.failure? = none) :
      Handles inlineCap step .init log next
  | refused {log : Log Outside} {e : CollaboratorError} {kind : FailureKind}
      (h : (step.start inlineCap).run.Follows log (.error e)) (hkind : e.FailsAs kind) :
      Handles inlineCap step .init log (.failed ⟨kind, e.message⟩)
  | satisfied {condition : Condition} {log : Log Outside}
      (h : condition.check.run.Follows log (.ok .satisfied)) :
      Handles inlineCap step (.await condition) log .completed
  | pending {condition : Condition} {log : Log Outside}
      (h : condition.check.run.Follows log (.ok .pending)) :
      Handles inlineCap step (.await condition) log (.await condition)
  | failed {condition : Condition} {log : Log Outside} {reason : String}
      (h : condition.check.run.Follows log (.ok (.failed reason))) :
      Handles inlineCap step (.await condition) log (.failed ⟨.execution, reason⟩)
  | passing {condition : Condition} {log : Log Outside} {e : CollaboratorError}
      (h : condition.check.run.Follows log (.error e)) (htransient : e.isTransient = true) :
      Handles inlineCap step (.await condition) log (.await condition)
  | lasting {condition : Condition} {log : Log Outside} {e : CollaboratorError}
      {kind : FailureKind} (h : condition.check.run.Follows log (.error e))
      (hlasting : e.isTransient = false) (hkind : e.FailsAs kind) :
      Handles inlineCap step (.await condition) log (.failed ⟨kind, e.message⟩)

theorem Step.handles_start {inlineCap : Nat} {step : Step} {log : Log Outside}
    {result : Except CollaboratorError Effect}
    (h : (step.start inlineCap).run.Follows log result) :
    step.Handles inlineCap .init log (.ofStart result) := by
  cases result with
  | error e => exact .refused h e.failsAs_toFailure
  | ok next =>
      refine .started h ?_
      obtain rfl | ⟨condition, rfl, -⟩ := Step.start_comes h
      · rfl
      · rfl

theorem Step.handles_check {inlineCap : Nat} (step : Step) {condition : Condition}
    {log : Log Outside} {result : Except CollaboratorError Check}
    (h : condition.check.run.Follows log result) :
    step.Handles inlineCap (.await condition) log (.ofCheck (.await condition) result) := by
  cases result with
  | ok found =>
      cases found with
      | pending => exact .pending h
      | satisfied => exact .satisfied h
      | failed reason => exact .failed h
  | error e =>
      rw [Effect.ofCheck]
      cases htransient : e.isTransient with
      | true => exact .passing h htransient
      | false => exact .lasting h htransient e.failsAs_toFailure

/-- What is waited for, or has completed, has nothing inside. -/
theorem Step.Handles.unfailed {inlineCap : Nat} {step : Step} {effect next : Effect}
    {log : Log Outside} (h : step.Handles inlineCap effect log next)
    (hunfailed : next.failure? = none) {node : Effect} (hnode : node.Inside next) :
    node.failure? = none := by
  cases h with
  | started h =>
      obtain rfl | ⟨condition, rfl, -⟩ := Step.start_comes h
      · cases hnode
        rfl
      · cases hnode
        rfl
  | satisfied | pending | passing =>
      cases hnode
      rfl
  | refused | failed | lasting => cases hunfailed

/-- A leaf that an advance turns to: what it had come to, what was asked for it, and what it
has come to since. -/
structure Visit where
  place : Path
  step : Step
  effect : Effect
  asked : Log Outside
  next : Effect

namespace Visit

/-- The same visit seen from the node above. -/
def under (branch : Branch) (visit : Visit) : Visit :=
  { visit with place := branch :: visit.place }

/-- All that was asked in some visits, one after the other. -/
def askedIn (visits : List Visit) : Log Outside := visits.flatMap (·.asked)

/-- The visits to a place or below it. -/
def below (place : Path) (visits : List Visit) : List Visit :=
  visits.filter fun visit => place.isPrefixOf visit.place

/-- The visits to parallel children, from the first to the last. -/
def alongside (count : Nat) (visitsTo : Nat → List Visit) : List Visit :=
  (List.range count).flatMap fun index => (visitsTo index).map (under (.par index))

variable {visits : List Visit} {count index : Nat} {visitsTo : Nat → List Visit}

theorem askedIn_under (branch : Branch) (visits : List Visit) :
    askedIn (visits.map (under branch)) = askedIn visits := by
  rw [askedIn, List.flatMap_map]
  rfl

theorem below_under (branch other : Branch) (place : Path) (visits : List Visit) :
    below (branch :: place) (visits.map (under other)) =
      if branch = other then (below place visits).map (under other) else [] := by
  rw [below, List.filter_map]
  split
  · rename_i heq
    rw [below]
    congr 1
    refine List.filter_congr fun visit _ => ?_
    simp [under, heq]
  · rename_i hne
    rw [List.map_eq_nil_iff, List.filter_eq_nil_iff]
    intro visit _
    simp [under, hne]

theorem mem_alongside {visit : Visit} : visit ∈ alongside count visitsTo ↔
    ∃ index < count, ∃ inner ∈ visitsTo index, inner.under (.par index) = visit := by
  simp [alongside]

theorem askedIn_alongside : askedIn (alongside count visitsTo) =
    (List.range count).flatMap fun index => askedIn (visitsTo index) := by
  rw [askedIn, alongside, List.flatMap_assoc]
  congr 1
  funext index
  exact askedIn_under _ _

theorem flatMap_range_ite {α : Type} (count index : Nat) (list : List α) :
    ((List.range count).flatMap fun other => if index = other then list else []) =
      if index < count then list else [] := by
  induction count with
  | zero => rfl
  | succ count ih =>
      rw [List.range_succ, List.flatMap_append, ih, List.flatMap_singleton]
      by_cases hlast : index = count
      · rw [if_neg (by omega), if_pos hlast, if_pos (by omega), List.nil_append]
      · rw [if_neg hlast, List.append_nil]
        congr 1
        exact propext (by omega)

/-- Of the visits to parallel children, those to one of them are found below its place. -/
theorem below_alongside (hindex : index < count) (place : Path) :
    below (.par index :: place) (alongside count visitsTo) =
      (below place (visitsTo index)).map (under (.par index)) := by
  have hone (other : Nat) :
      below (.par index :: place) ((visitsTo other).map (under (.par other))) =
        if index = other then (below place (visitsTo index)).map (under (.par index)) else [] := by
    rw [below_under]
    by_cases heq : index = other
    · rw [if_pos (congrArg _ heq), if_pos heq, heq]
    · rw [if_neg (mt Branch.par.inj heq), if_neg heq]
  have hall : below (.par index :: place) (alongside count visitsTo) =
      (List.range count).flatMap fun other =>
        below (.par index :: place) ((visitsTo other).map (under (.par other))) := by
    rw [below, alongside, List.filter_flatMap]
    rfl
  rw [hall, funext hone, flatMap_range_ite, if_pos hindex]

/-- The first failure is the first one of the first child that has any. -/
theorem failure_alongside {failureOf : Nat → Option Failure}
    (h : ∀ index < count,
      (visitsTo index).findSome? (fun visit => visit.next.failure?) = failureOf index) :
    (alongside count visitsTo).findSome? (fun visit => visit.next.failure?) =
      (List.range count).findSome? failureOf := by
  induction count with
  | zero => rfl
  | succ count ih =>
      have hearlier := ih fun index hindex => h index (Nat.lt_succ_of_lt hindex)
      rw [alongside] at hearlier ⊢
      rw [List.range_succ, List.flatMap_append, List.findSome?_append, List.findSome?_append,
        hearlier, List.flatMap_singleton, List.findSome?_map, List.findSome?_singleton,
        ← h count (Nat.lt_succ_self count)]
      rfl

theorem ordered_alongside (h : ∀ index < count,
      (visitsTo index).Pairwise fun first second => first.place.LeftOf second.place) :
    (alongside count visitsTo).Pairwise fun first second => first.place.LeftOf second.place := by
  rw [alongside, List.pairwise_flatMap]
  constructor
  · intro index hindex
    rw [List.pairwise_map]
    exact (h index (List.mem_range.1 hindex)).imp fun hleft => hleft.under _
  · refine List.pairwise_lt_range.imp fun {i j} hlt first hfirst second hsecond => ?_
    obtain ⟨inner, -, rfl⟩ := List.mem_map.1 hfirst
    obtain ⟨other, -, rfl⟩ := List.mem_map.1 hsecond
    exact ⟨[], i, j, inner.place, other.place, hlt, rfl, rfl⟩

end Visit

/-! ## Where an effect leads -/

namespace Action

/-- Descending an effect leads to a node, which has an effect of its own there: to the running
child of a sequence, and to each of parallel children; and where nothing has begun, to the
first child of a sequence and to all parallel children. -/
inductive Leads : Action → Effect → Path → Action → Effect → Prop
  | here (action : Action) (effect : Effect) : Leads action effect [] action effect
  | first {child node : Action} {rest : List Action} {status : Option Status} {place : Path}
      {own : Effect} (below : Leads child .init place node own) :
      Leads (.seq (child :: rest) status) .init (.seq 0 :: place) node own
  | running {children : List Action} {status : Option Status} {index : Nat}
      {child node : Action} {effect own : Effect} {place : Path}
      (hchild : children[index]? = some child) (below : Leads child effect place node own) :
      Leads (.seq children status) (.seq index effect) (.seq index :: place) node own
  | all {children : List Action} {status : Option Status} {index : Nat} {child node : Action}
      {own : Effect} {place : Path} (hchild : children[index]? = some child)
      (below : Leads child .init place node own) :
      Leads (.par children status) .init (.par index :: place) node own
  | branch {children : List Action} {status : Option Status} {effects : List Effect}
      {index : Nat} {child node : Action} {effect own : Effect} {place : Path}
      (hchild : children[index]? = some child) (heffect : effects[index]? = some effect)
      (below : Leads child effect place node own) :
      Leads (.par children status) (.par effects) (.par index :: place) node own

/-- A leaf that an effect leads to and that is not over. -/
def Active (action : Action) (effect : Effect) (place : Path) (step : Step) (own : Effect) :
    Prop :=
  own.isDone = false ∧ ∃ status, action.Leads effect place (.step step status) own

variable {children : List Action} {status : Option Status} {index : Nat}
  {action node running : Action} {effect own child : Effect} {effects : List Effect}
  {branch : Branch} {place : Path} {step : Step}

theorem leads_nil : action.Leads effect [] node own ↔ node = action ∧ own = effect := by
  constructor
  · intro h
    cases h
    exact ⟨rfl, rfl⟩
  · rintro ⟨rfl, rfl⟩
    exact .here _ _

theorem leads_seq (hrunning : children[index]? = some running) :
    (seq children status).Leads (.seq index child) (branch :: place) node own ↔
      branch = .seq index ∧ running.Leads child place node own := by
  constructor
  · intro h
    cases h with
    | running hchild below =>
        obtain rfl := Option.some.inj (hrunning.symm.trans hchild)
        exact ⟨rfl, below⟩
  · rintro ⟨rfl, below⟩
    exact .running hrunning below

theorem leads_par : (par children status).Leads (.par effects) (branch :: place) node own ↔
    ∃ index child effect, branch = .par index ∧ children[index]? = some child ∧
      effects[index]? = some effect ∧ child.Leads effect place node own := by
  constructor
  · intro h
    cases h with
    | branch hchild heffect below => exact ⟨_, _, _, rfl, hchild, heffect, below⟩
  · rintro ⟨index, child, effect, rfl, hchild, heffect, below⟩
    exact .branch hchild heffect below

/-- Below a parallel child only that child and its own effect count. -/
theorem leads_branch {index : Nat} {child : Action} {effect : Effect}
    (hchild : children[index]? = some child) (heffect : effects[index]? = some effect) :
    (par children status).Leads (.par effects) (.par index :: place) node own ↔
      child.Leads effect place node own := by
  refine ⟨fun h => ?_, .branch hchild heffect⟩
  obtain ⟨_, _, _, hsame, hchild', heffect', below⟩ := leads_par.1 h
  obtain rfl := Branch.par.inj hsame
  obtain rfl := Option.some.inj (hchild.symm.trans hchild')
  obtain rfl := Option.some.inj (heffect.symm.trans heffect')
  exact below

/-- Where nothing has begun, an effect leads where it leads once the node has begun. -/
theorem leads_opened : action.Leads action.opened (branch :: place) node own ↔
    action.Leads .init (branch :: place) node own := by
  cases action with
  | seq children status =>
      constructor
      · intro h
        cases h with
        | @running _ _ _ child _ _ _ _ hchild below =>
            cases children with
            | nil => cases hchild
            | cons first rest =>
                obtain rfl := Option.some.inj hchild
                exact .first below
      · intro h
        cases h with
        | first below => exact .running rfl below
  | par children status =>
      constructor
      · intro h
        cases h with
        | branch hchild heffect below =>
            rw [List.getElem?_map, hchild] at heffect
            obtain rfl := Option.some.inj heffect
            exact .all hchild below
      · intro h
        cases h with
        | all hchild below =>
            exact .branch hchild (by rw [List.getElem?_map, hchild]; rfl) below
  | step step status => exact Iff.rfl

theorem active_opened (hinner : action.children? ≠ none) :
    action.Active action.opened place step own ↔ action.Active .init place step own := by
  have hleads (status : Option Status) : action.Leads action.opened place (.step step status) own ↔
      action.Leads .init place (.step step status) own := by
    cases place with
    | cons branch place => exact leads_opened
    | nil =>
        rw [leads_nil, leads_nil]
        refine iff_of_false ?_ ?_ <;> rintro ⟨rfl, -⟩ <;> exact hinner rfl
  simp only [Active, hleads]

end Action

end ProgramQueue
