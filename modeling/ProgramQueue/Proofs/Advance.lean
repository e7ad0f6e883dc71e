import ProgramQueue.Proofs.Logs
import ProgramQueue.Proofs.Positions

/-!
# One advance

An advance does at every node one of a few things.  They are listed once, as the
cases that a property of all advances has to be shown for, with what is known of the
effect in each of them or, for most properties, without it; the induction over the
tree is made here and nowhere else.
-/

namespace ProgramQueue

open ProgramQueue.Task (Follows follows_done follows_pure follows_bind)

namespace Action

/-- The effect that an inner node has once it has begun, its children not being
started. -/
def opened : Action → Effect
  | seq _ _ => .seq 0 .init
  | par children _ => .par (children.map fun _ => .init)
  | step _ _ => .init

theorem children?_seq_empty {children : List Action} (status : Option Status)
    (hempty : children.length = 0) : (seq children status).children? = some [] := by
  rw [children?, List.length_eq_zero_iff.1 hempty]

/-- Parallel children, numbered from an index, that advance from the first to the
last, each in the way that is asked for. -/
inductive Alongside (Turn : Site → Action → Effect → Log Journaled → Effect → Prop)
    (site : Site) : Nat → List Action → List Effect → Log Journaled → List Effect → Prop
  | nil {index : Nat} : Alongside Turn site index [] [] [] []
  | cons {index : Nat} {child : Action} {children : List Action} {effect next : Effect}
      {effects nexts : List Effect} {log later : Log Journaled}
      (first : Turn (site.below (.par index)) child effect log next)
      (rest : Alongside Turn site (index + 1) children effects later nexts) :
      Alongside Turn site index (child :: children) (effect :: effects)
        (log ++ later) (next :: nexts)

theorem Alongside.imp {Turn Weaker : Site → Action → Effect → Log Journaled → Effect → Prop}
    {site : Site} {index : Nat} {children : List Action} {effects nexts : List Effect}
    {log : Log Journaled} (h : Alongside Turn site index children effects log nexts)
    (hweaker : ∀ {site child effect log next}, Turn site child effect log next →
      Weaker site child effect log next) :
    Alongside Weaker site index children effects log nexts := by
  induction h with
  | nil => exact .nil
  | cons first rest ih => exact .cons (hweaker first) ih

/-- An effect that a node can have.  What has not been started, or is over, fits every
node; a sequence of no children is over whichever child it is said to run. -/
def Admits : Action → Effect → Prop
  | _, .init => True
  | _, .done _ _ => True
  | seq children _, .seq index _ => children = [] ∨ index < children.length
  | par children _, .par effects => effects.length = children.length
  | step _ _, .await _ => True
  | _, _ => False

/-- What has to be shown of a property to have it of every advance, with what is known in
each case: each field is one thing that can happen at a node. -/
structure NodeCases (inlineCap : Nat)
    (Turn : Site → Action → Effect → Log Journaled → Effect → Prop) : Prop where
  /-- What is over stays as it is. -/
  ended : ∀ site action failure snapshot,
    Turn site action (.done failure snapshot) [] (.done failure snapshot)
  /-- An effect that the node cannot have stops it. -/
  misfit : ∀ site action effect (misfit : Misfit), ¬action.Admits effect →
    Turn site action effect [] misfit.effect
  /-- A node without children is over at once. -/
  empty : ∀ site action effect, action.children? = some [] → effect.isDone = false →
    action.Admits effect → Turn site action effect [] .completed
  /-- A node with children that has not been started begins. -/
  opens : ∀ site action log next, action.children? ≠ some [] →
    Turn site action action.opened log next → Turn site action .init log next
  /-- A step is started. -/
  execute : ∀ site (step : Step) status log next,
    (step.execute inlineCap site).Follows log next →
    Turn site (.step step status) .init log next
  /-- A condition is checked. -/
  recheck : ∀ site (step : Step) status (condition : Condition) log next,
    (condition.recheck site).Follows log next →
    Turn site (.step step status) (.await condition) log next
  /-- The running child of a sequence advances. -/
  seq : ∀ site children status index running child log next,
    children[index]? = some running →
    Turn (site.below (.seq index)) running child log next →
    Turn site (.seq children status) (.seq index child) log
      (.afterChild children.length index next)
  /-- All parallel children advance. -/
  par : ∀ site children status effects log nexts,
    Alongside Turn site 0 children effects log nexts →
    Turn site (.par children status) (.par effects) log (.afterChildren nexts)

namespace NodeCases

variable {inlineCap : Nat} {Turn : Site → Action → Effect → Log Journaled → Effect → Prop}

/-- A sequence of no children is over, whichever child it is said to run. -/
theorem vacant (cases : NodeCases inlineCap Turn) {site : Site} {children : List Action}
    (status : Option Status) {index : Nat} {child : Effect} (hempty : children.length = 0) :
    Turn site (.seq children status) (.seq index child) [] .completed :=
  cases.empty _ _ _ (children?_seq_empty status hempty) rfl
    (Or.inl (List.length_eq_zero_iff.1 hempty))

/-- Children that advance together come to what is gathered of them. -/
theorem gathered (cases : NodeCases inlineCap Turn) {site : Site}
    {children : List Action} {status : Option Status} {effects : List Effect}
    (together : ∀ log nexts, effects.length = children.length →
      (advanceAll inlineCap site 0 children effects).Follows log nexts →
      Alongside Turn site 0 children effects log nexts)
    {log : Log Journaled} {next : Effect}
    (h : (gather children.length effects.length
      (advanceAll inlineCap site 0 children effects)).Follows log next) :
    Turn site (.par children status) (.par effects) log next := by
  unfold gather at h
  split at h
  · rename_i hwidth
    obtain ⟨rfl, rfl⟩ := follows_pure.1 h
    exact cases.misfit _ _ _ _ hwidth
  · rename_i hlength
    split at h
    · rename_i hempty
      obtain ⟨rfl, rfl⟩ := follows_pure.1 h
      have hnone : (Action.par children status).children? = some [] := by
        rw [children?, List.length_eq_zero_iff.1 hempty]
      exact cases.empty _ _ _ hnone rfl (not_not.1 hlength)
    · obtain ⟨first, nexts, later, rfl, hfirst, hlater⟩ := follows_bind.1 h
      obtain ⟨rfl, rfl⟩ := follows_pure.1 hlater
      rw [List.append_nil]
      exact cases.par _ _ _ _ _ _ (together _ _ (not_not.1 hlength) hfirst)

mutual

/-- A property that has all the cases holds of every advance. -/
theorem holds (cases : NodeCases inlineCap Turn) :
    (action : Action) → ∀ {site : Site} {effect : Effect} {log : Log Journaled}
      {next : Effect}, (action.advance inlineCap site effect).Follows log next →
      Turn site action effect log next
  | .seq children status, site, effect, log, next, h => by
      cases effect with
      | done failure snapshot =>
          obtain ⟨rfl, rfl⟩ := follows_pure.1 h
          exact cases.ended _ _ _ _
      | init =>
          by_cases hempty : children = []
          · subst hempty
            obtain ⟨rfl, rfl⟩ := follows_pure.1 h
            exact cases.empty _ _ _ rfl rfl trivial
          · refine cases.opens _ _ _ _ (fun hnone => hempty (Option.some.inj hnone)) ?_
            exact holdsSeq cases status children rfl rfl h
      | seq index child => exact holdsSeq cases status children rfl rfl h
      | par effects =>
          obtain ⟨rfl, rfl⟩ := follows_pure.1 h
          exact cases.misfit _ _ _ _ id
      | await condition =>
          obtain ⟨rfl, rfl⟩ := follows_pure.1 h
          exact cases.misfit _ _ _ _ id
  | .par children status, site, effect, log, next, h => by
      cases effect with
      | done failure snapshot =>
          obtain ⟨rfl, rfl⟩ := follows_pure.1 h
          exact cases.ended _ _ _ _
      | init =>
          by_cases hempty : children = []
          · subst hempty
            obtain ⟨rfl, rfl⟩ := follows_pure.1 h
            exact cases.empty _ _ _ rfl rfl trivial
          · have hlength : (children.map fun _ => Effect.init).length = children.length :=
              List.length_map _
            refine cases.opens _ _ _ _ (fun hnone => hempty (Option.some.inj hnone)) ?_
            refine cases.gathered (fun _ _ => holdsAll cases children) ?_
            rw [hlength]
            exact h
      | par effects => exact cases.gathered (fun _ _ => holdsAll cases children) h
      | seq index child =>
          obtain ⟨rfl, rfl⟩ := follows_pure.1 h
          exact cases.misfit _ _ _ _ id
      | await condition =>
          obtain ⟨rfl, rfl⟩ := follows_pure.1 h
          exact cases.misfit _ _ _ _ id
  | .step s status, site, effect, log, next, h => by
      cases effect with
      | done failure snapshot =>
          obtain ⟨rfl, rfl⟩ := follows_pure.1 h
          exact cases.ended _ _ _ _
      | init => exact cases.execute _ _ _ _ _ h
      | await condition => exact cases.recheck _ _ _ _ _ _ h
      | seq index child =>
          obtain ⟨rfl, rfl⟩ := follows_pure.1 h
          exact cases.misfit _ _ _ _ id
      | par effects =>
          obtain ⟨rfl, rfl⟩ := follows_pure.1 h
          exact cases.misfit _ _ _ _ id

theorem holdsSeq (cases : NodeCases inlineCap Turn) {site : Site}
    {children : List Action} (status : Option Status) {index : Nat} {child : Effect}
    {log : Log Journaled} {next : Effect} :
    (rest : List Action) → {skip count : Nat} → count = children.length →
      children[index]? = rest[skip]? →
      (advanceSeq inlineCap site rest count index skip child).Follows log next →
      Turn site (.seq children status) (.seq index child) log next
  | [], skip, count, hcount, hrest, h => by
      rw [advanceSeq] at h
      split at h
      · obtain ⟨rfl, rfl⟩ := follows_pure.1 h
        exact cases.vacant status (by omega)
      · rename_i hmany
        obtain ⟨rfl, rfl⟩ := follows_pure.1 h
        refine cases.misfit _ _ _ _ ?_
        rintro (rfl | hindex)
        · exact hmany hcount
        · rw [List.getElem?_eq_getElem hindex] at hrest
          cases hrest
  | running :: rest, 0, count, hcount, hrest, h => by
      rw [advanceSeq] at h
      split at h
      · obtain ⟨rfl, rfl⟩ := follows_pure.1 h
        exact cases.vacant status (by omega)
      · obtain ⟨first, middle, later, rfl, hfirst, hlater⟩ := follows_bind.1 h
        obtain ⟨rfl, rfl⟩ := follows_pure.1 hlater
        rw [List.append_nil, hcount]
        exact cases.seq _ _ _ _ _ _ _ _ hrest (holds cases running hfirst)
  | passed :: rest, skip + 1, count, hcount, hrest, h => by
      rw [advanceSeq] at h
      split at h
      · obtain ⟨rfl, rfl⟩ := follows_pure.1 h
        exact cases.vacant status (by omega)
      · exact holdsSeq cases status rest hcount hrest h

/-- Parallel children advance one after the other. -/
theorem holdsAll (cases : NodeCases inlineCap Turn) {site : Site} :
    (children : List Action) → ∀ {index : Nat} {effects nexts : List Effect}
      {log : Log Journaled}, effects.length = children.length →
      (advanceAll inlineCap site index children effects).Follows log nexts →
      Alongside Turn site index children effects log nexts
  | [], index, effects, nexts, log, hlength, h => by
      obtain rfl := List.length_eq_zero_iff.1 hlength
      rw [advanceAll] at h
      obtain ⟨rfl, rfl⟩ := follows_pure.1 h
      · exact .nil
      · simp
  | child :: children, index, [], nexts, log, hlength, h => by simp at hlength
  | child :: children, index, effect :: effects, nexts, log, hlength, h => by
      rw [advanceAll] at h
      obtain ⟨first, next, later, rfl, hfirst, hlater⟩ := follows_bind.1 h
      obtain ⟨middle, others, last, rfl, hmiddle, hlast⟩ := follows_bind.1 hlater
      obtain ⟨rfl, rfl⟩ := follows_pure.1 hlast
      rw [List.append_nil]
      exact .cons (holds cases child hfirst)
        (holdsAll cases children (by simpa using hlength) hmiddle)

end

end NodeCases

/-- What has to be shown of a property to have it of every advance: each field is
one thing that can happen at a node. -/
structure AdvanceCases (inlineCap : Nat)
    (Turn : Site → Action → Effect → Log Journaled → Effect → Prop) : Prop where
  /-- What is over stays as it is. -/
  ended : ∀ site action failure snapshot,
    Turn site action (.done failure snapshot) [] (.done failure snapshot)
  /-- An effect that does not fit stops the node. -/
  misfit : ∀ site action effect (misfit : Misfit), Turn site action effect [] misfit.effect
  /-- A node without children is over at once. -/
  empty : ∀ site action effect, action.children? = some [] →
    Turn site action effect [] .completed
  /-- A node that has not been started begins. -/
  opens : ∀ site action log next,
    Turn site action action.opened log next → Turn site action .init log next
  /-- A step is started. -/
  execute : ∀ site (step : Step) status log next,
    (step.execute inlineCap site).Follows log next →
    Turn site (.step step status) .init log next
  /-- A condition is checked. -/
  recheck : ∀ site (step : Step) status (condition : Condition) log next,
    (condition.recheck site).Follows log next →
    Turn site (.step step status) (.await condition) log next
  /-- The running child of a sequence advances. -/
  seq : ∀ site children status index running child log next,
    children[index]? = some running →
    Turn (site.below (.seq index)) running child log next →
    Turn site (.seq children status) (.seq index child) log
      (.afterChild children.length index next)
  /-- All parallel children advance. -/
  par : ∀ site children status effects log nexts,
    Alongside Turn site 0 children effects log nexts →
    Turn site (.par children status) (.par effects) log (.afterChildren nexts)

namespace AdvanceCases

variable {inlineCap : Nat} {Turn : Site → Action → Effect → Log Journaled → Effect → Prop}

/-- A property that has all the cases holds of every advance. -/
theorem holds (cases : AdvanceCases inlineCap Turn) (action : Action) {site : Site}
    {effect : Effect} {log : Log Journaled} {next : Effect}
    (h : (action.advance inlineCap site effect).Follows log next) :
    Turn site action effect log next := by
  have atNodes : NodeCases inlineCap Turn :=
    { ended := cases.ended
      misfit := fun site action effect misfit _ => cases.misfit site action effect misfit
      empty := fun site action effect hempty _ _ => cases.empty site action effect hempty
      opens := fun site action log next _ => cases.opens site action log next
      execute := cases.execute
      recheck := cases.recheck
      seq := cases.seq
      par := cases.par }
  exact atNodes.holds action h

end AdvanceCases

/-! ## What is followed at a node

What a node follows is made of what its children follow. -/

/-- The advance of a node can be answered in this way, and comes to this. -/
def Advances (inlineCap : Nat) (site : Site) (action : Action) (effect : Effect)
    (log : Log Journaled) (next : Effect) : Prop :=
  (action.advance inlineCap site effect).Follows log next

variable {inlineCap : Nat} {site : Site} {children : List Action} {status : Option Status}
  {index : Nat} {log : Log Journaled}

theorem advances_ended (site : Site) (action : Action) (failure : Option Failure)
    (snapshot : Option (List Effect)) :
    Advances inlineCap site action (.done failure snapshot) [] (.done failure snapshot) := by
  cases action with
  | seq children status => exact .done _
  | par children status => exact .done _
  | step step status => exact .done _

theorem advances_empty {action : Action} (hempty : action.children? = some []) :
    Advances inlineCap site action .init [] .completed := by
  cases action with
  | seq children status =>
      cases hempty
      exact .done _
  | par children status =>
      cases hempty
      exact .done _
  | step step status => cases hempty

/-- A node that begins does what it would do had it begun. -/
theorem advance_opened (inlineCap : Nat) (site : Site) (action : Action) :
    action.advance inlineCap site action.opened = action.advance inlineCap site .init := by
  cases action with
  | seq children status => rfl
  | par children status =>
      rw [opened, advance, advance, List.length_map]
  | step step status => rfl

theorem advances_seq {running : Action} {child next : Effect}
    (hrunning : children[index]? = some running)
    (h : Advances inlineCap (site.below (.seq index)) running child log next) :
    Advances inlineCap site (.seq children status) (.seq index child) log
      (.afterChild children.length index next) := by
  have hpassed (count : Nat) (hcount : count ≠ 0) (rest : List Action) (skip : Nat)
      (hrest : rest[skip]? = some running) :
      (advanceSeq inlineCap site rest count index skip child).Follows log
        (.afterChild count index next) := by
    induction rest generalizing skip with
    | nil => cases hrest
    | cons first rest ih =>
        cases skip with
        | zero =>
            obtain rfl := Option.some.inj hrest
            rw [advanceSeq, if_neg hcount]
            exact follows_bind.2 ⟨log, next, [], (List.append_nil log).symm, h, .done _⟩
        | succ skip =>
            rw [advanceSeq, if_neg hcount]
            exact ih skip hrest
  have hsome : children.length ≠ 0 := by
    intro hnone
    rw [List.length_eq_zero_iff.1 hnone] at hrunning
    cases hrunning
  rw [Advances, advance]
  exact hpassed children.length hsome children index hrunning

theorem Alongside.follows {effects nexts : List Effect}
    (h : Alongside (Advances inlineCap) site index children effects log nexts) :
    (advanceAll inlineCap site index children effects).Follows log nexts := by
  induction h with
  | nil =>
      rw [advanceAll]
      · exact .done _
      · simp
  | cons first rest ih =>
      rw [advanceAll]
      refine follows_bind.2 ⟨_, _, _, rfl, first, ?_⟩
      exact follows_bind.2 ⟨_, _, [], (List.append_nil _).symm, ih, .done _⟩

theorem Alongside.width {Turn : Site → Action → Effect → Log Journaled → Effect → Prop}
    {effects nexts : List Effect} (h : Alongside Turn site index children effects log nexts) :
    effects.length = children.length := by
  induction h with
  | nil => rfl
  | cons _ _ ih => rw [List.length_cons, List.length_cons, ih]

theorem advances_par {effects nexts : List Effect} (hsome : children ≠ [])
    (h : Alongside (Advances inlineCap) site 0 children effects log nexts) :
    Advances inlineCap site (.par children status) (.par effects) log
      (.afterChildren nexts) := by
  rw [Advances, advance, gather, if_neg (not_not.2 h.width),
    if_neg (mt List.length_eq_zero_iff.1 hsome)]
  exact follows_bind.2 ⟨log, nexts, [], (List.append_nil log).symm, h.follows, .done _⟩

end Action

end ProgramQueue
