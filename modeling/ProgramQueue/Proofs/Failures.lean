import ProgramQueue.Proofs.Convergence
import ProgramQueue.Proofs.Visits

/-!
# How a failure spreads

An advance visits every leaf that its effect leads to, whatever the others come to.  If none
of them fails, nothing fails.  Otherwise all is over with the failure of the first one, and
all parallel children above it are kept as they have come out.
-/

namespace ProgramQueue

open ProgramQueue.Task (Follows follows_run)

/-! ## What is kept of a failure -/

namespace Effect

/-- A sequence has failed as its running child has. -/
theorem failure?_afterChild (count index : Nat) (next : Effect) :
    (afterChild count index next).failure? = next.failure? := by
  cases hdone : next.isDone with
  | false =>
      rw [afterChild_pending hdone]
      cases next <;> first | rfl | cases hdone
  | true =>
      obtain ⟨failure, snapshot, rfl⟩ := isDone_iff.1 hdone
      cases failure with
      | some failure => rfl
      | none =>
          rw [afterChild_completed]
          split <;> rfl

theorem unfailed_afterChild {count index : Nat} {next : Effect}
    (h : ∀ node : Effect, node.Inside next → node.failure? = none) {node : Effect}
    (hnode : node.Inside (afterChild count index next)) : node.failure? = none := by
  cases hdone : next.isDone with
  | false =>
      rw [afterChild_pending hdone] at hnode
      cases hnode with
      | here => rfl
      | seq below => exact h node below
  | true =>
      obtain ⟨failure, snapshot, rfl⟩ := isDone_iff.1 hdone
      obtain rfl : failure = none := h _ .here
      rw [afterChild_completed] at hnode
      split at hnode
      · cases hnode
        rfl
      · cases hnode with
        | here => rfl
        | seq below =>
            cases below
            rfl

/-- Parallel children have failed as the first of them that has. -/
theorem failure?_afterChildren (nexts : List Effect) :
    (afterChildren nexts).failure? = nexts.findSome? failure? := by
  obtain ⟨failure, hfailure, heq⟩ | ⟨hnone, -, heq⟩ | ⟨hnone, -, heq⟩ :=
    afterChildren_cases nexts
  · rw [heq, hfailure]
    rfl
  · rw [heq, hnone]
    rfl
  · rw [heq, hnone]
    rfl

theorem unfailed_afterChildren {nexts : List Effect}
    (h : ∀ next ∈ nexts, ∀ node : Effect, node.Inside next → node.failure? = none)
    {node : Effect} (hnode : node.Inside (afterChildren nexts)) : node.failure? = none := by
  obtain ⟨failure, hfailure, -⟩ | ⟨-, -, heq⟩ | ⟨-, -, heq⟩ := afterChildren_cases nexts
  · obtain ⟨next, hnext, hfailed⟩ := List.exists_of_findSome?_eq_some hfailure
    cases (h next hnext next .here).symm.trans hfailed
  · rw [heq] at hnode
    cases hnode
    rfl
  · rw [heq] at hnode
    cases hnode with
    | here => rfl
    | par hchild below => exact h _ hchild node below

end Effect

/-- What stands at a place in an effect that has failed: a sequence has failed as its running
child has, and of parallel children there is a snapshot. -/
def Effect.kept? : Effect → Path → Option Effect
  | effect, [] => some effect
  | .done (some failure) snapshot, .seq _ :: rest => kept? (.done (some failure) snapshot) rest
  | .done (some _) (some branches), .par index :: rest => branches[index]?.bind (kept? · rest)
  | _, _ => none

namespace Action

/-- At a place stand parallel children that have failed, with a snapshot that holds for each
of them the effect that it has come to by itself, given what was asked in the visits below it. -/
def KeepsBranches (inlineCap : Nat) (site : Site) (action : Action) (effect : Effect)
    (visits : List Visit) (next : Effect) (place : Path) : Prop :=
  ∃ failure branches, next.kept? place = some (.done (some failure) (some branches)) ∧
    ∀ index,
      (index < branches.length ↔
        ∃ child own, action.Leads effect (place ++ [.par index]) child own) ∧
      ∀ child own, action.Leads effect (place ++ [.par index]) child own →
        ∃ kept, branches[index]? = some kept ∧
          (Journaled.silent
            (child.advance inlineCap (site.reach (place ++ [.par index])) own)).Follows
            (Visit.askedIn (Visit.below (place ++ [.par index]) visits)) kept

/-- The visits of an advance account for what was asked and for what it came to. -/
structure Accounts (inlineCap : Nat) (site : Site) (action : Action) (effect : Effect)
    (log : Log Outside) (next : Effect) (visits : List Visit) : Prop where
  /-- Each active leaf is visited, and no other one. -/
  active : ∀ place step own, action.Active effect place step own ↔
    ∃ visit ∈ visits, visit.place = place ∧ visit.step = step ∧ visit.effect = own
  ordered : visits.Pairwise fun first second => first.place.LeftOf second.place
  asked : log = Visit.askedIn visits
  handled : ∀ visit ∈ visits, visit.step.Handles inlineCap visit.effect visit.asked visit.next
  /-- The failure is that of the first visit that failed. -/
  failure : next.failure? = visits.findSome? fun visit => visit.next.failure?
  unfailed : (∀ visit ∈ visits, visit.next.failure? = none) →
    ∀ node : Effect, node.Inside next → node.failure? = none
  kept : ∀ visit ∈ visits, visit.next.failure? ≠ none →
    ∀ place index below, visit.place = place ++ .par index :: below →
      KeepsBranches inlineCap site action effect visits next place

variable {inlineCap : Nat} {site : Site} {children : List Action} {status : Option Status}
  {index : Nat} {action running : Action} {effect child next : Effect} {effects nexts : List Effect}
  {log : Log Outside} {visits : List Visit}

/-- All is over once a leaf has failed. -/
theorem Accounts.failed (h : Accounts inlineCap site action effect log next visits)
    {visit : Visit} (hvisit : visit ∈ visits) (hfailed : visit.next.failure? ≠ none) :
    ∃ failure snapshot, next = .done (some failure) snapshot := by
  have hsome : next.failure? ≠ none := by
    rw [h.failure]
    exact fun hnone => hfailed (List.findSome?_eq_none_iff.1 hnone visit hvisit)
  obtain ⟨failure, hfailure⟩ := Option.ne_none_iff_exists'.1 hsome
  obtain ⟨snapshot, heq⟩ := Effect.failure?_eq_some.1 hfailure
  exact ⟨failure, snapshot, heq⟩

/-- What is kept below a child is kept below the node. -/
theorem KeepsBranches.under {branch : Branch} {outer : Effect} {outerVisits : List Visit}
    {place : Path}
    (h : KeepsBranches inlineCap (site.below branch) running child visits next place)
    (hkept : outer.kept? (branch :: place) = next.kept? place)
    (hleads : ∀ rest node own,
      action.Leads effect (branch :: rest) node own ↔ running.Leads child rest node own)
    (hasked : ∀ rest, Visit.askedIn (Visit.below (branch :: rest) outerVisits) =
      Visit.askedIn (Visit.below rest visits)) :
    KeepsBranches inlineCap site action effect outerVisits outer (branch :: place) := by
  obtain ⟨failure, branches, hsnapshot, hbranches⟩ := h
  refine ⟨failure, branches, hkept.trans hsnapshot, fun index => ?_⟩
  simp only [List.cons_append, hleads, hasked]
  rw [← congrFun (Site.below_reach site branch)]
  exact hbranches index

/-- Where nothing is active, nothing is asked. -/
theorem accounts_nothing (hactive : ∀ place step own, ¬action.Active effect place step own) :
    Accounts inlineCap site action effect [] .completed [] where
  active place step own := iff_of_false (hactive place step own) (by simp)
  ordered := .nil
  asked := rfl
  handled := List.forall_mem_nil _
  failure := rfl
  unfailed _ node hnode := by
    cases hnode
    rfl
  kept := List.forall_mem_nil _

/-- A step that is not over is a leaf that is active itself. -/
theorem accounts_leaf {step : Step} (hopen : effect.isDone = false)
    (h : step.Handles inlineCap effect log next) :
    Accounts inlineCap site (.step step status) effect log next
      [⟨[], step, effect, log, next⟩] where
  active place other own := by
    constructor
    · rintro ⟨-, _, hleads⟩
      cases hleads
      exact ⟨_, List.mem_singleton_self _, rfl, rfl, rfl⟩
    · rintro ⟨visit, hvisit, rfl, rfl, rfl⟩
      obtain rfl := List.mem_singleton.1 hvisit
      exact ⟨hopen, status, .here _ _⟩
  ordered := List.pairwise_singleton _ _
  asked := (List.append_nil log).symm
  handled := List.forall_mem_singleton.2 h
  failure := by
    rw [List.findSome?_singleton]
  unfailed hnone node hnode := h.unfailed (hnone _ (List.mem_singleton_self _)) hnode
  kept := List.forall_mem_singleton.2 fun _ place index below heq => by
    cases place <;> cases heq

theorem Accounts.opened (hsome : action.children? ≠ none)
    (h : Accounts inlineCap site action action.opened log next visits) :
    Accounts inlineCap site action .init log next visits where
  active place step own := by rw [← active_opened hsome, h.active]
  ordered := h.ordered
  asked := h.asked
  handled := h.handled
  failure := h.failure
  unfailed := h.unfailed
  kept visit hvisit hfailed place index below heq := by
    have hleads (index : Nat) (child : Action) (own : Effect) :
        action.Leads action.opened (place ++ [.par index]) child own ↔
          action.Leads .init (place ++ [.par index]) child own := by
      cases place with
      | nil => exact leads_opened
      | cons branch place => exact leads_opened
    have hkept := h.kept visit hvisit hfailed place index below heq
    simpa only [KeepsBranches, hleads] using hkept

theorem Accounts.seq (hrunning : children[index]? = some running)
    (h : Accounts inlineCap (site.below (.seq index)) running child log next visits) :
    Accounts inlineCap site (.seq children status) (.seq index child) log
      (.afterChild children.length index next) (visits.map (Visit.under (.seq index))) where
  active place step own := by
    constructor
    · rintro ⟨hopen, status, hleads⟩
      cases place with
      | nil => cases (leads_nil.1 hleads).1
      | cons branch place =>
          obtain ⟨rfl, hbelow⟩ := (leads_seq hrunning).1 hleads
          obtain ⟨visit, hvisit, rfl, rfl, rfl⟩ := (h.active _ _ _).1 ⟨hopen, status, hbelow⟩
          exact ⟨_, List.mem_map_of_mem hvisit, rfl, rfl, rfl⟩
    · rintro ⟨_, hvisit, rfl, rfl, rfl⟩
      obtain ⟨visit, hinner, rfl⟩ := List.mem_map.1 hvisit
      obtain ⟨hopen, status, hbelow⟩ := (h.active _ _ _).2 ⟨visit, hinner, rfl, rfl, rfl⟩
      exact ⟨hopen, status, (leads_seq hrunning).2 ⟨rfl, hbelow⟩⟩
  ordered := by
    rw [List.pairwise_map]
    exact h.ordered.imp fun hleft => hleft.under _
  asked := h.asked.trans (Visit.askedIn_under _ _).symm
  handled := List.forall_mem_map.2 h.handled
  failure := by
    rw [List.findSome?_map]
    exact (Effect.failure?_afterChild _ _ _).trans h.failure
  unfailed hnone node hnode := by
    rw [List.forall_mem_map] at hnone
    exact Effect.unfailed_afterChild (h.unfailed hnone) hnode
  kept := by
    rw [List.forall_mem_map]
    intro visit hvisit hfailed place other below heq
    obtain ⟨failure, snapshot, rfl⟩ := h.failed hvisit hfailed
    cases place with
    | nil => cases heq
    | cons branch place =>
        obtain ⟨rfl, hplace⟩ := List.cons.inj heq
        refine (h.kept visit hvisit hfailed place other below hplace).under rfl
          (fun rest node own => ?_) fun rest => ?_
        · rw [leads_seq hrunning]
          exact and_iff_right rfl
        · rw [Visit.below_under, if_pos rfl, Visit.askedIn_under]

/-- Parallel children, each of which advances by itself: what each asks and comes to, and the
visits that account for it. -/
structure AccountsEach (inlineCap : Nat) (siteOf : Nat → Site) (children : List Action)
    (effects : List Effect) (part : Nat → Log Journaled) (nextOf : Nat → Effect)
    (visitsTo : Nat → List Visit) : Prop where
  width : effects.length = children.length
  advances : ∀ index child effect, children[index]? = some child → effects[index]? = some effect →
    Advances inlineCap (siteOf index) child effect (part index) (nextOf index)
  accounts : ∀ index child effect, children[index]? = some child → effects[index]? = some effect →
    Accounts inlineCap (siteOf index) child effect (Journaled.asked (part index)) (nextOf index)
      (visitsTo index)

namespace AccountsEach

variable {siteOf : Nat → Site} {part : Nat → Log Journaled} {nextOf : Nat → Effect}
  {visitsTo : Nat → List Visit}

/-- Every child has an effect. -/
theorem exists_child (h : AccountsEach inlineCap siteOf children effects part nextOf visitsTo)
    (hindex : index < children.length) :
    ∃ child effect, children[index]? = some child ∧ effects[index]? = some effect := by
  have hwidth : index < effects.length := h.width ▸ hindex
  exact ⟨_, _, List.getElem?_eq_getElem hindex, List.getElem?_eq_getElem hwidth⟩

theorem at_index (h : AccountsEach inlineCap siteOf children effects part nextOf visitsTo)
    (hindex : index < children.length) :
    ∃ child effect, Accounts inlineCap (siteOf index) child effect
      (Journaled.asked (part index)) (nextOf index) (visitsTo index) := by
  obtain ⟨child, effect, hchild, heffect⟩ := h.exists_child hindex
  exact ⟨child, effect, h.accounts index child effect hchild heffect⟩

/-- The children themselves are kept where one of them has failed. -/
theorem keeps_branches (h : AccountsEach inlineCap (fun index => site.below (.par index)) children
    effects part nextOf visitsTo) {failure : Failure} :
    KeepsBranches inlineCap site (.par children status) (.par effects)
      (Visit.alongside children.length visitsTo)
      (.done (some failure) (some ((List.range children.length).map nextOf))) [] := by
  refine ⟨failure, _, rfl, fun index => ⟨?_, fun child own hleads => ?_⟩⟩
  · rw [List.length_map, List.length_range, List.nil_append]
    constructor
    · intro hindex
      obtain ⟨child, effect, hchild, heffect⟩ := h.exists_child hindex
      exact ⟨child, effect, .branch hchild heffect (.here _ _)⟩
    · rintro ⟨child, own, hleads⟩
      obtain ⟨_, _, _, heq, hchild, -, -⟩ := leads_par.1 hleads
      obtain rfl := Branch.par.inj heq
      exact (List.getElem?_eq_some_iff.1 hchild).1
  · obtain ⟨_, _, _, heq, hchild, heffect, hhere⟩ := leads_par.1 hleads
    obtain rfl := Branch.par.inj heq
    obtain ⟨rfl, rfl⟩ := leads_nil.1 hhere
    have hindex := (List.getElem?_eq_some_iff.1 hchild).1
    refine ⟨nextOf index, by simp [hindex], ?_⟩
    have hall : Visit.below [] (visitsTo index) = visitsTo index :=
      List.filter_eq_self.2 fun visit _ => rfl
    rw [List.nil_append, Visit.below_alongside hindex, hall, Visit.askedIn_under,
      ← (h.accounts index child own hchild heffect).asked]
    exact Journaled.follows_asked (h.advances index child own hchild heffect)

theorem par (h : AccountsEach inlineCap (fun index => site.below (.par index)) children effects
    part nextOf visitsTo) :
    Accounts inlineCap site (.par children status) (.par effects)
      (Journaled.asked ((List.range children.length).flatMap part))
      (.afterChildren ((List.range children.length).map nextOf))
      (Visit.alongside children.length visitsTo) where
  active place step own := by
    constructor
    · rintro ⟨hopen, status, hleads⟩
      cases place with
      | nil => cases (leads_nil.1 hleads).1
      | cons branch place =>
          obtain ⟨index, child, effect, rfl, hchild, heffect, hbelow⟩ := leads_par.1 hleads
          obtain ⟨visit, hvisit, rfl, rfl, rfl⟩ :=
            ((h.accounts index child effect hchild heffect).active _ _ _).1 ⟨hopen, status, hbelow⟩
          have hindex := (List.getElem?_eq_some_iff.1 hchild).1
          exact ⟨_, Visit.mem_alongside.2 ⟨index, hindex, visit, hvisit, rfl⟩, rfl, rfl, rfl⟩
    · rintro ⟨_, hvisit, rfl, rfl, rfl⟩
      obtain ⟨index, hindex, visit, hinner, rfl⟩ := Visit.mem_alongside.1 hvisit
      obtain ⟨child, effect, hchild, heffect⟩ := h.exists_child hindex
      obtain ⟨hopen, status, hbelow⟩ :=
        ((h.accounts index child effect hchild heffect).active _ _ _).2
          ⟨visit, hinner, rfl, rfl, rfl⟩
      exact ⟨hopen, status, .branch hchild heffect hbelow⟩
  ordered := by
    apply Visit.ordered_alongside
    intro index hindex
    obtain ⟨child, effect, haccounts⟩ := h.at_index hindex
    exact haccounts.ordered
  asked := by
    rw [Visit.askedIn_alongside, Journaled.asked_flatMap]
    refine List.flatMap_congr fun index hindex => ?_
    obtain ⟨child, effect, haccounts⟩ := h.at_index (List.mem_range.1 hindex)
    exact haccounts.asked
  handled visit hvisit := by
    obtain ⟨index, hindex, inner, hinner, rfl⟩ := Visit.mem_alongside.1 hvisit
    obtain ⟨child, effect, haccounts⟩ := h.at_index hindex
    exact haccounts.handled inner hinner
  failure := by
    rw [Effect.failure?_afterChildren, List.findSome?_map]
    refine (Visit.failure_alongside fun index hindex => ?_).symm
    obtain ⟨child, effect, haccounts⟩ := h.at_index hindex
    exact haccounts.failure.symm
  unfailed hnone node hnode := by
    refine Effect.unfailed_afterChildren (fun next hnext => ?_) hnode
    obtain ⟨index, hindex, rfl⟩ := List.mem_map.1 hnext
    have hindex := List.mem_range.1 hindex
    obtain ⟨child, effect, haccounts⟩ := h.at_index hindex
    exact haccounts.unfailed fun visit hvisit =>
      hnone (visit.under _) (Visit.mem_alongside.2 ⟨index, hindex, visit, hvisit, rfl⟩)
  kept visit hvisit hfailed place other below heq := by
    obtain ⟨index, hindex, inner, hinner, rfl⟩ := Visit.mem_alongside.1 hvisit
    obtain ⟨child, effect, hchild, heffect⟩ := h.exists_child hindex
    have haccounts := h.accounts index child effect hchild heffect
    have hnext : nextOf index ∈ (List.range children.length).map nextOf :=
      List.mem_map_of_mem (List.mem_range.2 hindex)
    obtain ⟨failure, snapshot, hover⟩ := haccounts.failed hinner hfailed
    obtain ⟨failure, -, hafter⟩ | ⟨hnone, -, -⟩ | ⟨hnone, -, -⟩ :=
      Effect.afterChildren_cases ((List.range children.length).map nextOf)
    · rw [hafter]
      cases place with
      | nil => exact h.keeps_branches
      | cons branch place =>
          obtain ⟨rfl, hplace⟩ := List.cons.inj heq
          refine (haccounts.kept inner hinner hfailed place other below hplace).under ?_
            (fun rest node own => leads_branch hchild heffect) fun rest => ?_
          · simp [Effect.kept?, hindex]
          · rw [Visit.below_alongside hindex, Visit.askedIn_under]
    all_goals
      have hunfailed := List.findSome?_eq_none_iff.1 hnone _ hnext
      rw [hover] at hunfailed
      cases hunfailed

end AccountsEach

/-- From what it can come to, an action advances as its nodes do, and as long as it has not
failed there are visits that account for all of it. -/
def Explained (inlineCap : Nat) (site : Site) (action : Action) (effect : Effect)
    (log : Log Journaled) (next : Effect) : Prop :=
  action.Sound effect → Advances inlineCap site action effect log next ∧
    (effect.failure? = none →
      ∃ visits, Accounts inlineCap site action effect (Journaled.asked log) next visits)

theorem Alongside.explained {log : Log Journaled}
    (h : Alongside (Explained inlineCap) site index children effects log nexts)
    (hsound : ∀ pair ∈ children.zip effects, pair.1.Sound pair.2) :
    Alongside (Advances inlineCap) site index children effects log nexts := by
  induction h with
  | nil => exact .nil
  | cons first rest ih =>
      rw [List.zip_cons_cons, List.forall_mem_cons] at hsound
      exact .cons (first hsound.1).1 (ih hsound.2)

/-- Each of parallel children has visits of its own. -/
theorem Alongside.each {log : Log Journaled}
    (h : Alongside (Explained inlineCap) site index children effects log nexts)
    (hsound : ∀ pair ∈ children.zip effects, pair.1.Sound pair.2)
    (hunfailed : ∀ effect ∈ effects, effect.failure? = none) :
    ∃ part nextOf visitsTo, log = (List.range children.length).flatMap part ∧
      nexts = (List.range children.length).map nextOf ∧
      AccountsEach inlineCap (fun offset => site.below (.par (index + offset))) children effects
        part nextOf visitsTo := by
  induction h with
  | nil =>
      refine ⟨fun _ => [], fun _ => .init, fun _ => [], rfl, rfl, rfl, ?_, ?_⟩ <;>
        · intro offset other own hother
          cases hother
  | @cons index child children effect next effects nexts log later first rest ih =>
      rw [List.zip_cons_cons, List.forall_mem_cons] at hsound
      rw [List.forall_mem_cons] at hunfailed
      obtain ⟨hadvances, haccounts⟩ := first hsound.1
      obtain ⟨visits, haccounts⟩ := haccounts hunfailed.1
      obtain ⟨part, nextOf, visitsTo, rfl, rfl, heach⟩ := ih hsound.2 hunfailed.2
      have hlater (offset : Nat) : index + 1 + offset = index + (offset + 1) := by omega
      simp only [hlater] at heach
      refine ⟨Nat.rec log fun offset _ => part offset, Nat.rec next fun offset _ => nextOf offset,
        Nat.rec visits fun offset _ => visitsTo offset, ?_, ?_, ?_, ?_, ?_⟩
      · rw [List.length_cons, List.range_succ_eq_map, List.flatMap_cons, List.flatMap_map]
        rfl
      · rw [List.length_cons, List.range_succ_eq_map, List.map_cons, List.map_map]
        rfl
      · rw [List.length_cons, List.length_cons, heach.width]
      · intro offset other own hother hown
        cases offset with
        | zero =>
            obtain rfl := Option.some.inj hother
            obtain rfl := Option.some.inj hown
            exact hadvances
        | succ offset => exact heach.advances offset other own hother hown
      · intro offset other own hother hown
        cases offset with
        | zero =>
            obtain rfl := Option.some.inj hother
            obtain rfl := Option.some.inj hown
            exact haccounts
        | succ offset => exact heach.accounts offset other own hother hown

/-- The visits to parallel children account for all of them together. -/
theorem Alongside.accounts {log : Log Journaled}
    (h : Alongside (Explained inlineCap) site 0 children effects log nexts)
    (hfits : (Action.par children status).Fits (.par effects)) :
    ∃ visits, Accounts inlineCap site (.par children status) (.par effects)
      (Journaled.asked log) (.afterChildren nexts) visits := by
  have hunfailed : ∀ effect ∈ effects, effect.failure? = none := fun effect heffect =>
    hfits.unfailed (.par heffect .here)
  obtain ⟨part, nextOf, visitsTo, rfl, rfl, heach⟩ := h.each (Sound.fits hfits).below_par hunfailed
  simp only [Nat.zero_add] at heach
  exact ⟨_, heach.par⟩

theorem not_active_completed {place : Path} {step : Step} {own : Effect} :
    ¬action.Active .completed place step own := by
  rintro ⟨hopen, status, hleads⟩
  cases hleads
  cases hopen

theorem not_active_empty (hempty : action.children? = some []) {place : Path} {step : Step}
    {own : Effect} : ¬action.Active .init place step own := by
  rintro ⟨-, status, hleads⟩
  cases hleads with
  | here => cases hempty
  | first => cases hempty
  | all hchild =>
      cases hempty
      cases hchild

/-- Every advance from what an action can come to can be explained. -/
theorem explained (inlineCap : Nat) : NodeCases inlineCap (Explained inlineCap) where
  ended site action failure snapshot h := by
    refine ⟨advances_ended site action failure snapshot, fun hunfailed => ⟨[], ?_⟩⟩
    rw [h.completed_of_isDone rfl hunfailed]
    exact accounts_nothing fun _ _ _ => not_active_completed
  misfit site action effect misfit hmisfit h := absurd h.admits hmisfit
  empty site action effect hempty hopen _ h := by
    obtain rfl := (h.fits_of_isOpen hopen).eq_init hempty
    exact ⟨advances_empty hempty, fun _ =>
      ⟨[], accounts_nothing fun _ _ _ => not_active_empty hempty⟩⟩
  opens site action log next hsome h _ := by
    have hopened := h (.fits (fits_opened hsome))
    cases action with
    | step step status => exact hopened.imp_right fun haccounts _ => haccounts rfl
    | seq children status =>
        obtain ⟨hadvances, haccounts⟩ := hopened
        obtain ⟨visits, haccounts⟩ := haccounts rfl
        exact ⟨hadvances, fun _ => ⟨visits, haccounts.opened (Option.some_ne_none _)⟩⟩
    | par children status =>
        obtain ⟨hadvances, haccounts⟩ := hopened
        obtain ⟨visits, haccounts⟩ := haccounts rfl
        rw [Advances, advance_opened] at hadvances
        exact ⟨hadvances, fun _ => ⟨visits, haccounts.opened (Option.some_ne_none _)⟩⟩
  execute site step status log next h _ := by
    refine ⟨h, fun _ => ?_⟩
    obtain ⟨inner, outer, result, rfl, hrelayed, hstart, rfl⟩ := Step.follows_execute h
    refine ⟨_, accounts_leaf rfl ?_⟩
    rw [List.cons_append, Journaled.asked, Journaled.asked_append,
      Journaled.asked_relayed hrelayed]
    exact (List.append_nil inner).symm ▸ Step.handles_start hstart
  recheck site step status condition log next h _ := by
    refine ⟨h, fun _ => ?_⟩
    obtain ⟨inner, outer, result, rfl, hrelayed, hcheck, rfl⟩ := Condition.follows_recheck h
    refine ⟨_, accounts_leaf rfl ?_⟩
    rw [Journaled.asked_append, Journaled.asked_relayed hrelayed]
    exact (List.append_nil inner).symm ▸ step.handles_check hcheck
  seq site children status index running child log next hrunning h hsound := by
    obtain ⟨hadvances, haccounts⟩ := h (hsound.below_seq hrunning)
    refine ⟨advances_seq hrunning hadvances, fun _ => ?_⟩
    have hunfailed : child.failure? = none :=
      (hsound.fits_of_isOpen rfl).unfailed (.seq .here)
    obtain ⟨visits, haccounts⟩ := haccounts hunfailed
    exact ⟨_, haccounts.seq hrunning⟩
  par site children status effects log nexts h hsound := by
    have hfits := hsound.fits_of_isOpen rfl
    refine ⟨advances_par ?_ (h.explained hsound.below_par), fun _ => h.accounts hfits⟩
    rintro rfl
    cases hfits.eq_init rfl

end Action

namespace Program

variable {program : Program} {effect : Effect}

/-- What an advance asks and comes to in a world is what its action does there. -/
theorem advances_run {σ : Type} (program : Program) (inlineCap : Nat) (effect : Effect)
    (world : World Outside σ) (outer : σ) :
    ∃ kept, program.action.Advances inlineCap ⟨program.id, []⟩ effect kept
        ((program.advance inlineCap effect).run world outer).value ∧
      (program.advance inlineCap effect).log world outer = Journaled.asked kept := by
  have hfollows : (program.advanceJournaled inlineCap effect).Follows
      ((program.advanceJournaled inlineCap effect).log world.noting outer)
      ((program.advanceJournaled inlineCap effect).run world.noting outer).value :=
    follows_run world.noting (program.advanceJournaled inlineCap effect) outer
  obtain ⟨kept, hlog, hadvance⟩ := follows_advance.1 hfollows
  refine ⟨kept, ?_, ?_⟩
  · rw [Program.advance, Journaled.run_silent]
    exact hadvance
  · rw [Program.advance, Journaled.log_silent, hlog]
    rfl

/-- Whatever is answered, every leaf that is active is visited, and a failure of any of them
ends the program with the first of their failures. -/
theorem Reached.failures_spread (h : program.Reached effect) (hopen : effect.isDone = false)
    {σ : Type} (inlineCap : Nat) (world : World Outside σ) (outer : σ) :
    ∃ visits, program.action.Accounts inlineCap ⟨program.id, []⟩ effect
      ((program.advance inlineCap effect).log world outer)
      ((program.advance inlineCap effect).run world outer).value visits := by
  obtain ⟨kept, hadvance, hlog⟩ := advances_run program inlineCap effect world outer
  obtain ⟨-, haccounts⟩ := (Action.explained inlineCap).holds _ hadvance h.sound
  have hunfailed : effect.failure? = none := (h.sound.fits_of_isOpen hopen).unfailed .here
  rw [hlog]
  exact haccounts hunfailed

theorem errand_sent : errand.Reached errandSent :=
  ((Reached.fresh.next ⟨(Queue.Host.granting 0).outside, (), 0⟩).next
    ⟨(Queue.Host.granting 0).outside, (), 0⟩).next ⟨(Queue.Host.granting 0).outside, (), 0⟩

/-- Every transaction is dropped. -/
def dropping : World Outside Unit where
  respond
    | .confirmations _ _, _ => (.ok .dropped, ())
    | query, _ => (Queue.grant 0 query, ())

/-- The payment of an errand is dropped while the message beside it has been shown. -/
theorem errand_failure_spreads :
    errand.Reached errandSent ∧ errandSent.isDone = false ∧
    ((errand.advance 0 errandSent).run dropping ()).value =
      .done (some ⟨.execution, "transaction tx was dropped"⟩)
        (some [.failed ⟨.execution, "transaction tx was dropped"⟩, .completed]) ∧
    ∃ visits, errand.action.Accounts 0 ⟨"errand", []⟩ errandSent
      ((errand.advance 0 errandSent).log dropping ())
      ((errand.advance 0 errandSent).run dropping ()).value visits :=
  ⟨errand_sent, rfl, rfl, errand_sent.failures_spread rfl 0 dropping ()⟩

end Program

end ProgramQueue
