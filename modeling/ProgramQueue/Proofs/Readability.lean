import ProgramQueue.Proofs.Depths
import ProgramQueue.Proofs.Lifetimes

/-!
# What can be read back

Nothing is checked when a record is written.  A record that could be read before an
operation can be read after it, unless the action of its program is as deep as a record
has room for and the program has failed.  A new program that is deeper than that is
stored all the same, and can never be read.
-/

namespace ProgramQueue

namespace Item

/-- The most levels that the action and the effect in a record may have. -/
def deepest : Nat := Wire.Level.whole.room - 2

/-- A record can be read if neither its action nor its effect is too deep. -/
theorem isReadable_iff (item : Item) :
    item.isReadable = true ↔ item.program.action.toJson.depth ≤ deepest ∧
      item.state.current.toJson.depth ≤ deepest := by
  rw [isReadable, decide_eq_true_iff, depth_eq, deepest]
  constructor
  · intro h
    omega
  · rintro ⟨haction, heffect⟩
    have hroom : Wire.Level.whole.room = 127 := rfl
    omega

/-- Whether a record can be read depends on its program and on what it waits for. -/
theorem isReadable_congr {item other : Item} (hprogram : other.program = item.program)
    (hcurrent : other.state.current = item.state.current) :
    other.isReadable = item.isReadable := by
  rw [Bool.eq_iff_iff, isReadable_iff, isReadable_iff, hprogram, hcurrent]

/-- The program has failed, and what was written of the failure is one level too deep. -/
structure Overflows (item : Item) : Prop where
  action : item.program.action.toJson.depth = deepest
  failed : item.state.current.failure?.isSome = true
  effect : item.state.current.toJson.depth = deepest + 1

/-- The record was not too deep from the start, and it does not overflow. -/
structure Fits (item : Item) : Prop where
  action : item.program.action.toJson.depth ≤ deepest
  sound : ¬item.Overflows

/-- The record can be read, or it was too deep from the start, or it overflows. -/
def Accounted (item : Item) : Prop :=
  item.isReadable = true ∨ deepest < item.program.action.toJson.depth ∨ item.Overflows

theorem Accounted.isReadable_iff {item : Item} (h : item.Accounted) :
    item.isReadable = true ↔ item.Fits := by
  constructor
  · intro hreadable
    obtain ⟨haction, heffect⟩ := item.isReadable_iff.1 hreadable
    refine ⟨haction, fun hoverflows => ?_⟩
    have hdeep := hoverflows.effect
    omega
  · rintro ⟨haction, hsound⟩
    obtain hreadable | hdeep | hoverflows := h
    · exact hreadable
    · omega
    · exact absurd hoverflows hsound

/-- Whether a record can be read depends on its action and its effect only. -/
theorem Accounted.congr {item other : Item} (h : item.Accounted)
    (hprogram : other.program = item.program)
    (heffect : other.state.current = item.state.current) : other.Accounted := by
  rw [Accounted, item.isReadable_iff] at h
  rw [Accounted, other.isReadable_iff, hprogram, heffect]
  refine h.imp_right (Or.imp_right fun hoverflows => ?_)
  exact ⟨hprogram ▸ hoverflows.action, heffect ▸ hoverflows.failed, heffect ▸ hoverflows.effect⟩

theorem fresh_accounted (program : Program) : (fresh program).Accounted := by
  rw [Accounted, isReadable_iff]
  have hinit : (fresh program).state.current.toJson.depth = 1 := rfl
  have hroom : deepest = 125 := rfl
  by_cases hdeep : deepest < (fresh program).program.action.toJson.depth
  · exact Or.inr (Or.inl hdeep)
  · exact Or.inl ⟨by omega, by omega⟩

theorem settled_current (item : Item) {first later : State} (h : later.effect = first.effect) :
    (item.settled first later).state.current = first.current := by
  unfold settled
  split
  · exact congrArg (·.getD .init) h
  · rfl

end Item

namespace Queue

variable {terms : Terms} {settings : Settings} {before after store : Store}
  {log : Log Surroundings} {id : String} {item later : Item}

/-- A program that is driven comes to an effect that can be stored, unless it fails at the
full depth. -/
theorem Drives.accounted {fired : Option String} {state final : State}
    (h : Drives settings id fired item log state) (hreadable : item.isReadable = true)
    (heffect : final.effect = state.effect) : (item.settled state final).Accounted := by
  obtain @⟨inner, outer, driven, now, hkept, hdrives⟩ := h
  obtain ⟨-, hdepth⟩ := ((Program.nestsOn _ _).holds hdrives).1
  rw [spendEvent_current] at hdepth
  obtain ⟨haction, hbefore⟩ := item.isReadable_iff.1 hreadable
  have hcurrent := item.settled_current heffect
  have hprogram := item.settled_program { driven with lastRun := now } final
  have hdriven : ({ driven with lastRun := now } : State).current = driven.current := rfl
  rw [hdriven] at hcurrent
  rw [Item.Accounted, Item.isReadable_iff, hcurrent, hprogram]
  by_cases hroom : driven.current.toJson.depth ≤ Item.deepest
  · exact Or.inl ⟨haction, hroom⟩
  · have hmargin := driven.current.margin_le
    have hfailed : driven.current.failure?.isSome = true := by
      by_contra hnone
      have hopen := Effect.margin_of_open (by simpa using hnone)
      omega
    refine Or.inr (Or.inr ⟨?_, ?_, ?_⟩)
    · rw [hprogram]
      omega
    · rw [hcurrent]
      exact hfailed
    · rw [hcurrent]
      omega

/-- A program that is terminated can be stored. -/
theorem Terminates.accounted {failure : Failure} (h : Terminates id failure before log after)
    (hfound : after.items.find? id = some later) : later.Accounted := by
  obtain ⟨-, hreadable, -, rfl, -, hputs⟩ := h
  obtain rfl := Option.some.inj (hputs.self.symm.trans hfound)
  have hdepth := Effect.depth_failed failure
  refine Or.inl ((Item.isReadable_iff _).2 ⟨?_, ?_⟩)
  · rw [Item.settled_program]
    exact ((Item.isReadable_iff _).1 hreadable).1
  · unfold Item.settled
    split <;> exact Nat.le_trans (Nat.le_of_eq hdepth) (by decide)

theorem Deed.accounted (h : Deed terms id before log after)
    (hfound : after.items.find? id = some later) : later.Accounted := by
  have hstored {next : Item} {middle : Store} (hputs : Store.Puts id next middle after)
      (hnext : next.Accounted) : later.Accounted := by
    obtain rfl := Option.some.inj (hputs.self.symm.trans hfound)
    exact hnext
  cases h with
  | insert answer hnone hunused hputs => exact hstored hputs (Item.fresh_accounted _)
  | run owner hsettings hfired hran hsame =>
      obtain ⟨answer, -, hreadable, -, hdrives, hsettles, hputs⟩ := hran
      have hreread := (Item.isReadable_transcribed _).trans hreadable
      exact hstored (hputs.same hsame) (hdrives.accounted hreread hsettles.state.2)
  | terminate hterminates => exact hterminates.accounted hfound
  | record answer hrecording hother hreadable hopen hputs =>
      refine hstored hputs ?_
      have hbefore : Item.Accounted _ := Or.inl ((Item.isReadable_transcribed _).trans hreadable)
      exact hbefore.congr rfl rfl
  | remove answer hother hdone hdrops =>
      rw [hdrops.items, if_pos rfl] at hfound
      cases hfound

theorem Moves.accounted (hfiled : before.Filed) (h : Moves terms before log after)
    (hbefore : ∀ item, before.items.find? id = some item → item.Accounted) :
    ∀ later, after.items.find? id = some later → later.Accounted := by
  induction h with
  | nil => exact hbefore
  | cons move _ ih =>
      refine ih (move.filed hfiled) fun item hitem => ?_
      obtain hforeign | hdeed := move.foreign_or_deed hfiled id
      · exact hbefore item (hforeign.found.symm.trans hitem)
      · exact hdeed.accounted hitem

/-! ## Reading back -/

/-- Where a program could be looked up or was not stored, it can be looked up after any
operation that leaves it stored, unless it is too deep or overflows. -/
theorem Turn.get_iff_fits (turn : Turn) (hfiled : store.Filed)
    (hbefore : ∀ e, store.get id ≠ .error e)
    (hfound : (turn.after store).items.find? id = some later) :
    (turn.after store).get id = .ok (some later.transcribed) ↔ later.Fits := by
  have haccounted : ∀ item, store.items.find? id = some item → item.Accounted := by
    intro item hitem
    obtain ⟨hreadable, -⟩ | ⟨-, e, herror⟩ := item.reread_cases
    · exact Or.inl hreadable
    · refine absurd ?_ (hbefore e)
      simp [Store.get_eq, hitem, herror, Except.map]
  rw [Store.get_iff hfound]
  exact ((turn.moves_free hfiled).accounted hfiled haccounted later hfound).isReadable_iff

/-- What is inserted can be looked up if its action is not too deep. -/
theorem insert_get_iff {program : Program} (h : (store.insert program).1 = .ok item) :
    (store.insert program).2.get program.id = .ok (some item) ↔
      program.action.toJson.depth ≤ Item.deepest := by
  obtain ⟨-, -, hresult, hputs⟩ | ⟨-, hrefused⟩ := store.insert_cases program
  · obtain rfl := Except.ok.inj (h.symm.trans hresult)
    refine (Store.get_iff hputs.self).trans ((Item.fresh_accounted program).isReadable_iff.trans ?_)
    refine ⟨Item.Fits.action, fun haction => ⟨haction, fun hoverflows => ?_⟩⟩
    cases hoverflows.failed
  · rw [hrefused] at h
    cases h

/-- What is written can be read back if it fits: what is inserted, what is scheduled, and
whatever could be looked up or listed before an operation. -/
theorem reads_back_iff_fits (hfiled : store.Filed) :
    (∀ program item, (store.insert program).1 = .ok item →
      ((store.insert program).2.get program.id = .ok (some item) ↔
        program.action.toJson.depth ≤ Item.deepest)) ∧
    (∀ (turn : Turn) program item, turn.command = .schedule program →
      (store.insert program).1 = .ok item →
      ∃ later, (turn.after store).items.find? program.id = some later ∧
        later.program = program ∧
        ((turn.after store).get program.id = .ok (some later) ↔ later.Fits)) ∧
    (∀ (turn : Turn) id item, store.get id = .ok (some item) →
      (turn.after store).items.find? id = none ∨
      ∃ later, (turn.after store).items.find? id = some later ∧
        later.program = item.program ∧
        ((turn.after store).get id = .ok (some later.transcribed) ↔ later.Fits)) ∧
    ∀ (turn : Turn) entries, store.list = .ok entries →
      ((∃ listed, (turn.after store).list = .ok listed) ↔
        ∀ entry ∈ (turn.after store).items.entries, entry.2.Fits) := by
  refine ⟨fun program item => insert_get_iff, fun turn program item hcommand hinsert => ?_,
    fun turn id item hget => ?_, fun turn entries hlist => ?_⟩
  · obtain ⟨later, hfound, hprogram⟩ := turn.schedule_stores hcommand hfiled hinsert
    obtain ⟨hnone, -⟩ | ⟨-, hrefused⟩ := store.insert_cases program
    · have hunread : store.get program.id = .ok none := by rw [Store.get_eq, hnone]
      -- nothing was stored under the id, so what is stored now holds no rate
      have hintact := (turn.moves_free hfiled).intact hfiled fun item hitem =>
        absurd (hnone.symm.trans hitem) nofun
      refine ⟨later, hfound, hprogram, ?_⟩
      have hget := turn.get_iff_fits hfiled (fun e herror => ?_) hfound
      · rwa [hintact later hfound] at hget
      · cases hunread.symm.trans herror
    · cases (congrArg Prod.fst hrefused).symm.trans hinsert
  · obtain ⟨stored, hstored, -, rfl⟩ := Store.get_some hget
    cases turn.stands hfiled hstored with
    | deleted hnone => exact Or.inl hnone
    | stored later hfound hprogram =>
        refine Or.inr ⟨later, hfound, hprogram, turn.get_iff_fits hfiled (fun e herror => ?_) hfound⟩
        cases herror.symm.trans hget
  · have hreadable := Store.list_iff.1 ⟨entries, hlist⟩
    have haccounted : ∀ id item, (turn.after store).items.find? id = some item →
        item.Accounted := fun id => (turn.moves_free hfiled).accounted hfiled fun item hitem =>
      Or.inl (hreadable (id, item) (Table.mem_of_find? hitem))
    rw [Store.list_iff]
    refine forall₂_congr fun entry hentry => ?_
    exact (haccounted entry.1 entry.2 (Table.find?_of_mem hentry)).isReadable_iff

/-! ## At the full depth -/

/-- An action inside so many parallel nodes. -/
def inside : Nat → Action → Action
  | 0, action => action
  | levels + 1, action => .par [inside levels action] none

theorem inside_depth (levels : Nat) (action : Action) :
    (inside levels action).toJson.depth = 2 * levels + action.toJson.depth := by
  induction levels with
  | zero => exact (Nat.zero_add _).symm
  | succ levels ih =>
      rw [inside, Action.depth_par, Action.listToJson, Action.listToJson, Json.depthOfItems,
        Json.depthOfItems, ih]
      omega

/-- A loan that nobody grants, inside so many parallel nodes. -/
def loanInside (levels : Nat) : Program :=
  ⟨"loan", inside levels (.step (.loan .borrow ⟨"engine", "wallet", none, "1", none⟩) none), none⟩

/-- Where there is a level to spare, the failure of the loan can be read back. -/
theorem loan_read_back : Store.Filed .empty ∧ ∃ later,
    ((Turn.granted 1000 9 (.schedule (loanInside 61))).after .empty).get "loan" =
      .ok (some later) := by
  obtain ⟨later, -, hprogram, hget⟩ := (reads_back_iff_fits .empty).2.1
    (Turn.granted 1000 9 (.schedule (loanInside 61))) (loanInside 61) _ rfl rfl
  have hdepth : later.program.action.toJson.depth = 123 := by
    rw [hprogram]
    exact inside_depth 61 _
  refine ⟨.empty, later, hget.2 ⟨?_, fun hoverflows => ?_⟩⟩
  · rw [hdepth]
    decide
  · have haction := hoverflows.action
    rw [hdepth] at haction
    cases haction

/-- A store in which the loan stands at the full depth. -/
def loanStore : Store := (Store.empty.insert (loanInside 62)).2

/-- The same store after the loan was run. -/
def failedStore : Store := (Turn.granted 1000 9 (.run "loan")).after loanStore

/-- A program without steps that is one level too deep. -/
def tooDeep : Program := ⟨"deep", inside 62 (.seq [] none), none⟩

/-- A program is accepted that cannot be looked up; and one that can be looked up and
listed is run and fails, after which it can neither be looked up nor listed. -/
theorem loan_not_read_back :
    (∃ item, (Store.empty.insert tooDeep).1 = .ok item) ∧
    (∀ found, (Store.empty.insert tooDeep).2.get tooDeep.id ≠ .ok found) ∧
    (∃ item, loanStore.get "loan" = .ok (some item)) ∧ (∃ entries, loanStore.list = .ok entries) ∧
    (∃ later, failedStore.items.find? "loan" = some later) ∧
    (∀ found, failedStore.get "loan" ≠ .ok found) ∧ ∀ entries, failedStore.list ≠ .ok entries := by
  have hdeep : (Item.fresh tooDeep).isReadable = false := by decide +kernel
  have hloan : (Item.fresh (loanInside 62)).isReadable = true := by decide +kernel
  have hfailed : (failedStore.items.find? "loan").map Item.isReadable = some false := by
    decide +kernel
  obtain ⟨later, hfound, hunreadable⟩ := Option.map_eq_some_iff.1 hfailed
  refine ⟨⟨_, rfl⟩, Store.get_ne_ok rfl hdeep, ⟨_, (Store.get_iff rfl).2 hloan⟩, ?_, ⟨later, hfound⟩,
    Store.get_ne_ok hfound hunreadable, fun entries hlist => ?_⟩
  · exact Store.list_iff.2 (List.forall_mem_singleton.2 hloan)
  · have hreadable := Store.list_iff.1 ⟨entries, hlist⟩ _ (Table.mem_of_find? hfound)
    cases hunreadable.symm.trans hreadable

end Queue

end ProgramQueue
