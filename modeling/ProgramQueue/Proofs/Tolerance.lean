import ProgramQueue.Proofs.Codecs
import ProgramQueue.Proofs.Revisions
import ProgramQueue.Proofs.Spellings

/-!
# Older and extended records read the same

Every type of stored records and of messages is read alike before and after a value was revised.
Actions and effects are taken in whole before their kinds are known, and their children are
looked at afterwards, so the room that is left goes down with each node.
-/

namespace ProgramQueue
open Wire (Form Slot Family Revised Alike Overlooks Ignores Level Content Field Record Reader
  itemsOf whenGiven overlooks_plain)
open Wire.Field (obeys_required obeys_optional obeys_nullable obeys_defaulted obeys_sparse
  readNamed_raw readNamed_rawOptional)

variable {level : Level} {room : Nat} {kept : Bool} {json other : Json} {word : String}
  {slots : List (Slot Form)} {before after : List (String × Json)}

/-! ## Actions -/

namespace Action

theorem obeys_status : statusField.Obeys level (Slot.optional "status") :=
  obeys_optional (overlooks_plain _ _) _

theorem obeys_exchange : exchangeRecord.Obeys level Form.exchange :=
  ⟨obeys_required (overlooks_plain _ _) _, obeys_required (overlooks_plain _ _) _,
    obeys_optional (overlooks_plain _ _) _, obeys_required (overlooks_plain _ _) _, obeys_status,
    trivial⟩

theorem obeys_loan : loanRecord.Obeys level Form.loan :=
  ⟨obeys_required (overlooks_plain _ _) _, obeys_required (overlooks_plain _ _) _,
    obeys_optional (overlooks_plain _ _) _, obeys_required (overlooks_plain _ _) _,
    obeys_optional (overlooks_plain _ _) _, obeys_status, trivial⟩

theorem obeys_swap : swapRecord.Obeys level Form.swap :=
  ⟨obeys_required (overlooks_plain _ _) _, obeys_optional (overlooks_plain _ _) _,
    obeys_required (overlooks_plain _ _) _, obeys_optional (overlooks_plain _ _) _,
    obeys_required (overlooks_plain _ _) _, obeys_required (overlooks_plain _ _) _,
    obeys_optional (overlooks_plain _ _) _, obeys_status, trivial⟩

theorem obeys_broadcast : broadcastRecord.Obeys level Form.broadcast :=
  ⟨obeys_required (overlooks_plain _ _) _, obeys_required (overlooks_plain _ _) _,
    obeys_required (overlooks_plain _ _) _, obeys_status, trivial⟩

theorem obeys_toast : toastRecord.Obeys level Form.toast :=
  ⟨obeys_required (overlooks_plain _ _) _, obeys_status, trivial⟩

theorem obeys_delay : delayRecord.Obeys level Form.delay :=
  ⟨obeys_required (overlooks_plain _ _) _, obeys_status, trivial⟩

/-- A step is read alike from members that were revised. -/
theorem readStep_revised (hvariant : (word, slots) ∈ Form.steps) (halike : Alike slots before after)
    (hbefore : ∀ member ∈ before, member.2.isKeepable level.room = true)
    (hafter : ∀ member ∈ after, member.2.isKeepable level.room = true) :
    readStep level (.named after) word = readStep level (.named before) word := by
  have hread {α : Type} {record : Record α} (hobeys : record.Obeys level slots) :
      record.readContent level (.named after) = record.readContent level (.named before) :=
    Record.readNamed_revised hobeys halike hbefore hafter
  simp only [Form.steps, List.mem_cons, Prod.mk.injEq, List.not_mem_nil, or_false] at hvariant
  obtain ⟨rfl, rfl⟩ | ⟨rfl, rfl⟩ | ⟨rfl, rfl⟩ | ⟨rfl, rfl⟩ | ⟨rfl, rfl⟩ | ⟨rfl, rfl⟩ |
    ⟨rfl, rfl⟩ | ⟨rfl, rfl⟩ | ⟨rfl, rfl⟩ | ⟨rfl, rfl⟩ := hvariant
  · simp only [readStep, readExchange, hread obeys_exchange]
  · simp only [readStep, readExchange, hread obeys_exchange]
  · simp only [readStep, readLoan, hread obeys_loan]
  · simp only [readStep, readLoan, hread obeys_loan]
  · simp only [readStep, readLoan, hread obeys_loan]
  · simp only [readStep, readLoan, hread obeys_loan]
  · simp only [readStep, hread obeys_swap]
  · simp only [readStep, hread obeys_broadcast]
  · simp only [readStep, hread obeys_toast]
  · simp only [readStep, hread obeys_delay]

/-- The children of an inner node that are read along with it. -/
def childrenField (room : Nat) : Wire.Field (List Action) :=
  .required "actions" (fun _ => itemsOf (ofJsonAt room true)) fun _ => .null

/-- The children and the status of an inner node. -/
theorem ofJsonAt_node {make : List Action → Option Status → Action}
    (hmake : word = "seq" ∧ make = seq ∨ word = "par" ∧ make = par)
    {members : List (String × Json)}
    (htag : Wire.untag words ⟨room + 1, kept⟩ json = some (word, .named members)) :
    ofJsonAt (room + 1) kept json =
      ((Record.cons (childrenField room) (.cons statusField .nil)).readNamed
        (Level.within ⟨room + 1, kept⟩) members).map fun read => make read.1 read.2.1 := by
  rw [ofJsonAt, htag]
  obtain ⟨rfl, rfl⟩ | ⟨rfl, rfl⟩ := hmake
  all_goals
    simp only [Option.bind_eq_bind, Option.bind_some, Record.readContent, nodeRecord,
      Record.readNamed, childrenField]
    rw [← readNamed_raw]
    -- the status is read before the children are looked at, but neither depends on the other
    cases (Field.required "actions" .raw id).readNamed (Level.within ⟨room + 1, kept⟩) members with
    | none => rfl
    | some nodes =>
        cases statusField.readNamed (Level.within ⟨room + 1, kept⟩) members
        all_goals
          cases nodes with
          | arr items =>
              simp only [itemsOf, Option.pure_def, Option.bind_some]
              cases items.mapM (ofJsonAt room true) <;> rfl
          | _ => rfl

theorem ofJsonAt_word {content : Content} (hvariant : (word, slots) ∈ Form.steps)
    (htag : Wire.untag words ⟨room + 1, kept⟩ json = some (word, content)) :
    ofJsonAt (room + 1) kept json = readStep (Level.within ⟨room + 1, kept⟩) content word := by
  have hword : word ≠ "seq" ∧ word ≠ "par" := by
    have hnone : ∀ variant ∈ Form.steps, variant.1 ≠ "seq" ∧ variant.1 ≠ "par" := by decide
    exact hnone _ hvariant
  rw [ofJsonAt, htag]
  simp only [Option.bind_eq_bind, Option.bind_some]
  split
  · exact absurd rfl hword.1
  · exact absurd rfl hword.2
  · rfl

/-- An action is read alike before and after it was revised. -/
theorem overlooks_ofJsonAt (room : Nat) (kept : Bool) :
    Overlooks (ofJsonAt room kept) room (.tagged .action) := by
  induction room generalizing kept with
  | zero => exact fun _ _ _ _ _ => rfl
  | succ room ih =>
      intro json other hrevised hjson hother
      have hwords : ∀ variant ∈ Family.action.variants, variant.1 ∈ words := by decide
      have hjson' : json.isKeepable (Level.room ⟨room + 1, kept⟩) = true := hjson
      have hother' : other.isKeepable (Level.room ⟨room + 1, kept⟩) = true := hother
      obtain rfl | ⟨⟨word, slots⟩, hvariant, before, after, hgiven, hlater, halike, hbefore,
        hafter⟩ := Wire.untag_revised hwords hrevised hjson' hother'
      · rfl
      have hnode {make : List Action → Option Status → Action} (hslots : slots = Form.node)
          (hmake : word = "seq" ∧ make = seq ∨ word = "par" ∧ make = par) :
          ofJsonAt (room + 1) kept other = ofJsonAt (room + 1) kept json := by
        subst hslots
        have hchildren := ((ih true).mono (Nat.sub_le room 1)).itemsOf
        have hobeys : (Record.cons (childrenField room) (.cons statusField .nil)).Obeys
            (Level.within ⟨room + 1, kept⟩) Form.node :=
          ⟨obeys_required hchildren _, obeys_status, trivial⟩
        rw [ofJsonAt_node hmake hgiven, ofJsonAt_node hmake hlater,
          Record.readNamed_revised hobeys halike hbefore hafter]
      obtain heq | hvariant := List.mem_cons.1 hvariant
      · cases heq
        exact hnode rfl (Or.inl ⟨rfl, rfl⟩)
      obtain heq | hvariant := List.mem_cons.1 hvariant
      · cases heq
        exact hnode rfl (Or.inr ⟨rfl, rfl⟩)
      rw [ofJsonAt_word hvariant hgiven, ofJsonAt_word hvariant hlater]
      exact readStep_revised hvariant halike hbefore hafter

end Action

/-! ## Effects -/

theorem Failure.ignores : Ignores Failure.read Form.failure :=
  record.ignores_packed (fun _ => ⟨obeys_required (overlooks_plain _ _) _,
    obeys_required (overlooks_plain _ _) _, trivial⟩) (by decide) fun _ _ => rfl

namespace Condition

theorem obeys_addressBalance : addressBalanceRecord.Obeys level Form.addressBalance :=
  ⟨obeys_required (overlooks_plain _ _) _, obeys_required (overlooks_plain _ _) _,
    obeys_optional (overlooks_plain _ _) _, obeys_optional (overlooks_plain _ _) _,
    obeys_optional (overlooks_plain _ _) _, trivial⟩

theorem obeys_txConfs : txConfsRecord.Obeys level Form.txConfs :=
  ⟨obeys_required (overlooks_plain _ _) _, obeys_required (overlooks_plain _ _) _,
    obeys_required (overlooks_plain _ _) _, trivial⟩

theorem obeys_priceLevel : priceLevelRecord.Obeys level Form.priceLevel :=
  ⟨obeys_required (overlooks_plain _ _) _, obeys_optional (overlooks_plain _ _) _,
    obeys_optional (overlooks_plain _ _) _, trivial⟩

theorem obeys_unixtime : unixtimeRecord.Obeys level Form.unixtime :=
  ⟨obeys_required (overlooks_plain _ _) _, trivial⟩

/-- A condition is read alike from members that were revised. -/
theorem readContent_revised (hvariant : (word, slots) ∈ Form.conditions)
    (halike : Alike slots before after)
    (hbefore : ∀ member ∈ before, member.2.isKeepable level.room = true)
    (hafter : ∀ member ∈ after, member.2.isKeepable level.room = true) :
    readContent level (.named after) word = readContent level (.named before) word := by
  have hread {α : Type} {record : Record α} (hobeys : record.Obeys level slots) :
      record.readContent level (.named after) = record.readContent level (.named before) :=
    Record.readNamed_revised hobeys halike hbefore hafter
  simp only [Form.conditions, List.mem_cons, Prod.mk.injEq, List.not_mem_nil, or_false] at hvariant
  obtain ⟨rfl, rfl⟩ | ⟨rfl, rfl⟩ | ⟨rfl, rfl⟩ | ⟨rfl, rfl⟩ := hvariant
  · simp only [readContent, hread obeys_addressBalance]
  · simp only [readContent, hread obeys_txConfs]
  · simp only [readContent, hread obeys_priceLevel]
  · simp only [readContent, hread obeys_unixtime]

end Condition

namespace Effect

/-- The index of a running sequence. -/
def indexField : Wire.Field Nat := .required "opIndex" (.natBelow (Nat.pow 2 64)) Wire.nat

def childField (room : Nat) : Wire.Field Effect :=
  .required "childEffect" (fun _ => ofJsonAt room true) fun _ => .null

def childrenField (room : Nat) : Wire.Field (List Effect) :=
  .required "childEffects" (fun _ => itemsOf (ofJsonAt room true)) fun _ => .null

def failureField : Wire.Field (Option Failure) := .optional "error" Failure.read Failure.toJson

def snapshotField (room : Nat) : Wire.Field (Option (List Effect)) :=
  .optional "childEffects" (fun _ => itemsOf (ofJsonAt room true)) fun _ => .null

variable {members : List (String × Json)}

theorem ofJsonAt_seq
    (htag : Wire.untag words ⟨room + 1, kept⟩ json = some ("seq", .named members)) :
    ofJsonAt (room + 1) kept json =
      ((Record.cons indexField (.cons (childField room) .nil)).readNamed
        (Level.within ⟨room + 1, kept⟩) members).map fun read => seq read.1 read.2.1 := by
  rw [ofJsonAt, htag]
  simp only [Option.bind_eq_bind, Option.bind_some, Record.readContent, seqRecord,
    Record.readNamed, childField]
  rw [← readNamed_raw]
  change Option.bind (Option.bind (indexField.readNamed _ _) _) _ = _
  cases indexField.readNamed (Level.within ⟨room + 1, kept⟩) members with
  | none => rfl
  | some index =>
      cases (Field.required "childEffect" .raw id).readNamed (Level.within ⟨room + 1, kept⟩)
        members with
      | none => rfl
      | some child =>
          simp only [Option.pure_def, Option.bind_some]
          cases ofJsonAt room true child <;> rfl

theorem ofJsonAt_par
    (htag : Wire.untag words ⟨room + 1, kept⟩ json = some ("par", .named members)) :
    ofJsonAt (room + 1) kept json =
      ((Record.cons (childrenField room) .nil).readNamed
        (Level.within ⟨room + 1, kept⟩) members).map fun read => par read.1 := by
  rw [ofJsonAt, htag]
  simp only [Option.bind_eq_bind, Option.bind_some, Record.readContent, parRecord,
    Record.readNamed, childrenField]
  rw [← readNamed_raw]
  cases (Field.required "childEffects" .raw id).readNamed (Level.within ⟨room + 1, kept⟩)
    members with
  | none => rfl
  | some nodes =>
      cases nodes with
      | arr items =>
          simp only [itemsOf, Option.pure_def, Option.bind_some]
          cases items.mapM (ofJsonAt room true) <;> rfl
      | _ => rfl

theorem ofJsonAt_done
    (htag : Wire.untag words ⟨room + 1, kept⟩ json = some ("done", .named members)) :
    ofJsonAt (room + 1) kept json =
      ((Record.cons failureField (.cons (snapshotField room) .nil)).readNamed
        (Level.within ⟨room + 1, kept⟩) members).map fun read => done read.1 read.2.1 := by
  rw [ofJsonAt, htag]
  simp only [Option.bind_eq_bind, Option.bind_some, Record.readContent, doneRecord,
    Record.readNamed, snapshotField]
  rw [← readNamed_rawOptional]
  change Option.bind (Option.bind (failureField.readNamed _ _) _) _ = _
  cases failureField.readNamed (Level.within ⟨room + 1, kept⟩) members with
  | none => rfl
  | some failure =>
      cases (Field.optional "childEffects" .raw id).readNamed (Level.within ⟨room + 1, kept⟩)
        members with
      | none => rfl
      | some snapshot =>
          cases snapshot with
          | none => rfl
          | some nodes =>
              cases nodes with
              | arr items =>
                  simp only [itemsOf, whenGiven, Option.pure_def, Option.bind_some]
                  cases items.mapM (ofJsonAt room true) <;> rfl
              | _ => rfl

theorem ofJsonAt_word {content : Content} (hvariant : (word, slots) ∈ Form.conditions)
    (htag : Wire.untag words ⟨room + 1, kept⟩ json = some (word, content)) :
    ofJsonAt (room + 1) kept json =
      (Condition.readContent (Level.within ⟨room + 1, kept⟩) content word).map await := by
  simp only [Form.conditions, List.mem_cons, Prod.mk.injEq, List.not_mem_nil, or_false] at hvariant
  obtain ⟨rfl, rfl⟩ | ⟨rfl, rfl⟩ | ⟨rfl, rfl⟩ | ⟨rfl, rfl⟩ := hvariant
  all_goals
    rw [ofJsonAt, htag]
    rfl

/-- An effect is read alike before and after it was revised. -/
theorem overlooks_ofJsonAt (room : Nat) (kept : Bool) :
    Overlooks (ofJsonAt room kept) room (.tagged .effect) := by
  induction room generalizing kept with
  | zero => exact fun _ _ _ _ _ => rfl
  | succ room ih =>
      intro json other hrevised hjson hother
      have hwords : ∀ variant ∈ Family.effect.variants, variant.1 ∈ words := by decide
      have hjson' : json.isKeepable (Level.room ⟨room + 1, kept⟩) = true := hjson
      have hother' : other.isKeepable (Level.room ⟨room + 1, kept⟩) = true := hother
      obtain rfl | ⟨⟨word, slots⟩, hvariant, before, after, hgiven, hlater, halike, hbefore,
        hafter⟩ := Wire.untag_revised hwords hrevised hjson' hother'
      · rfl
      have hchild : Overlooks (ofJsonAt room true) room (.tagged .effect) := ih true
      have hchildren := (hchild.mono (Nat.sub_le room 1)).itemsOf
      obtain heq | hvariant := List.mem_cons.1 hvariant
      · cases heq
        have hobeys : (Record.cons indexField (.cons (childField room) .nil)).Obeys
            (Level.within ⟨room + 1, kept⟩) Form.sequence :=
          ⟨obeys_required (overlooks_plain _ _) _, obeys_required hchild _, trivial⟩
        rw [ofJsonAt_seq hgiven, ofJsonAt_seq hlater,
          Record.readNamed_revised hobeys halike hbefore hafter]
      obtain heq | hvariant := List.mem_cons.1 hvariant
      · cases heq
        have hobeys : (Record.cons (childrenField room) .nil).Obeys
            (Level.within ⟨room + 1, kept⟩) Form.parallel :=
          ⟨obeys_required hchildren _, trivial⟩
        rw [ofJsonAt_par hgiven, ofJsonAt_par hlater,
          Record.readNamed_revised hobeys halike hbefore hafter]
      obtain heq | hvariant := List.mem_cons.1 hvariant
      · cases heq
        rw [ofJsonAt, ofJsonAt, hgiven, hlater]
        rfl
      obtain heq | hvariant := List.mem_cons.1 hvariant
      · cases heq
        have hobeys : (Record.cons failureField (.cons (snapshotField room) .nil)).Obeys
            (Level.within ⟨room + 1, kept⟩) Form.done :=
          ⟨obeys_optional (Failure.ignores _) _, obeys_optional hchildren _, trivial⟩
        rw [ofJsonAt_done hgiven, ofJsonAt_done hlater,
          Record.readNamed_revised hobeys halike hbefore hafter]
      · rw [ofJsonAt_word hvariant hgiven, ofJsonAt_word hvariant hlater,
          Condition.readContent_revised hvariant halike hbefore hafter]

end Effect

/-! ## Stored records -/

theorem Action.ignores : Ignores Action.read (.tagged .action) := fun level =>
  Action.overlooks_ofJsonAt level.room level.kept

theorem Effect.ignores : Ignores Effect.read (.tagged .effect) := fun level =>
  Effect.overlooks_ofJsonAt level.room level.kept

theorem CompleteMessage.ignores : Ignores CompleteMessage.read Form.completeMessage :=
  record.ignores_packed (fun _ => ⟨obeys_required (overlooks_plain _ _) _,
    obeys_required (overlooks_plain _ _) _, trivial⟩) (by decide) fun _ _ => rfl

theorem Program.ignores : Ignores Program.read Form.program :=
  record.ignores_packed (fun _ => ⟨obeys_required (overlooks_plain _ _) _,
    obeys_required (Action.ignores _) _, obeys_optional (CompleteMessage.ignores _) _, trivial⟩)
    (by decide) fun _ _ => rfl

theorem State.ignores : Ignores State.read Form.state :=
  record.ignores_packed (fun _ => ⟨obeys_required (overlooks_plain _ _) _,
    obeys_optional (Effect.ignores _) _, obeys_defaulted (overlooks_plain _ _) Wire.list_nil _,
    obeys_defaulted (overlooks_plain _ _) (fun _ => rfl) _,
    obeys_defaulted (overlooks_plain _ _) (fun _ => rfl) _, trivial⟩)
    (by decide) fun _ _ => rfl

theorem Item.ignores : Ignores Item.read Form.item :=
  record.ignores_packed (fun _ => ⟨obeys_required (Program.ignores _) _,
    obeys_required (State.ignores _) _, trivial⟩) (by decide) fun _ _ => rfl

theorem ExecutionResult.ignores : Ignores ExecutionResult.read Form.result := by
  refine record.ignores_packed (fun _ => ⟨obeys_required (Effect.ignores _) _,
    obeys_optional (Action.ignores _) _, ⟨rfl, overlooks_plain _ _, nofun, ?_⟩, trivial⟩)
    (by decide) fun _ _ => rfl
  rintro _ ⟨⟩ _
  rfl

theorem LoanRequest.ignores : Ignores LoanRequest.read Form.loanRequest :=
  record.ignores_packed (fun _ => ⟨obeys_required (overlooks_plain _ _) _,
    obeys_required (overlooks_plain _ _) _, obeys_required (overlooks_plain _ _) _,
    obeys_nullable (overlooks_plain _ _) _, obeys_required (overlooks_plain _ _) _,
    obeys_nullable (overlooks_plain _ _) _, trivial⟩) (by decide) fun _ _ => rfl

/-! ## Messages to the push server -/

namespace Push

namespace Trigger

theorem obeys_addressBalance : addressBalanceRecord.Obeys level Form.addressTrigger :=
  ⟨obeys_required (overlooks_plain _ _) _, obeys_optional (overlooks_plain _ _) _,
    obeys_required (overlooks_plain _ _) _, obeys_optional (overlooks_plain _ _) _,
    obeys_optional (overlooks_plain _ _) _, trivial⟩

theorem obeys_priceLevel : priceLevelRecord.Obeys level Form.priceLevel :=
  ⟨obeys_required (overlooks_plain _ _) _, obeys_optional (overlooks_plain _ _) _,
    obeys_optional (overlooks_plain _ _) _, trivial⟩

theorem obeys_txConfirm : txConfirmRecord.Obeys level Form.txConfirm :=
  ⟨obeys_required (overlooks_plain _ _) _, obeys_required (overlooks_plain _ _) _,
    obeys_required (overlooks_plain _ _) _, trivial⟩

theorem obeys_priceChange : priceChangeRecord.Obeys level Form.priceChange :=
  ⟨obeys_required (overlooks_plain _ _) _, obeys_optional (overlooks_plain _ _) _,
    obeys_optional (overlooks_plain _ _) _, obeys_optional (overlooks_plain _ _) _,
    obeys_required (overlooks_plain _ _) _, trivial⟩

theorem readContent_revised (hvariant : (word, slots) ∈ Form.triggers)
    (halike : Alike slots before after)
    (hbefore : ∀ member ∈ before, member.2.isKeepable level.room = true)
    (hafter : ∀ member ∈ after, member.2.isKeepable level.room = true) :
    readContent level (.named after) word = readContent level (.named before) word := by
  have hread {α : Type} {record : Record α} (hobeys : record.Obeys level slots) :
      record.readContent level (.named after) = record.readContent level (.named before) :=
    Record.readNamed_revised hobeys halike hbefore hafter
  simp only [Form.triggers, List.mem_cons, Prod.mk.injEq, List.not_mem_nil, or_false] at hvariant
  obtain ⟨rfl, rfl⟩ | ⟨rfl, rfl⟩ | ⟨rfl, rfl⟩ | ⟨rfl, rfl⟩ := hvariant
  · simp only [readContent, hread obeys_addressBalance]
  · simp only [readContent, hread obeys_priceLevel]
  · simp only [readContent, hread obeys_txConfirm]
  · simp only [readContent, hread obeys_priceChange]

theorem ignores : Ignores read (.tagged .trigger) := by
  intro level json other hrevised hjson hother
  have hwords : ∀ variant ∈ Family.trigger.variants, variant.1 ∈ words := by decide
  obtain rfl | ⟨⟨word, slots⟩, hvariant, before, after, hgiven, hlater, halike, hbefore,
    hafter⟩ := Wire.untag_revised hwords hrevised hjson hother
  · rfl
  · rw [read, read, hgiven, hlater]
    exact readContent_revised hvariant halike hbefore hafter

end Trigger

theorem BroadcastTx.ignores : Ignores BroadcastTx.read Form.broadcastTx :=
  record.ignores_packed (fun _ => ⟨obeys_required (overlooks_plain _ _) _,
    obeys_required (overlooks_plain _ _) _, trivial⟩) (by decide) fun _ _ => rfl

theorem Event.ignores : Ignores Event.read Form.event :=
  record.ignores_packed (fun _ => ⟨obeys_required (overlooks_plain _ _) _,
    obeys_required (Trigger.ignores _) _, obeys_required (overlooks_plain _ _) _,
    obeys_optional (overlooks_plain _ _) _, obeys_optional (overlooks_plain _ _) _,
    obeys_sparse (BroadcastTx.ignores.list _) _, trivial⟩) (by decide) fun _ _ => rfl

theorem EventStatus.ignores : Ignores EventStatus.read Form.eventStatus :=
  record.ignores_packed (fun _ => ⟨obeys_required (overlooks_plain _ _) _,
    obeys_defaulted (overlooks_plain _ _) (fun h => if_pos h) _,
    obeys_required (overlooks_plain _ _) _, obeys_optional (overlooks_plain _ _) _, trivial⟩)
    (by decide) fun _ _ => rfl

theorem DeviceUpdate.ignores : Ignores DeviceUpdate.read Form.deviceUpdate :=
  record.ignores_packed (fun _ => ⟨obeys_required (overlooks_plain _ _) _,
    obeys_required (Event.ignores.list _) _, obeys_required (overlooks_plain _ _) _, trivial⟩)
    (by decide) fun _ _ => rfl

theorem LoginUpdate.ignores : Ignores LoginUpdate.read Form.loginUpdate :=
  record.ignores_packed (fun _ => ⟨obeys_required (Event.ignores.list _) _,
    obeys_sparse (overlooks_plain _ _) _, trivial⟩) (by decide) fun _ _ => rfl

theorem Device.ignores : Ignores Device.read Form.device :=
  record.ignores_packed (fun _ => ⟨obeys_defaulted (overlooks_plain _ _) Wire.list_nil _,
    obeys_defaulted (EventStatus.ignores.list _) Wire.list_nil _,
    obeys_defaulted (overlooks_plain _ _) (fun _ => rfl) _,
    obeys_defaulted (overlooks_plain _ _) (fun _ => rfl) _, trivial⟩) (by decide) fun _ _ => rfl

theorem Login.ignores : Ignores Login.read Form.login :=
  record.ignores_packed (fun _ => ⟨obeys_defaulted (EventStatus.ignores.list _) Wire.list_nil _,
    trivial⟩) (by decide) fun _ _ => rfl

end Push

/-! ## All types -/

namespace Kind

def form : Kind → Form
  | action => .tagged .action
  | effect => .tagged .effect
  | program => .program
  | state => .state
  | item => .item
  | result => .result
  | loanRequest => .loanRequest
  | broadcastTx => .broadcastTx
  | trigger => .tagged .trigger
  | event => .event
  | eventStatus => .eventStatus
  | deviceUpdate => .deviceUpdate
  | loginUpdate => .loginUpdate
  | device => .device
  | login => .login

theorem ignores : ∀ kind : Kind, Ignores kind.read kind.form
  | action => Action.ignores
  | effect => Effect.ignores
  | program => Program.ignores
  | state => State.ignores
  | item => Item.ignores
  | result => ExecutionResult.ignores
  | loanRequest => LoanRequest.ignores
  | broadcastTx => Push.BroadcastTx.ignores
  | trigger => Push.Trigger.ignores
  | event => Push.Event.ignores
  | eventStatus => Push.EventStatus.ignores
  | deviceUpdate => Push.DeviceUpdate.ignores
  | loginUpdate => Push.LoginUpdate.ignores
  | device => Push.Device.ignores
  | login => Push.Login.ignores

/-- However the tree of a value without doubles was revised, and however the text of the revision
was put together, it denotes what the text of the value denotes.  That is the value, unless a
null is to be sent along with an event, which no text tells from its absence. -/
theorem revised_decodes (kind : Kind) {value : kind.Value} {json : Json} {chars : List Char}
    (hexact : (kind.toJson value).Throughout Json.IsExact)
    (hdepth : (kind.toJson value).depth ≤ 127)
    (hrevised : Revised kind.form (kind.toJson value) json) (hroom : json.depth ≤ 127)
    (hspelled : json.Spells chars) :
    kind.decode? (String.ofList chars) = kind.decode? (kind.encode value) ∧
      (kind.IsRegular value → kind.decode? (String.ofList chars) = some value) := by
  have hreadable : (kind.toJson value).isReadable = true := by
    rw [Json.isReadable_iff]
    exact hexact.denoting
  have hread : kind.read .whole json = kind.read .whole (kind.toJson value) :=
    kind.ignores .whole hrevised (Wire.isKeepable_iff.2 ⟨hdepth, hreadable⟩)
      (Wire.isKeepable_iff.2 ⟨hroom, hrevised.readable hreadable⟩)
  rw [decode?, decode?, encode, Json.parse_spelled hspelled, Json.parse_compact hexact,
    Option.bind_some, Option.bind_some, hread]
  refine ⟨rfl, fun hregular => ?_⟩
  exact kind.lawful.returns hregular .whole hexact.denoting hdepth

/-- A state of two parallel children, of which the second is over. -/
def halfway : State := ⟨"p1", some (.par [.init, .done none none]), [], never, never⟩

/-- Its effect, with a tag that something follows, one that was moved, and an error that is
null. -/
def halfwayEffect : Json :=
  .obj [("childEffects", .arr [.obj [("type", .str "init"), ("by", .null)],
      .obj [("error", .null), ("type", .str "done")]]),
    ("type", .str "par")]

theorem halfwayEffect_revised :
    Revised (.tagged .effect) (Effect.toJson (.par [.init, .done none none])) halfwayEffect := by
  have hinit : Revised (.tagged .effect) (Wire.tagged "init" [])
      (.obj [("type", .str "init"), ("by", .null)]) := by
    refine .tagged (.tail _ (.tail _ (.head _))) .nil (.refl _) ?_
    simp [Wire.Unknown, Wire.tagName, Json.isReadable]
  have hdone : Revised (.tagged .effect) (Wire.tagged "done" [])
      (.obj [("error", .null), ("type", .str "done")]) := by
    have hkept : Wire.RevisedMembers Form.done [] [("error", .null)] := .asNull rfl (.absent .nil)
    exact .tagged (.tail _ (.tail _ (.tail _ (.head _)))) hkept (.swap _ _ _)
      (List.forall_mem_nil _)
  have hchildren : Wire.RevisedItems (.tagged .effect) _ _ := .cons hinit (.cons hdone (.nil _))
  have hkept : Wire.RevisedMembers Form.parallel [("childEffects", .arr _)]
      [("childEffects", .arr _)] := .kept (.list hchildren) .nil
  exact .tagged (.tail _ (.head _)) hkept (.swap _ _ _) (List.forall_mem_nil _)

/-- The state with a note in front, and with none of what is usual. -/
def halfwayState : Json :=
  .obj [("note", .arr [.bool true, .str "A"]), ("effect", halfwayEffect),
    ("programId", .str "p1")]

/-- A text of it, with blanks and an escape in the note. -/
def halfwayText : List Char :=
  '\x7b' :: (Json.quoted "note" ++ ':' :: ('[' :: (" true".toList ++ ',' ::
    (" \"\\u0041\" ".toList ++ [']'])) ++
    Json.compactMembers [("effect", halfwayEffect), ("programId", .str "p1")]))

theorem halfwayState_spelled : halfwayState.Spells halfwayText := by
  have htrue : Json.Spells (.bool true) " true".toList := .whole rfl
  have hletter : Json.Spells (.str "A") " \"\\u0041\" ".toList := .whole rfl
  have heffect : halfwayEffect.Throughout Json.IsExact := by simp [halfwayEffect]
  exact .obj (.arr htrue (.cons hletter .nil)) (.cons (Json.spells_compact heffect)
    (.cons (Json.spells_compact (Wire.exact_str "p1")) .nil))

theorem halfwayState_revised : Revised (form state) (toJson state halfway) halfwayState := by
  have hjson : toJson state halfway = .obj [("programId", .str "p1"),
      ("effect", Effect.toJson (.par [.init, .done none none])), ("pushEventIds", .arr []),
      ("lastExecutionTime", .int never.toInt), ("nextExecutionTime", .int never.toInt)] := rfl
  have horder := List.reverse_perm [("programId", Json.str "p1"), ("effect", halfwayEffect),
    ("note", Json.arr [.bool true, .str "A"])]
  rw [hjson]
  refine .record (.kept (.same _ _) (.kept halfwayEffect_revised (.leftOut rfl (.leftOut rfl
    (.leftOut rfl .nil))))) horder ?_
  simp [Wire.Unknown, Slot.required, Slot.spared, Json.isReadable, Json.allReadable]

/-- The state is read from the text. -/
theorem halfway_decodes : state.decode? (String.ofList halfwayText) = some halfway := by
  have hregular : state.IsRegular halfway := by
    rintro effect ⟨⟩
    exact .par (List.forall_mem_cons.2 ⟨.init, List.forall_mem_singleton.2 (.done nofun)⟩)
  have hfloatless : state.IsFloatless halfway := by
    rintro effect ⟨⟩
    exact .par (List.forall_mem_cons.2 ⟨.init, List.forall_mem_singleton.2 (.done nofun)⟩)
  have hexact := state.lawful.exact hregular hfloatless
  exact (state.revised_decodes hexact (by decide) halfwayState_revised (by decide)
    halfwayState_spelled).2 hregular

end Kind

end ProgramQueue
