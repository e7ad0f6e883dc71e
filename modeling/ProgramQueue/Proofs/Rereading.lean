import ProgramQueue.Proofs.Numerals
import ProgramQueue.Proofs.Readability
import ProgramQueue.Proofs.Tolerance

/-!
# Records as texts

A record is written as a text, and the text is read again.  The tree of the text is that of the
record, but for the rates, which stand there as their own texts are read, or as null.  So what
is read is the record with its rates as their texts are read, if the text does not nest too
deep, and nothing otherwise: just what the store gives back.
-/

namespace ProgramQueue

open Wire (Level Field Reader Revised RevisedMembers RevisedItems tagged)

/-! ## Trees -/

namespace Json

mutual

/-- The tree that is read from the text of a tree. -/
def transcribed : Json → Json
  | .float rate => ofOption (rate.transcribed.map .float)
  | .arr items => .arr (transcribedItems items)
  | .obj members => .obj (transcribedMembers members)
  | json => json

def transcribedItems : List Json → List Json
  | [] => []
  | item :: rest => transcribed item :: transcribedItems rest

def transcribedMembers : List (String × Json) → List (String × Json)
  | [] => []
  | (name, value) :: rest => (name, transcribed value) :: transcribedMembers rest

end

variable {json : Json}

theorem transcribedItems_eq (items : List Json) :
    transcribedItems items = items.map transcribed := by
  induction items with
  | nil => rfl
  | cons item rest ih => rw [transcribedItems, ih, List.map_cons]

theorem transcribedMembers_eq (members : List (String × Json)) :
    transcribedMembers members = members.map fun member => (member.1, member.2.transcribed) := by
  induction members with
  | nil => rfl
  | cons member rest ih => rw [transcribedMembers, ih, List.map_cons]

/-- A tree without doubles is read from its text as it is. -/
theorem transcribed_of_floatless (h : json.Throughout IsFloatless) : json.transcribed = json := by
  induction h with
  | @scalar json hflat h =>
      cases json with
      | float => exact h.elim
      | arr => simp [depth] at hflat
      | obj => simp [depth] at hflat
      | _ => rfl
  | arr _ ih =>
      rw [transcribed, transcribedItems_eq, List.map_congr_left ih, List.map_id']
  | obj _ ih =>
      have hmember {member : String × Json} (h : member.2.transcribed = member.2) :
          (member.1, member.2.transcribed) = member := Prod.ext rfl h
      rw [transcribed, transcribedMembers_eq,
        List.map_congr_left fun member h => hmember (ih member h), List.map_id']

mutual

theorem depth_transcribed : (json : Json) → json.transcribed.depth = json.depth
  | .float rate => by cases h : rate.transcribed <;> simp [transcribed, h, ofOption, depth]
  | .arr items => by rw [transcribed, depth, depth, depth_transcribedItems items]
  | .obj members => by rw [transcribed, depth, depth, depth_transcribedMembers members]
  | .null | .bool _ | .int _ | .str _ | .unreadable => rfl

theorem depth_transcribedItems : (items : List Json) →
    depthOfItems (transcribedItems items) = depthOfItems items
  | [] => rfl
  | item :: rest => by
      rw [transcribedItems, depthOfItems, depthOfItems, depth_transcribed item,
        depth_transcribedItems rest]

theorem depth_transcribedMembers : (members : List (String × Json)) →
    depthOfMembers (transcribedMembers members) = depthOfMembers members
  | [] => rfl
  | (name, value) :: rest => by
      rw [transcribedMembers, depthOfMembers, depthOfMembers, depth_transcribed value,
        depth_transcribedMembers rest]

end

/-! ## Texts of trees -/

/-- The text of a rate is read as a rate, or as null. -/
theorem spells_float (rate : Double) :
    Spells (transcribed (.float rate)) (numberLayout.text rate) := by
  cases hfinite : rate.isFinite with
  | true =>
      obtain ⟨read, hread⟩ := Double.number_text hfinite
      obtain ⟨first, tail, htext, hblank, hfirst⟩ := number_first hread
      have htranscribed : rate.transcribed = some read := by
        rw [Double.transcribed, hread]
      rw [transcribed, htranscribed]
      refine .whole ?_
      rw [ofChars?]
      rw [htext] at hread ⊢
      rw [value_number hblank hfirst, hread]
      rfl
  | false =>
      have htext : numberLayout.text rate = ['n', 'u', 'l', 'l'] := by
        rw [Decimal.Layout.text, hfinite]
        cases rate.isNaN <;> cases rate.isNegative <;> rfl
      have htranscribed : rate.transcribed = none := by
        rw [Double.transcribed, htext]
        rfl
      rw [transcribed, htranscribed, htext]
      exact .whole rfl

theorem spellsItems_transcribed {items : List Json}
    (h : ∀ item ∈ items, item.transcribed.Spells item.compactChars) :
    SpellsItems (transcribedItems items) (compactItems items) := by
  induction items with
  | nil => exact .nil
  | cons item rest ih =>
      obtain ⟨hfirst, hrest⟩ := List.forall_mem_cons.1 h
      exact .cons hfirst (ih hrest)

theorem spellsMembers_transcribed {members : List (String × Json)}
    (h : ∀ member ∈ members, member.2.transcribed.Spells member.2.compactChars) :
    SpellsMembers (transcribedMembers members) (compactMembers members) := by
  induction members with
  | nil => exact .nil
  | cons member rest ih =>
      obtain ⟨hfirst, hrest⟩ := List.forall_mem_cons.1 h
      exact .cons hfirst (ih hrest)

theorem spells_transcribed (h : json.Throughout IsLegible) :
    json.transcribed.Spells json.compactChars := by
  induction h with
  | @scalar json hflat h =>
      cases json with
      | float rate => exact spells_float rate
      | arr => simp [depth] at hflat
      | obj => simp [depth] at hflat
      | _ => exact spells_compact (.scalar rfl ⟨h.sized, trivial, h.denoting⟩)
  | @arr items _ ih =>
      cases items with
      | nil => exact .whole rfl
      | cons item rest =>
          obtain ⟨hfirst, hrest⟩ := List.forall_mem_cons.1 ih
          exact .arr hfirst (spellsItems_transcribed hrest)
  | @obj members _ ih =>
      cases members with
      | nil => exact .whole rfl
      | cons member rest =>
          obtain ⟨hfirst, hrest⟩ := List.forall_mem_cons.1 ih
          exact .obj hfirst (spellsMembers_transcribed hrest)

theorem parse_transcribed (h : json.Throughout IsLegible) :
    parse? json.compact = some json.transcribed :=
  parse_spelled (spells_transcribed h)

end Json

/-! ## Trees of records -/

section

variable {slots : List (Wire.Slot Wire.Form)} {members kept : List (String × Json)}

/-- The member of a rate as it is read from its text: one that does not come back is null there,
while no member would be written of it. -/
theorem Condition.revised_rate {α : Type} {tail : Wire.Record α} {values : α} (name : String)
    (rate : Option Double) (h : RevisedMembers slots (tail.members values) kept) :
    RevisedMembers (.optional name :: slots)
      ((Wire.Record.cons (.optional name .double .float) tail).members
        (rate.bind Double.transcribed, values))
      ((rate.map fun rate => (name, Json.transcribed (.float rate))).toList ++ kept) := by
  cases rate with
  | none => exact .absent h
  | some rate =>
      simp only [Option.map_some, Option.toList_some, Json.transcribed, Option.bind_some]
      cases rate.transcribed with
      | none =>
          have hoptional : (Wire.Slot.optional name).presence = .optional := rfl
          exact .asNull hoptional h
      | some read =>
          have hsame : Revised (Wire.Slot.optional name).form (.float read) (.float read) :=
            .same _ _
          exact .kept hsame h

theorem Wire.Revised.of_tagged {family : Wire.Family} {word : String}
    (hvariant : (word, slots) ∈ family.variants) (hkept : RevisedMembers slots members kept) :
    Revised (.tagged family) (Wire.tagged word members) (Wire.tagged word kept) := by
  have hadded : Wire.Unknown (Wire.tagName :: slots.map Wire.Slot.name) [] :=
    List.forall_mem_nil _
  exact .tagged hvariant hkept (by rw [List.append_nil]) hadded

theorem Wire.Revised.of_record (hkept : RevisedMembers slots members kept) :
    Revised (.record slots) (.obj members) (.obj kept) := by
  have hadded : Wire.Unknown (slots.map Wire.Slot.name) [] := List.forall_mem_nil _
  exact .record hkept (by rw [List.append_nil]) hadded

end

theorem Condition.revised_transcribed (condition : Condition) :
    Revised (.tagged .effect)
      (tagged condition.transcribed.typeName condition.transcribed.members)
      (tagged condition.typeName condition.members).transcribed := by
  cases condition with
  | priceLevel pair above below =>
      have hnone : RevisedMembers [] (Wire.Record.nil.members ()) [] := .nil
      have hpair : Revised (Wire.Slot.required "currencyPair").form (.str pair) (.str pair) :=
        .same _ _
      have hkept : RevisedMembers Wire.Form.priceLevel _ _ :=
        .kept hpair (revised_rate "aboveRate" above (revised_rate "belowRate" below hnone))
      have hread : (tagged "price-level" (priceLevel pair above below).members).transcribed =
          tagged "price-level" (("currencyPair", .str pair) ::
            ((above.map fun rate => ("aboveRate", Json.transcribed (.float rate))).toList ++
              ((below.map fun rate => ("belowRate", Json.transcribed (.float rate))).toList ++
                []))) := by
        cases above <;> cases below <;> rfl
      have hvariant : ("price-level", Wire.Form.priceLevel) ∈ Wire.Family.effect.variants := by
        simp [Wire.Family.variants, Wire.Form.effects, Wire.Form.conditions]
      rw [typeName, hread]
      exact .of_tagged hvariant hkept
  | addressBalance | txConfs | unixtime =>
      rw [Json.transcribed_of_floatless]
      · exact .same _ _
      · refine (Condition.exact ?_).imp fun _ hexact => hexact.floatless
        trivial

namespace Effect

theorem revisedItems_transcribed {children : List Effect}
    (h : ∀ child ∈ children,
      Revised (.tagged .effect) child.transcribed.toJson child.toJson.transcribed) :
    RevisedItems (.tagged .effect) (listToJson (transcribedList children))
      (Json.transcribedItems (listToJson children)) := by
  induction children with
  | nil => exact .nil _
  | cons child rest ih =>
      obtain ⟨hfirst, hrest⟩ := List.forall_mem_cons.1 h
      exact .cons hfirst (ih hrest)

/-- An effect's tree as it is read from its text is a revision of the tree of the effect with its
rates as their texts are read. -/
theorem revised_transcribed {effect : Effect} (h : effect.IsIndexed) :
    Revised (.tagged .effect) effect.transcribed.toJson effect.toJson.transcribed := by
  induction h with
  | @seq index child _ _ ih =>
      have hkept : RevisedMembers Wire.Form.sequence
          (seqRecord.members (index, child.transcribed.toJson, ()))
          (seqRecord.members (index, child.toJson.transcribed, ())) :=
        .kept (.same _ _) (.kept ih .nil)
      exact .of_tagged (.head _) hkept
  | @par children _ ih =>
      have hkept : RevisedMembers Wire.Form.parallel
          (parRecord.members (.arr (listToJson (transcribedList children)), ()))
          (parRecord.members (.arr (Json.transcribedItems (listToJson children)), ())) :=
        .kept (.list (revisedItems_transcribed ih)) .nil
      exact .of_tagged (.tail _ (.head _)) hkept
  | @await condition => exact condition.revised_transcribed
  | init => exact .same _ _
  | @done failure snapshot _ ih =>
      have hdone {given kept : List (String × Json)}
          (hkept : RevisedMembers Wire.Form.done given kept) :
          Revised (.tagged .effect) (tagged "done" given) (tagged "done" kept) :=
        .of_tagged (.tail _ (.tail _ (.tail _ (.head _)))) hkept
      cases snapshot with
      | none => cases failure <;> exact .same _ _
      | some branches =>
          have hbranches := Revised.list (revisedItems_transcribed (ih branches rfl))
          cases failure with
          | none => exact hdone (.absent (.kept hbranches .nil))
          | some failure => exact hdone (.kept (.same _ _) (.kept hbranches .nil))

theorem IsIndexed.transcribed {effect : Effect} (h : effect.IsIndexed) :
    effect.transcribed.IsIndexed := by
  induction h with
  | seq hindex _ ih => exact .seq hindex ih
  | par _ ih =>
      rw [transcribed_par]
      exact .par (List.forall_mem_map.2 ih)
  | await => exact .await trivial
  | init => exact .init
  | done _ ih =>
      rw [transcribed_done]
      refine .done fun _ hbranches => ?_
      obtain ⟨branches, heq, rfl⟩ := Option.map_eq_some_iff.1 hbranches
      exact List.forall_mem_map.2 (ih branches heq)

end Effect

namespace State

variable {state : State}

theorem IsRegular.transcribed (h : state.IsRegular) : state.transcribed.IsRegular := by
  intro effect heffect
  obtain ⟨given, hgiven, rfl⟩ := Option.map_eq_some_iff.1 heffect
  exact (h given hgiven).transcribed

theorem legible (h : state.IsRegular) : state.toJson.Throughout Json.IsLegible := by
  obtain ⟨id, effect, ids, last, next⟩ := state
  have hids := (Wire.exact_strs ids).imp fun _ hexact => hexact.legible
  have htime (time : Int64) := (Wire.exact_int64 time).imp fun _ hexact => hexact.legible
  have hid : (Json.str id).Throughout Json.IsLegible := .scalar rfl ⟨trivial, trivial⟩
  have heffect : ∀ given ∈ effect, given.toJson.Throughout Json.IsLegible :=
    fun given hgiven => Effect.legible (h given hgiven)
  rw [toJson, Wire.Record.throughout_write]
  simp_all [record, timeField]

theorem revised_transcribed (h : state.IsRegular) :
    Revised Wire.Form.state state.transcribed.toJson state.toJson.transcribed := by
  obtain ⟨id, effect, ids, last, next⟩ := state
  have hids : Revised (Wire.Slot.spared "pushEventIds" (.arr [])).form (Wire.strs ids)
      (Wire.strs ids).transcribed := by
    rw [Json.transcribed_of_floatless ((Wire.exact_strs ids).imp fun _ hexact => hexact.floatless)]
    exact .same _ _
  cases effect with
  | none =>
      exact .of_record (.kept (.same _ _) (.absent (.kept hids (.kept (.same _ _)
        (.kept (.same _ _) .nil)))))
  | some effect =>
      have heffect := Effect.revised_transcribed (h effect rfl)
      exact .of_record (.kept (.same _ _) (.kept heffect (.kept hids (.kept (.same _ _)
        (.kept (.same _ _) .nil)))))

end State

/-- The tree of a program is read only where there is room for its action. -/
theorem Program.depth_le_of_read {program found : Program} {level : Level}
    (hkept : level.kept = false) (h : read level program.toJson.transcribed = some found) :
    program.action.toJson.depth ≤ level.inner.room := by
  obtain ⟨_, hrecord, -⟩ := Option.bind_eq_some_iff.1 h
  rw [toJson, Wire.Record.write, Json.transcribed, Json.transcribedMembers_eq] at hrecord
  obtain ⟨-, haction, -⟩ := record.reads_of_read (by decide) hrecord
  obtain ⟨action, hread⟩ := Field.writes_required.1 haction
  exact program.action.toJson.depth_transcribed ▸ Action.depth_le_room hkept hread

/-- The tree of a state is read only where there is room for its effect. -/
theorem State.depth_le_of_read {state found : State} {level : Level}
    (hkept : level.kept = false) (hroom : 1 ≤ level.inner.room)
    (h : read level state.toJson.transcribed = some found) :
    state.current.toJson.depth ≤ level.inner.room := by
  obtain ⟨_, hrecord, -⟩ := Option.bind_eq_some_iff.1 h
  rw [toJson, Wire.Record.write, Json.transcribed, Json.transcribedMembers_eq] at hrecord
  obtain ⟨-, heffect, -⟩ := record.reads_of_read (by decide) hrecord
  rw [current]
  cases hstate : state.effect with
  | none => exact hroom
  | some effect =>
      obtain ⟨_, hread⟩ := Field.writes_optional.1 heffect effect hstate
      have hnull : effect.toJson.transcribed ≠ .null := fun hnull =>
        Nat.ne_of_gt effect.depth_pos (effect.toJson.depth_transcribed ▸ hnull ▸ rfl)
      change Reader.nullable Effect.read level.inner effect.toJson.transcribed = _ at hread
      rw [Wire.nullable_of_ne hnull] at hread
      obtain ⟨other, hother, -⟩ := Option.map_eq_some_iff.1 hread
      exact effect.toJson.depth_transcribed ▸ Effect.depth_le_room hkept hother

namespace Item

variable {item found : Item}

theorem legible (h : item.state.IsRegular) : item.toJson.Throughout Json.IsLegible := by
  have hexact : item.program.toJson.Throughout Json.IsExact := Program.lawful.exact trivial trivial
  have hprogram := hexact.imp fun _ hexact => hexact.legible
  have hstate := State.legible h
  rw [toJson, Wire.Record.throughout_write]
  simp_all [record]

theorem revised_transcribed (h : item.state.IsRegular) :
    Revised Wire.Form.item item.transcribed.toJson item.toJson.transcribed := by
  have hprogram :
      Revised Wire.Form.program item.program.toJson item.program.toJson.transcribed := by
    have hexact : item.program.toJson.Throughout Json.IsExact :=
      Program.lawful.exact trivial trivial
    rw [Json.transcribed_of_floatless (hexact.imp fun _ hexact => hexact.floatless)]
    exact .same _ _
  exact .of_record (.kept hprogram (.kept (State.revised_transcribed h) .nil))

/-- The tree of a record is read from its text only if the record is not too deep. -/
theorem isReadable_of_read (h : read .whole item.toJson.transcribed = some found) :
    item.isReadable = true := by
  obtain ⟨_, hrecord, -⟩ := Option.bind_eq_some_iff.1 h
  rw [toJson, Wire.Record.write, Json.transcribed, Json.transcribedMembers_eq] at hrecord
  obtain ⟨hprogram, hstate, -⟩ := record.reads_of_read (by decide) hrecord
  obtain ⟨program, hprogram⟩ := Field.writes_required.1 hprogram
  obtain ⟨state, hstate⟩ := Field.writes_required.1 hstate
  exact item.isReadable_iff.2
    ⟨Program.depth_le_of_read rfl hprogram, State.depth_le_of_read rfl (by decide) hstate⟩

/-- What is read from the tree of a text, where there is room for it. -/
theorem read_transcribed (hregular : item.state.IsRegular) (hreadable : item.isReadable = true) :
    read .whole item.toJson.transcribed = some item.transcribed := by
  have hregular' : item.transcribed.state.IsRegular := hregular.transcribed
  have hdenoting : item.transcribed.toJson.Throughout Json.IsDenoting :=
    (legible hregular').imp fun _ h => h.denoting
  have hdepth : item.toJson.depth ≤ Level.whole.room := of_decide_eq_true hreadable
  have hroom : item.transcribed.toJson.depth ≤ Level.whole.room :=
    of_decide_eq_true (item.isReadable_transcribed.trans hreadable)
  have hkeepable := (Json.isReadable_iff _).2 hdenoting
  have hrevised := revised_transcribed hregular
  rw [Item.ignores .whole hrevised (Wire.isKeepable_iff.2 ⟨hroom, hkeepable⟩)
    (Wire.isKeepable_iff.2 ⟨?_, hrevised.readable hkeepable⟩)]
  · exact lawful.returns hregular' .whole hdenoting hroom
  · exact item.toJson.depth_transcribed.trans_le hdepth

/-- The store gives a record back as it is read from its text. -/
theorem reread_iff_decode (hregular : item.state.IsRegular) :
    item.reread = .ok found ↔ Kind.item.decode? (Kind.item.encode item) = some found := by
  have hdecode : Kind.item.decode? (Kind.item.encode item) =
      read .whole item.toJson.transcribed := by
    exact (congrArg (·.bind (read .whole)) (Json.parse_transcribed (legible hregular))).trans rfl
  rw [hdecode]
  obtain ⟨hreadable, heq⟩ | ⟨hunreadable, e, heq⟩ := item.reread_cases
  · rw [heq, read_transcribed hregular hreadable, Except.ok.injEq, Option.some.injEq]
  · rw [heq]
    refine iff_of_false nofun fun h => ?_
    cases hunreadable.symm.trans (isReadable_of_read h)

theorem decode_of_readable (hregular : item.state.IsRegular) (hreadable : item.isReadable = true) :
    Kind.item.decode? (Kind.item.encode item) = some item.transcribed :=
  (reread_iff_decode hregular).1 (if_pos hreadable)

/-- A message, with a state that waits for a rate with sixteen digits.  Each time it is read from
its text, the rate has another last digit. -/
def priced : Item where
  program := ⟨"p1", .step (.toast "sold") none, none⟩
  state := { State.fresh "p1" with
    effect := some (.await (.priceLevel "BTC" (some ⟨4468205648523514317⟩) none)) }

end Item

end ProgramQueue
