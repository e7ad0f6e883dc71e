import ProgramQueue.Proofs.Fields

/-!
# Laws of readers and writers

A type is lawful if its values are read back from what is written of them, and if what was
read from a text can be written again within the levels that a text may have.  The laws
of scalars, lists, fields and records are composed as these are.
-/

namespace ProgramQueue

open Json (Throughout IsExact IsSized IsDenoting IsFloatless)

/-- A free-form value as it is kept: in normal form, its numbers in range. -/
structure Json.IsKept (json : Json) : Prop where
  normal : json.normal = json
  sized : json.Throughout IsSized
  denoting : json.Throughout IsDenoting

namespace Wire

variable {α β : Type} {read : Reader α} {write : α → Json} {regular floatless : α → Prop}
  {least : Nat} {name : String} {level : Level} {json : Json} {value : α}

/-- What is written of regular values is read back, and only such values are read.  A list
that was left out may add levels to what there was room for, up to the least number. -/
structure Lawful (read : Reader α) (write : α → Json) (regular floatless : α → Prop)
    (least : Nat) : Prop where
  exact {value : α} (hregular : regular value) (hfloatless : floatless value) :
    (write value).Throughout IsExact
  returns {value : α} (hregular : regular value) : Returns read write value
  gains {level : Level} {json : Json} {value : α} (hkept : level.kept = false)
    (hsized : json.Throughout IsSized) (hread : read level json = some value) :
    regular value ∧ (write value).depth ≤ max level.room least

namespace Lawful

theorem mono {more : Nat} (h : Lawful read write regular floatless least) (hle : least ≤ more) :
    Lawful read write regular floatless more where
  exact := h.exact
  returns := h.returns
  gains hkept hsized hread := by
    obtain ⟨hregular, hdepth⟩ := h.gains hkept hsized hread
    exact ⟨hregular, by omega⟩

/-! ## Scalars and lists -/

/-- A type of scalars that are all read back. -/
theorem flat (hexact : ∀ value, (write value).Throughout IsExact)
    (hreturns : ∀ value, Returns read write value) (hflat : ∀ value, (write value).depth = 0) :
    Lawful read write (fun _ => True) (fun _ => True) 0 where
  exact _ _ := hexact _
  returns _ := hreturns _
  gains _ _ _ := ⟨trivial, (hflat _).trans_le (Nat.zero_le _)⟩

theorem str : Lawful .str .str (fun _ => True) (fun _ => True) 0 :=
  flat exact_str returns_str fun _ => rfl

theorem bool : Lawful .bool .bool (fun _ => True) (fun _ => True) 0 :=
  flat exact_bool returns_bool fun _ => rfl

theorem int64 : Lawful .int64 (fun n => .int n.toInt) (fun _ => True) (fun _ => True) 0 :=
  flat exact_int64 returns_int64 fun _ => rfl

theorem bytes : Lawful .bytes Wire.bytes (fun _ => True) (fun _ => True) 0 :=
  flat exact_bytes returns_bytes fun _ => rfl

theorem word {ofWord? : String → Option α} {word : α → String}
    (h : ∀ value, ofWord? (word value) = some value) :
    Lawful (.word ofWord?) (fun value => .str (word value)) (fun _ => True) (fun _ => True) 0 :=
  flat (fun _ => exact_str _) (fun value => returns_word (h value)) fun _ => rfl

theorem ne_null_of_freeForm {kept : Json} (hread : Reader.freeForm level json = some kept)
    (hnull : json ≠ .null) : kept ≠ .null := by
  unfold Reader.freeForm at hread
  split at hread
  · cases hread
    cases json with
    | null => exact absurd rfl hnull
    | _ => nofun
  · cases hread

theorem freeForm : Lawful .freeForm id Json.IsKept (·.Throughout IsFloatless) 0 where
  exact hkept hfloatless :=
    ((hkept.sized.and hfloatless).and hkept.denoting).imp fun _ h => ⟨h.1.1, h.1.2, h.2⟩
  returns hkept := returns_freeForm hkept.normal
  gains _ hsized hread := by
    unfold Reader.freeForm at hread
    split at hread
    · rename_i hkeepable
      cases hread
      rw [Json.isKeepable, Bool.and_eq_true, decide_eq_true_eq, Json.isReadable_iff] at hkeepable
      obtain ⟨hroom, hdenoting⟩ := hkeepable
      refine ⟨⟨Json.normal_normal _, hsized.normal, hdenoting.normal⟩, ?_⟩
      exact (Json.depth_normal _).trans (hroom.trans (Nat.le_max_left _ _))
    · cases hread

theorem nullable (h : Lawful read write regular floatless least)
    (hnull : ∀ value, write value ≠ .null) :
    Lawful read.nullable (fun value => Json.ofOption (value.map write))
      (fun value => ∀ given ∈ value, regular given) (fun value => ∀ given ∈ value, floatless given)
      least where
  exact {value} hregular hfloatless := by
    cases value with
    | none => exact exact_null
    | some given => exact h.exact (hregular given rfl) (hfloatless given rfl)
  returns hregular :=
    returns_nullable (fun given hgiven => h.returns (hregular given hgiven))
      fun given _ => hnull given
  gains {level json value} hkept hsized hread := by
    cases value with
    | none => exact ⟨fun _ => nofun, Nat.zero_le _⟩
    | some given =>
        obtain ⟨hregular, hdepth⟩ :=
          h.gains hkept hsized (Field.Gains.of_nullable hread given rfl).2
        refine ⟨fun other hother => ?_, hdepth⟩
        obtain rfl := Option.some.inj hother
        exact hregular

theorem list (h : Lawful read write regular floatless least) :
    Lawful (.list read) (fun values => .arr (values.map write))
      (fun values => ∀ value ∈ values, regular value)
      (fun values => ∀ value ∈ values, floatless value) (least + 1) where
  exact hregular hfloatless := Json.throughout_arr.2 <| List.forall_mem_map.2 fun value hvalue =>
    h.exact (hregular value hvalue) (hfloatless value hvalue)
  returns hregular := returns_list fun value hvalue => h.returns (hregular value hvalue)
  gains {level json values} hkept hsized hread := by
    obtain ⟨hroom, hitems⟩ := gains_list hread hsized
    have hvalue (value : α) (hvalue : value ∈ values) :
        regular value ∧ (write value).depth ≤ max level.inner.room least := by
      obtain ⟨item, hitem, hread⟩ := hitems value hvalue
      exact h.gains hkept hitem hread
    have hdepth : Json.depthOfItems (values.map write) ≤ max (level.room - 1) least :=
      Json.depthOfItems_le.2 (List.forall_mem_map.2 fun value hmember => (hvalue value hmember).2)
    refine ⟨fun value hmember => (hvalue value hmember).1, ?_⟩
    rw [Json.depth]
    omega

end Lawful

/-! ## Fields -/

/-- The law of a field; a value may also be its usual one. -/
structure Field.Lawful (field : Field α) (regular floatless : α → Prop) (least : Nat) :
    Prop where
  exact {value : α} (hregular : regular value) (hfloatless : floatless value) :
    field.Writes (·.Throughout IsExact) value
  returns (level : Level) {value : α} (hregular : regular value) : field.Returns level value
  gains {level : Level} {value : α} (hkept : level.kept = false)
    (hgains : field.Gains (·.Throughout IsSized) level value) :
    regular value ∧ field.Writes (·.depth ≤ max level.room least) value

namespace Field.Lawful

theorem required (h : Wire.Lawful read write regular floatless least) :
    (Field.required name read write).Lawful regular floatless least where
  exact hregular hfloatless := writes_required.2 (h.exact hregular hfloatless)
  returns level _ hregular := returns_required (h.returns hregular) level
  gains hkept hgains := by
    obtain ⟨json, hsized, hread⟩ := hgains.of_required
    obtain ⟨hregular, hdepth⟩ := h.gains hkept hsized hread
    exact ⟨hregular, writes_required.2 hdepth⟩

theorem optional (h : Wire.Lawful read write regular floatless least)
    (hnull : ∀ value, write value ≠ .null) :
    (Field.optional name read write).Lawful (fun value => ∀ given ∈ value, regular given)
      (fun value => ∀ given ∈ value, floatless given) least where
  exact hregular hfloatless := writes_optional.2 fun given hgiven =>
    h.exact (hregular given hgiven) (hfloatless given hgiven)
  returns level _ hregular :=
    returns_optional (fun given hgiven => h.returns (hregular given hgiven))
      (fun given _ => hnull given) level
  gains {level value} hkept hgains := by
    have hgiven (given : α) (hgiven : given ∈ value) :
        regular given ∧ (write given).depth ≤ max level.room least := by
      obtain ⟨json, hsized, -, hread⟩ := hgains.of_optional given hgiven
      exact h.gains hkept hsized hread
    exact ⟨fun given hmember => (hgiven given hmember).1,
      writes_optional.2 fun given hmember => (hgiven given hmember).2⟩

/-- Of a free-form value that may be left out, null cannot be told from its absence. -/
theorem optionalFreeForm : (Field.optional name .freeForm id).Lawful
    (fun value => ∀ json ∈ value, json.IsKept ∧ json ≠ .null)
    (fun value => ∀ json ∈ value, json.Throughout IsFloatless) 0 where
  exact hregular hfloatless := writes_optional.2 fun json hjson =>
    Wire.Lawful.freeForm.exact (hregular json hjson).1 (hfloatless json hjson)
  returns level _ hregular :=
    returns_optional (fun json hjson => Wire.Lawful.freeForm.returns (hregular json hjson).1)
      (fun json hjson => (hregular json hjson).2) level
  gains {level value} hkept hgains := by
    have hgiven (given : Json) (hgiven : given ∈ value) :
        (given.IsKept ∧ given ≠ .null) ∧ given.depth ≤ max level.room 0 := by
      obtain ⟨json, hsized, hnull, hread⟩ := hgains.of_optional given hgiven
      obtain ⟨hregular, hdepth⟩ := Wire.Lawful.freeForm.gains hkept hsized hread
      exact ⟨⟨hregular, Wire.Lawful.ne_null_of_freeForm hread hnull⟩, hdepth⟩
    exact ⟨fun given hmember => (hgiven given hmember).1,
      writes_optional.2 fun given hmember => (hgiven given hmember).2⟩

theorem nullable (h : Wire.Lawful read write regular floatless least)
    (hnull : ∀ value, write value ≠ .null) :
    (Field.nullable name read write).Lawful (fun value => ∀ given ∈ value, regular given)
      (fun value => ∀ given ∈ value, floatless given) least where
  exact hregular hfloatless := writes_nullable.2 ((h.nullable hnull).exact hregular hfloatless)
  returns level _ hregular :=
    returns_nullable (fun given hgiven => h.returns (hregular given hgiven))
      (fun given _ => hnull given) level
  gains hkept hgains := by
    rcases hgains.of_written with rfl | ⟨json, hsized, hread⟩
    · exact ⟨fun _ => nofun, writes_nullable.2 (Nat.zero_le _)⟩
    · obtain ⟨hregular, hdepth⟩ := (h.nullable hnull).gains hkept hsized hread
      exact ⟨hregular, writes_nullable.2 hdepth⟩

theorem defaulted {default : α} (h : Wire.Lawful read write regular floatless least)
    (hregular : regular default) (hdepth : (write default).depth ≤ least) :
    (Field.defaulted name default read write).Lawful regular floatless least where
  exact hregular hfloatless := writes_defaulted.2 (h.exact hregular hfloatless)
  returns level _ hregular := returns_defaulted default (h.returns hregular) level
  gains hkept hgains := by
    rcases hgains.of_defaulted with rfl | ⟨json, hsized, hread⟩
    · exact ⟨hregular, writes_defaulted.2 (hdepth.trans (Nat.le_max_right _ _))⟩
    · obtain ⟨hregular, hdepth⟩ := h.gains hkept hsized hread
      exact ⟨hregular, writes_defaulted.2 hdepth⟩

theorem spared {usual : α} {isUsual : α → Bool} (h : Wire.Lawful read write regular floatless least)
    (husual : ∀ value, isUsual value = true ↔ value = usual) (hregular : regular usual) :
    (Field.spared name usual isUsual read write).Lawful regular floatless least where
  exact hregular hfloatless := writes_spared.2 fun _ => h.exact hregular hfloatless
  returns level _ hregular :=
    returns_spared (fun value => (husual value).1) (h.returns hregular) level
  gains {_ value} hkept hgains := by
    rcases hgains.of_spared with heq | ⟨json, hsized, hread⟩
    · refine ⟨heq ▸ hregular, writes_spared.2 fun hfalse => ?_⟩
      exact absurd ((husual value).2 heq) (Bool.eq_false_iff.1 hfalse)
    · obtain ⟨hregular, hdepth⟩ := h.gains hkept hsized hread
      exact ⟨hregular, writes_spared.2 fun _ => hdepth⟩

end Field.Lawful

/-! ## Records -/

/-- The law of a record, of all its values together. -/
structure Record.Lawful (record : Record α) (regular floatless : α → Prop) (least : Nat) :
    Prop where
  exact {values : α} (hregular : regular values) (hfloatless : floatless values) :
    record.Each (fun field value => field.Writes (·.Throughout IsExact) value) values
  returns (level : Level) {values : α} (hregular : regular values) : record.Returns level values
  gains {level : Level} {values : α} (hkept : level.kept = false)
    (hgains : record.Each (fun field value => field.Gains (·.Throughout IsSized) level value)
      values) :
    regular values ∧
      record.Each (fun field value => field.Writes (·.depth ≤ max level.room least) value) values

namespace Record

theorem Each.imp {holds other : {α : Type} → Field α → α → Prop} {record : Record α} {values : α}
    (h : record.Each holds values)
    (himp : ∀ {α : Type} (field : Field α) (value : α), holds field value → other field value) :
    record.Each other values := by
  induction record with
  | nil => trivial
  | cons head tail ih => exact ⟨himp _ _ h.1, ih h.2⟩

theorem depth_write_le (record : Record α) {values : α} {n : Nat}
    (h : record.Each (fun field value => field.Writes (·.depth ≤ n) value) values) :
    (record.write values).depth ≤ n + 1 :=
  Nat.succ_le_succ (Json.depthOfMembers_le.2 ((record.forall_members values).2 h))

namespace Lawful

theorem nil : Record.nil.Lawful (fun _ => True) (fun _ => True) 0 where
  exact _ _ := trivial
  returns _ _ _ := trivial
  gains _ _ := ⟨trivial, trivial⟩

theorem cons {head : Field α} {tail : Record β} {regular' floatless' : β → Prop} {least' : Nat}
    (hhead : head.Lawful regular floatless least) (htail : tail.Lawful regular' floatless' least') :
    (Record.cons head tail).Lawful (fun values => regular values.1 ∧ regular' values.2)
      (fun values => floatless values.1 ∧ floatless' values.2) (max least least') where
  exact hregular hfloatless :=
    ⟨hhead.exact hregular.1 hfloatless.1, htail.exact hregular.2 hfloatless.2⟩
  returns level _ hregular := ⟨hhead.returns level hregular.1, htail.returns level hregular.2⟩
  gains hkept hgains := by
    obtain ⟨hregular, hdepth⟩ := hhead.gains hkept hgains.1
    obtain ⟨hregulars, hdepths⟩ := htail.gains hkept hgains.2
    refine ⟨⟨hregular, hregulars⟩, fun json hjson => ?_, hdepths.imp fun _ _ h json hjson => ?_⟩
    · have hle := hdepth json hjson
      omega
    · have hle := h json hjson
      omega

/-- The law of a type whose values are those of a record. -/
theorem packed {record : Record α} {regular floatless : α → Prop}
    (h : record.Lawful regular floatless least) (hnames : record.names.Nodup)
    {read : Reader β} {write : β → Json} {regular' floatless' : β → Prop} {parts : β → α}
    {pack : α → β} (hparts : ∀ values, parts (pack values) = values)
    (hpack : ∀ value, pack (parts value) = value)
    (hread : ∀ level json, read level json =
      (record.read level json).bind fun values => some (pack values))
    (hwrite : ∀ value, write value = record.write (parts value))
    (hregular : ∀ value, regular' value ↔ regular (parts value))
    (hfloatless : ∀ value, floatless' value → floatless (parts value)) :
    Wire.Lawful read write regular' floatless' (least + 1) where
  exact {value} hvalue hplain := by
    rw [hwrite, record.throughout_write]
    exact h.exact ((hregular value).1 hvalue) (hfloatless value hplain)
  returns {value} hvalue level hdenoting hroom := by
    rw [hwrite] at hdenoting hroom ⊢
    have heach := h.returns level.inner ((hregular value).1 hvalue)
    rw [hread, record.read_write hnames hdenoting hroom heach, Option.bind_some, hpack]
  gains {level json value} hkept hsized hvalue := by
    rw [hread] at hvalue
    obtain ⟨values, hvalues, hvalue⟩ := Option.bind_eq_some_iff.1 hvalue
    obtain rfl := Option.some.inj hvalue
    obtain ⟨hroom, hgains⟩ := record.gains_read hvalues hsized
    have hinner : level.inner.kept = false := hkept
    obtain ⟨hregulars, hdepths⟩ := h.gains hinner hgains
    have hdepth : (record.write values).depth ≤ max (level.room - 1) least + 1 :=
      record.depth_write_le hdepths
    rw [hregular, hwrite, hparts]
    exact ⟨hregulars, by omega⟩

end Lawful

end Record

end Wire

end ProgramQueue
