import ProgramQueue.Proofs.Texts
import ProgramQueue.Wire.Tagged

/-!
# Fields of records read back

A record is read back from the object that is written for it if each of its fields is.
What is gained of a record that was read, of an object or of an array, is what each field
was given, or its usual value.
-/

namespace ProgramQueue

open Json (Throughout IsExact IsDenoting IsSized InRange)

namespace Wire

variable {α β : Type} {read : Reader α} {write : α → Json} {name : String} {level : Level}
  {value : α} {json : Json}

/-! ## Scalars -/

section

variable {n : Int}

@[simp]
theorem exact_null : Json.null.Throughout IsExact := .scalar rfl ⟨trivial, trivial, trivial⟩

@[simp]
theorem exact_bool (flag : Bool) : (Json.bool flag).Throughout IsExact :=
  .scalar rfl ⟨trivial, trivial, trivial⟩

@[simp]
theorem exact_str (text : String) : (Json.str text).Throughout IsExact :=
  .scalar rfl ⟨trivial, trivial, trivial⟩

theorem exact_int : (Json.int n).Throughout IsExact ↔ InRange n := by
  rw [Json.throughout_scalar rfl]
  exact ⟨fun h => h.sized, fun h => ⟨h, trivial, trivial⟩⟩

theorem exact_nat {n : Nat} (h : n < 2 ^ 64) : (Wire.nat n).Throughout IsExact := by
  have hbound : Nat.pow 2 64 = 2 ^ 64 := rfl
  refine exact_int.2 ⟨?_, ?_⟩
  all_goals
    simp only [Int.ofNat_eq_natCast]
    omega

@[simp]
theorem exact_uint64 (n : UInt64) : (Wire.nat n.toNat).Throughout IsExact := exact_nat n.toNat_lt

@[simp]
theorem exact_uint32 (n : UInt32) : (Wire.nat n.toNat).Throughout IsExact :=
  exact_nat (n.toNat_lt.trans (by decide))

@[simp]
theorem exact_int64 (n : Int64) : (Json.int n.toInt).Throughout IsExact := by
  have hleast := n.le_toInt
  have hgreatest := n.toInt_lt
  have hbound : Nat.pow 2 64 = 2 ^ 64 := rfl
  exact exact_int.2 ⟨hleast, by omega⟩

@[simp]
theorem exact_bytes (data : List UInt8) : (Wire.bytes data).Throughout IsExact := exact_str _

@[simp]
theorem exact_strs (texts : List String) : (Wire.strs texts).Throughout IsExact := by
  simp [Wire.strs]

end

/-- A value is read back wherever there is room for what is written of it. -/
def Returns (read : Reader α) (write : α → Json) (value : α) : Prop :=
  ∀ level, (write value).Throughout IsDenoting → (write value).depth ≤ level.room →
    read level (write value) = some value

theorem returns_str (text : String) : Returns .str .str text := fun _ _ _ => rfl

theorem returns_bool (flag : Bool) : Returns .bool .bool flag := fun _ _ _ => rfl

theorem returns_double (x : Double) : Returns .double .float x := fun _ _ _ => rfl

theorem returns_raw (json : Json) : Returns .raw id json := fun _ _ _ => rfl

theorem returns_natBelow {n bound : Nat} (h : n < bound) : Returns (.natBelow bound) Wire.nat n :=
  fun _ _ _ => if_pos h

theorem returns_uint64 (n : UInt64) : Returns .uint64 (fun n => Wire.nat n.toNat) n := by
  intro level hdenoting hroom
  have hbound : n.toNat < Nat.pow 2 64 := n.toNat_lt
  rw [Reader.uint64, returns_natBelow hbound level hdenoting hroom, Option.map_some,
    UInt64.ofNat_toNat]

theorem returns_uint32 (n : UInt32) : Returns .uint32 (fun n => Wire.nat n.toNat) n := by
  intro level hdenoting hroom
  have hbound : n.toNat < Nat.pow 2 32 := n.toNat_lt
  rw [Reader.uint32, returns_natBelow hbound level hdenoting hroom, Option.map_some,
    UInt32.ofNat_toNat]

theorem returns_int64 (n : Int64) : Returns .int64 (fun n => .int n.toInt) n := by
  intro level _ _
  have hrange : Int64.minValue.toInt ≤ n.toInt ∧ n.toInt ≤ Int64.maxValue.toInt :=
    ⟨n.minValue_le_toInt, n.toInt_le⟩
  rw [Reader.int64, if_pos hrange, Int64.ofInt_toInt]

theorem decodeChars_encodeChars (data : List UInt8) :
    Hex.decodeChars (Hex.encodeChars data) = some data := by
  induction data with
  | nil => rfl
  | cons byte rest ih =>
      have hsize := byte.toNat_lt
      have hsum : byte.toNat / 16 * 16 + byte.toNat % 16 = byte.toNat := by omega
      rw [Hex.encodeChars, Hex.decodeChars, Json.hexValue_digit (by omega),
        Json.hexValue_digit (by omega), ih]
      simp only [Option.bind_eq_bind, Option.bind_some, hsum, UInt8.ofNat_toNat]
      rfl

theorem returns_bytes (data : List UInt8) : Returns .bytes Wire.bytes data := by
  intro level _ _
  rw [Wire.bytes, Reader.bytes, Hex.encode, Hex.decode?, String.toList_ofList,
    decodeChars_encodeChars]

theorem returns_word {ofWord? : String → Option α} {word : α → String}
    (h : ofWord? (word value) = some value) :
    Returns (.word ofWord?) (fun value => .str (word value)) value := fun _ _ _ => h

theorem returns_freeForm (h : json.normal = json) : Returns .freeForm id json := by
  intro level hdenoting hroom
  have hreadable : json.isReadable = true := by
    rwa [Json.isReadable_iff]
  have hkeepable : json.isKeepable level.room = true := by
    rw [Json.isKeepable, Bool.and_eq_true, decide_eq_true_eq]
    exact ⟨hroom, hreadable⟩
  exact (if_pos hkeepable).trans (congrArg some h)

theorem nullable_of_ne (h : json ≠ .null) :
    read.nullable level json = (read level json).map some := by
  cases json with
  | null => exact absurd rfl h
  | _ => rfl

theorem returns_nullable {value : Option α} (h : ∀ given ∈ value, Returns read write given)
    (hnull : ∀ given ∈ value, write given ≠ .null) :
    Returns read.nullable (fun value => Json.ofOption (value.map write)) value := by
  intro level hdenoting hroom
  cases value with
  | none => rfl
  | some given =>
      refine (nullable_of_ne (hnull given rfl)).trans ?_
      rw [h given rfl level hdenoting hroom]
      rfl

/-- Items that are each read back are read back together. -/
theorem mapM_write {f : Json → Option α} {values : List α}
    (h : ∀ value ∈ values, f (write value) = some value) :
    (values.map write).mapM f = some values := by
  induction values with
  | nil => rfl
  | cons value rest ih =>
      obtain ⟨hfirst, hrest⟩ := List.forall_mem_cons.1 h
      rw [List.map_cons, List.mapM_cons, hfirst, ih hrest]
      rfl

/-- Items that are read back wherever there is room for them are read back together. -/
theorem mapM_items {f : Json → Option α} {values : List α} {room : Nat}
    (hroom : Json.depthOfItems (values.map write) ≤ room)
    (h : ∀ value ∈ values, (write value).depth ≤ room → f (write value) = some value) :
    (values.map write).mapM f = some values := by
  refine mapM_write fun value hvalue => h value hvalue ?_
  exact Json.depthOfItems_le.1 hroom _ (List.mem_map_of_mem hvalue)

theorem returns_list {values : List α} (h : ∀ value ∈ values, Returns read write value) :
    Returns (.list read) (fun values => .arr (values.map write)) values := by
  intro level hdenoting hroom
  have hdenoting := List.forall_mem_map.1 (Json.throughout_arr.1 hdenoting)
  have hroom : Json.depthOfItems (values.map write) + 1 ≤ level.room := hroom
  refine (if_neg (Nat.ne_of_gt (Nat.lt_of_lt_of_le (Nat.succ_pos _) hroom))).trans ?_
  refine mapM_items (Nat.le_sub_of_add_le hroom) fun value hvalue => ?_
  exact h value hvalue level.inner (hdenoting value hvalue)

/-! ## Fields -/

/-- A member that is left out when it has its usual value. -/
def Field.spared (name : String) (usual : α) (isUsual : α → Bool) (read : Reader α)
    (write : α → Json) : Field α where
  name := name
  read := read
  absent := some usual
  unlisted := some usual
  write value := if isUsual value then none else some (write value)

/-- A value is read back from the member that is written for it, or from its absence. -/
structure Field.Returns (field : Field α) (level : Level) (value : α) : Prop where
  written : ∀ json, field.write value = some json → json.Throughout IsDenoting →
    json.depth ≤ level.room → field.read level json = some value
  omitted : field.write value = none → field.absent = some value

namespace Field

theorem returns_required (h : Wire.Returns read write value) (level : Level) :
    (required name read write).Returns level value where
  written json hjson hdenoting hroom := by
    obtain rfl := Option.some.inj hjson
    exact h level hdenoting hroom
  omitted := nofun

theorem returns_optional {value : Option α} (h : ∀ given ∈ value, Wire.Returns read write given)
    (hnull : ∀ given ∈ value, write given ≠ .null) (level : Level) :
    (optional name read write).Returns level value where
  written json hjson hdenoting hroom := by
    obtain ⟨given, rfl, rfl⟩ := Option.map_eq_some_iff.1 hjson
    exact (nullable_of_ne (hnull given rfl)).trans
      (congrArg (Option.map some) (h given rfl level hdenoting hroom))
  omitted hnone := by
    obtain rfl := Option.map_eq_none_iff.1 hnone
    rfl

theorem returns_optionalStr (value : Option String) (level : Level) :
    (optional name .str .str).Returns level value :=
  returns_optional (fun text _ => returns_str text) (fun _ _ => nofun) level

theorem returns_nullable {value : Option α} (h : ∀ given ∈ value, Wire.Returns read write given)
    (hnull : ∀ given ∈ value, write given ≠ .null) (level : Level) :
    (nullable name read write).Returns level value where
  written json hjson hdenoting hroom := by
    obtain rfl := Option.some.inj hjson
    exact Wire.returns_nullable h hnull level hdenoting hroom
  omitted := nofun

theorem returns_defaulted (default : α) (h : Wire.Returns read write value) (level : Level) :
    (defaulted name default read write).Returns level value where
  written json hjson hdenoting hroom := by
    obtain rfl := Option.some.inj hjson
    exact h level hdenoting hroom
  omitted := nofun

theorem returns_spared {usual : α} {isUsual : α → Bool}
    (husual : ∀ value, isUsual value → value = usual) (h : Wire.Returns read write value)
    (level : Level) :
    (spared name usual isUsual read write).Returns level value where
  written json hjson hdenoting hroom := by
    have hjson : (if isUsual value then none else some (write value)) = some json := hjson
    split at hjson
    · cases hjson
    · obtain rfl := Option.some.inj hjson
      exact h level hdenoting hroom
  omitted hnone := by
    have hnone : (if isUsual value then none else some (write value)) = none := hnone
    split at hnone
    · rename_i htrue
      rw [husual value htrue]
      rfl
    · cases hnone

/-- What holds of what is written, if anything is. -/
def Writes (field : Field α) (holds : Json → Prop) (value : α) : Prop :=
  ∀ json, field.write value = some json → holds json

section

variable {holds : Json → Prop}

@[simp]
theorem writes_required :
    (required name read write).Writes holds value ↔ holds (write value) := by
  simp [Writes, required]

@[simp]
theorem writes_optional {value : Option α} : (optional name read write).Writes holds value ↔
    ∀ given, value = some given → holds (write given) := by
  cases value <;> simp [Writes, optional]

@[simp]
theorem writes_nullable {value : Option α} : (nullable name read write).Writes holds value ↔
    holds (Json.ofOption (value.map write)) := by
  simp [Writes, nullable]

@[simp]
theorem writes_defaulted {default : α} :
    (defaulted name default read write).Writes holds value ↔ holds (write value) := by
  simp [Writes, defaulted]

@[simp]
theorem writes_spared {usual : α} {isUsual : α → Bool} :
    (spared name usual isUsual read write).Writes holds value ↔
      (isUsual value = false → holds (write value)) := by
  cases h : isUsual value <;> simp [Writes, spared, h]

end

end Field

/-! ## Records -/

namespace Record

/-- What holds of each field and its value. -/
def Each (holds : {α : Type} → Field α → α → Prop) : {α : Type} → Record α → α → Prop
  | _, .nil, _ => True
  | _, .cons head tail, (value, values) => holds head value ∧ tail.Each holds values

@[simp]
theorem each_nil (holds : {α : Type} → Field α → α → Prop) : Record.nil.Each holds () := trivial

@[simp]
theorem each_cons (holds : {α : Type} → Field α → α → Prop) (head : Field α) (tail : Record β)
    (value : α) (values : β) : (Record.cons head tail).Each holds (value, values) ↔
      holds head value ∧ tail.Each holds values := Iff.rfl

/-- Each field is read back. -/
abbrev Returns (record : Record α) (level : Level) (values : α) : Prop :=
  record.Each (fun field value => field.Returns level value) values

/-- What is written of each field and its value. -/
theorem forall_members (record : Record α) (values : α) {holds : Json → Prop} :
    (∀ member ∈ record.members values, holds member.2) ↔
      record.Each (fun field value => field.Writes holds value) values := by
  induction record with
  | nil => exact iff_of_true (List.forall_mem_nil _) trivial
  | cons head tail ih =>
      obtain ⟨value, values⟩ := values
      rw [members, Each, Field.Writes, ← ih]
      cases head.write value <;> simp

theorem throughout_write (record : Record α) (values : α) {holds : Json → Prop} :
    (record.write values).Throughout holds ↔
      record.Each (fun field value => field.Writes (·.Throughout holds) value) values := by
  rw [write, Json.throughout_obj]
  exact record.forall_members values

theorem members_names (record : Record α) (values : α) :
    ∀ member ∈ record.members values, member.1 ∈ record.names := by
  induction record with
  | nil => exact List.forall_mem_nil _
  | cons head tail ih =>
      obtain ⟨value, values⟩ := values
      intro member hmember
      rw [members] at hmember
      split at hmember
      · rcases List.mem_cons.1 hmember with rfl | hrest
        · exact List.mem_cons_self
        · exact List.mem_cons_of_mem _ (ih values member hrest)
      · exact List.mem_cons_of_mem _ (ih values member hmember)

theorem members_ne (record : Record α) (hname : tagName ∉ record.names) (values : α) :
    ∀ member ∈ record.members values, member.1 ≠ tagName := fun member hmember heq =>
  hname (heq ▸ record.members_names values member hmember)

/-- Among given members that agree with those of a record about its names, the first field has
one occurrence or none, and all others agree with what is left of the record. -/
theorem occurrences_cons {head : Field α} {tail : Record β} {value : α} {values : β}
    {given : List (String × Json)} (hnames : (Record.cons head tail).names.Nodup)
    (hgiven : ∀ name ∈ (Record.cons head tail).names, given.filter (·.1 = name) =
      ((Record.cons head tail).members (value, values)).filter (·.1 = name)) :
    head.occurrences given = ((head.write value).map (head.name, ·)).toList ∧
      ∀ name ∈ tail.names,
        given.filter (·.1 = name) = (tail.members values).filter (·.1 = name) := by
  obtain ⟨hname, -⟩ := List.nodup_cons.1 hnames
  obtain ⟨hfirst, hothers⟩ := List.forall_mem_cons.1 hgiven
  have hnone : (tail.members values).filter (·.1 = head.name) = [] := by
    refine List.filter_eq_nil_iff.2 fun member hmember heq => hname ?_
    exact of_decide_eq_true heq ▸ tail.members_names values member hmember
  cases hwrite : head.write value with
  | none =>
      simp only [members, hwrite] at hfirst hothers
      exact ⟨hfirst.trans hnone, hothers⟩
  | some json =>
      simp only [members, hwrite] at hfirst hothers
      constructor
      · rw [Field.occurrences, hfirst, List.filter_cons, hnone]
        exact if_pos (decide_eq_true rfl)
      · intro name hmember
        rw [hothers name hmember, List.filter_cons_of_neg]
        intro heq
        obtain rfl : head.name = name := of_decide_eq_true heq
        exact hname hmember

/-- Among other members, those of a record are read back. -/
theorem readNamed_members (record : Record α) {values : α} {given : List (String × Json)}
    (hnames : record.names.Nodup)
    (hgiven : ∀ name ∈ record.names,
      given.filter (·.1 = name) = (record.members values).filter (·.1 = name))
    (hdenoting : ∀ member ∈ record.members values, member.2.Throughout IsDenoting)
    (hroom : Json.depthOfMembers (record.members values) ≤ level.room)
    (heach : record.Returns level values) :
    record.readNamed level given = some values := by
  -- a field passes over the members of the others, so all of them stay given to the tail
  induction record with
  | nil => rfl
  | cons head tail ih =>
      obtain ⟨value, values⟩ := values
      obtain ⟨hhead, htail⟩ := heach
      obtain ⟨honly, hothers⟩ := occurrences_cons hnames hgiven
      have hnames := (List.nodup_cons.1 hnames).2
      cases hwrite : head.write value with
      | none =>
          rw [hwrite] at honly
          simp only [members, hwrite] at hdenoting hroom
          have hread : head.readNamed level given = some value := by
            rw [Field.readNamed, honly]
            exact hhead.omitted hwrite
          rw [readNamed, hread, ih hnames hothers hdenoting hroom htail]
          rfl
      | some json =>
          rw [hwrite] at honly
          simp only [members, hwrite, Json.depthOfMembers] at hdenoting hroom
          obtain ⟨hjson, hdenoting⟩ := List.forall_mem_cons.1 hdenoting
          obtain ⟨hdepth, hroom⟩ := Nat.max_le.1 hroom
          have hread : head.readNamed level given = some value := by
            rw [Field.readNamed, honly]
            exact hhead.written json hwrite hjson hdepth
          rw [readNamed, hread, ih hnames hothers hdenoting hroom htail]
          rfl

/-- The members with their values changed. -/
abbrev changed (f : Json → Json) (members : List (String × Json)) : List (String × Json) :=
  members.map fun member => (member.1, f member.2)

theorem occurrences_changed (field : Field α) (f : Json → Json) (members : List (String × Json)) :
    field.occurrences (changed f members) = changed f (field.occurrences members) :=
  List.filter_map

/-- If a record is read among members that agree, but for their values, with what was written of
another one, each field has been read from what became of the value that was written of it. -/
theorem reads_of_readNamed (record : Record α) {values found : α} {given : List (String × Json)}
    {f : Json → Json} (hnames : record.names.Nodup)
    (hgiven : ∀ name ∈ record.names,
      given.filter (·.1 = name) = (record.members values).filter (·.1 = name))
    (h : record.readNamed level (changed f given) = some found) :
    record.Each (fun field value =>
      field.Writes (fun json => ∃ other, field.read level (f json) = some other) value)
      values := by
  induction record with
  | nil => trivial
  | cons head tail ih =>
      obtain ⟨value, values⟩ := values
      obtain ⟨honly, hothers⟩ := occurrences_cons hnames hgiven
      obtain ⟨first, hfirst, hrest⟩ := Option.bind_eq_some_iff.1 h
      obtain ⟨rest, hrest, -⟩ := Option.bind_eq_some_iff.1 hrest
      refine ⟨fun json hwrite => ⟨first, ?_⟩, ih (List.nodup_cons.1 hnames).2 hothers hrest⟩
      rw [hwrite] at honly
      rwa [Field.readNamed, occurrences_changed, honly] at hfirst

/-- If the object of a record is read with its values changed, each field has been read from what
became of the value that was written of it. -/
theorem reads_of_read (record : Record α) {values found : α} {f : Json → Json}
    (hnames : record.names.Nodup)
    (h : record.read level (.obj (changed f (record.members values))) = some found) :
    record.Each (fun field value =>
      field.Writes (fun json => ∃ other, field.read level.inner (f json) = some other) value)
      values :=
  record.reads_of_readNamed hnames (fun _ _ => rfl) (Option.ite_none_left_eq_some.1 h).2

/-- A record is read back from its object. -/
theorem read_write (record : Record α) {values : α} (hnames : record.names.Nodup)
    (hdenoting : (record.write values).Throughout IsDenoting)
    (hroom : (record.write values).depth ≤ level.room)
    (heach : record.Returns level.inner values) :
    record.read level (record.write values) = some values := by
  have hroom : Json.depthOfMembers (record.members values) + 1 ≤ level.room := hroom
  refine (if_neg (Nat.ne_of_gt (Nat.lt_of_lt_of_le (Nat.succ_pos _) hroom))).trans ?_
  exact record.readNamed_members hnames (fun _ _ => rfl) (Json.throughout_obj.1 hdenoting)
    (Nat.le_sub_of_add_le hroom) heach

end Record

/-! ## Tagged values -/

theorem throughout_tagged {holds : Json → Prop} {word : String} (hword : holds (.str word))
    (record : Record α) (values : α) : (tagged word (record.members values)).Throughout holds ↔
      record.Each (fun field value => field.Writes (·.Throughout holds) value) values := by
  rw [tagged, Json.throughout_obj, List.forall_mem_cons, ← record.forall_members]
  exact and_iff_right (.scalar rfl hword)

theorem exact_tagged (record : Record α) (word : String) (values : α) :
    (tagged word (record.members values)).Throughout IsExact ↔
      record.Each (fun field value => field.Writes (·.Throughout IsExact) value) values :=
  throughout_tagged ⟨trivial, trivial, trivial⟩ record values

theorem untag_tagged {words : List String} {word : String} {members : List (String × Json)}
    (hword : word ∈ words) (hnames : ∀ member ∈ members, member.1 ≠ tagName)
    (hdenoting : (tagged word members).Throughout IsDenoting)
    (hroom : (tagged word members).depth ≤ level.room) :
    untag words level (tagged word members) = some (word, .named members) := by
  have hreadable : (tagged word members).isReadable = true := by
    rwa [Json.isReadable_iff]
  have hkeepable : (level.kept || (tagged word members).isKeepable level.room) = true := by
    rw [Json.isKeepable, hreadable, decide_eq_true hroom]
    exact Bool.or_true _
  have hothers : members.filter (·.1 = tagName) = [] :=
    List.filter_eq_nil_iff.2 fun member hmember heq => hnames member hmember (of_decide_eq_true heq)
  have hkept : members.filter (·.1 ≠ tagName) = members :=
    List.filter_eq_self.2 fun member hmember => decide_eq_true (hnames member hmember)
  have htag : ((tagName, Json.str word) :: members).filter (·.1 = tagName) =
      [(tagName, .str word)] := by
    rw [List.filter_cons, hothers]
    rfl
  have hrest : ((tagName, Json.str word) :: members).filter (·.1 ≠ tagName) = members := by
    rw [List.filter_cons, hkept]
    rfl
  have hfound : tagWord? words level.kept (.str word) = some word := if_pos hword
  refine (if_pos hkeepable).trans ?_
  rw [tagged]
  dsimp only
  rw [htag, hrest]
  dsimp only
  rw [hfound]
  rfl

/-- A record is read back from what a tagged value holds. -/
theorem Record.readContent_tagged (record : Record α) {values : α} {word : String}
    (hnames : record.names.Nodup) (heach : record.Returns level.within values)
    (hdenoting : (tagged word (record.members values)).Throughout IsDenoting)
    (hroom : (tagged word (record.members values)).depth ≤ level.room) :
    record.readContent level.within (.named (record.members values)) = some values := by
  have hdenoting := (List.forall_mem_cons.1 (Json.throughout_obj.1 hdenoting)).2
  have hdepth := (Nat.max_le.1 (Nat.le_sub_of_add_le hroom)).2
  exact record.readNamed_members hnames (fun _ _ => rfl) hdenoting hdepth heach

/-- Where a record's word is known, the record is read back from the tagged value. -/
theorem Record.read_tagged (record : Record α) (level : Level) (words : List String) {values : α}
    {word : String} (hword : word ∈ words) (hnames : record.names.Nodup)
    (htag : tagName ∉ record.names) (heach : record.Returns level.within values)
    (hdenoting : (tagged word (record.members values)).Throughout IsDenoting)
    (hroom : (tagged word (record.members values)).depth ≤ level.room) :
    untag words level (tagged word (record.members values)) =
        some (word, .named (record.members values)) ∧
      record.readContent level.within (.named (record.members values)) = some values :=
  ⟨untag_tagged hword (record.members_ne htag values) hdenoting hroom,
    record.readContent_tagged hnames heach hdenoting hroom⟩

/-! ## What is gained -/

variable {holds : Json → Prop}

/-- A value that a field was given, or its usual value. -/
inductive Field.Gains (holds : Json → Prop) (level : Level) (field : Field α) (value : α) : Prop
  | given {json : Json} (hjson : holds json) (hread : field.read level json = some value)
  | absent (h : field.absent = some value)
  | unlisted (h : field.unlisted = some value)

namespace Field.Gains

theorem of_required (h : (required name read write).Gains holds level value) :
    ∃ json, holds json ∧ read level json = some value := by
  cases h with
  | given hjson hread => exact ⟨_, hjson, hread⟩
  | absent h => cases h
  | unlisted h => cases h

theorem of_nullable {value : Option α} (hread : read.nullable level json = some value) :
    ∀ given ∈ value, json ≠ .null ∧ read level json = some given := by
  rintro given rfl
  by_cases hnull : json = .null
  · subst hnull
    cases hread
  · rw [nullable_of_ne hnull] at hread
    obtain ⟨other, hother, heq⟩ := Option.map_eq_some_iff.1 hread
    cases heq
    exact ⟨hnull, hother⟩

theorem of_optional {value : Option α} (h : (optional name read write).Gains holds level value) :
    ∀ given ∈ value, ∃ json, holds json ∧ json ≠ .null ∧ read level json = some given := by
  intro given hgiven
  cases h with
  | given hjson hread => exact ⟨_, hjson, of_nullable hread given hgiven⟩
  | absent h =>
      cases h
      cases hgiven
  | unlisted h =>
      cases h
      cases hgiven

theorem of_written {value : Option α} (h : (nullable name read write).Gains holds level value) :
    value = none ∨ ∃ json, holds json ∧ read.nullable level json = some value := by
  cases h with
  | given hjson hread => exact Or.inr ⟨_, hjson, hread⟩
  | absent h => exact Or.inl (Option.some.inj h).symm
  | unlisted h => cases h

theorem of_defaulted {default : α}
    (h : (defaulted name default read write).Gains holds level value) :
    value = default ∨ ∃ json, holds json ∧ read level json = some value := by
  cases h with
  | given hjson hread => exact Or.inr ⟨_, hjson, hread⟩
  | absent h => exact Or.inl (Option.some.inj h).symm
  | unlisted h => exact Or.inl (Option.some.inj h).symm

theorem of_spared {usual : α} {isUsual : α → Bool}
    (h : (spared name usual isUsual read write).Gains holds level value) :
    value = usual ∨ ∃ json, holds json ∧ read level json = some value := by
  cases h with
  | given hjson hread => exact Or.inr ⟨_, hjson, hread⟩
  | absent h => exact Or.inl (Option.some.inj h).symm
  | unlisted h => exact Or.inl (Option.some.inj h).symm

end Field.Gains

/-- Items nest no deeper than those that they were read from if each of them does not. -/
theorem depth_mapM {f : Json → Option α} {items : List Json} {values : List α}
    (hread : items.mapM f = some values)
    (h : ∀ {item value}, f item = some value → (write value).depth ≤ item.depth) :
    Json.depthOfItems (values.map write) ≤ Json.depthOfItems items := by
  refine Json.depthOfItems_le.2 (List.forall_mem_map.2 fun value hvalue => ?_)
  obtain ⟨item, hitem, heq⟩ := mem_of_mapM hread value hvalue
  exact (h heq).trans (Json.depthOfItems_le.1 (Nat.le_refl _) item hitem)

theorem lt_of_natBelow {n bound : Nat} (h : Reader.natBelow bound level json = some n) :
    n < bound := by
  unfold Reader.natBelow at h
  split at h
  · split at h
    · cases h
      assumption
    · cases h
  · cases h

/-- What is gained of each part of an array. -/
theorem gains_list {values : List α} (h : Reader.list read level json = some values)
    (hjson : json.Throughout holds) :
    0 < level.room ∧ ∀ value ∈ values, ∃ item, item.Throughout holds ∧
      read level.inner item = some value := by
  cases json with
  | arr items =>
      rw [Reader.list] at h
      split at h
      · cases h
      · rename_i hroom
        refine ⟨Nat.pos_of_ne_zero hroom, fun value hvalue => ?_⟩
        obtain ⟨item, hitem, hread⟩ := mem_of_mapM h value hvalue
        exact ⟨item, Json.throughout_arr.1 hjson item hitem, hread⟩
  | _ => cases h

namespace Record

theorem gains_readNamed (record : Record α) {values : α} {given : List (String × Json)}
    (h : record.readNamed level given = some values) (hgiven : ∀ member ∈ given, holds member.2) :
    record.Each (fun field value => field.Gains holds level value) values := by
  induction record with
  | nil => trivial
  | cons head tail ih =>
      obtain ⟨value, hvalue, h⟩ := Option.bind_eq_some_iff.1 h
      obtain ⟨later, hlater, h⟩ := Option.bind_eq_some_iff.1 h
      cases h
      refine ⟨?_, ih hlater⟩
      rw [Field.readNamed] at hvalue
      split at hvalue
      · exact .absent hvalue
      · rename_i name json honly
        have hmember : (name, json) ∈ head.occurrences given := by
          rw [honly]
          exact List.mem_singleton_self _
        exact .given (hgiven _ (List.mem_filter.1 hmember).1) hvalue
      · cases hvalue

theorem gains_readListed (record : Record α) {values : α} {items : List Json}
    (h : record.readListed level items = some values) (hitems : ∀ item ∈ items, holds item) :
    record.Each (fun field value => field.Gains holds level value) values := by
  induction record generalizing items with
  | nil => trivial
  | cons head tail ih =>
      cases items with
      | nil =>
          obtain ⟨value, hvalue, h⟩ := Option.bind_eq_some_iff.1 h
          obtain ⟨later, hlater, h⟩ := Option.bind_eq_some_iff.1 h
          cases h
          exact ⟨.unlisted hvalue, ih hlater hitems⟩
      | cons item items =>
          obtain ⟨hitem, hrest⟩ := List.forall_mem_cons.1 hitems
          obtain ⟨value, hvalue, h⟩ := Option.bind_eq_some_iff.1 h
          obtain ⟨later, hlater, h⟩ := Option.bind_eq_some_iff.1 h
          cases h
          exact ⟨.given hitem hvalue, ih hlater hrest⟩

theorem gains_read (record : Record α) {values : α} (h : record.read level json = some values)
    (hjson : json.Throughout holds) :
    0 < level.room ∧
      record.Each (fun field value => field.Gains (·.Throughout holds) level.inner value)
        values := by
  cases json with
  | obj given =>
      rw [Record.read] at h
      split at h
      · cases h
      · rename_i hroom
        exact ⟨Nat.pos_of_ne_zero hroom, record.gains_readNamed h (Json.throughout_obj.1 hjson)⟩
  | arr items =>
      rw [Record.read] at h
      split at h
      · cases h
      · rename_i hroom
        exact ⟨Nat.pos_of_ne_zero hroom, record.gains_readListed h (Json.throughout_arr.1 hjson)⟩
  | _ => cases h

theorem depth_pos (record : Record α) {values : α} (h : record.read level json = some values) :
    0 < json.depth := by
  cases json with
  | obj => exact Nat.succ_pos _
  | arr => exact Nat.succ_pos _
  | _ => cases h

end Record

/-- What holds of every part of what a tagged value holds. -/
def Content.All (holds : Json → Prop) : Content → Prop
  | .named members => ∀ member ∈ members, holds member.2
  | .listed items => ∀ item ∈ items, holds item

theorem Record.gains_readContent (record : Record α) {values : α} {content : Content}
    (h : record.readContent level content = some values) (hcontent : content.All holds) :
    record.Each (fun field value => field.Gains holds level value) values := by
  cases content with
  | named members => exact record.gains_readNamed h hcontent
  | listed items => exact record.gains_readListed h hcontent

/-- What a tagged value holds are parts of it. -/
theorem untag_parts {words : List String} {word : String} {content : Content}
    (h : untag words level json = some (word, content)) :
    (level.kept = false → json.depth ≤ level.room) ∧ 0 < json.depth ∧
      content.All fun part => part.depth < json.depth := by
  unfold untag at h
  split at h
  · rename_i hkeepable
    refine ⟨fun hkept => ?_, ?_⟩
    · rw [hkept, Bool.false_or, Json.isKeepable, Bool.and_eq_true] at hkeepable
      exact of_decide_eq_true hkeepable.1
    · split at h
      · rename_i members
        split at h
        · obtain ⟨_, -, heq⟩ := Option.bind_eq_some_iff.1 h
          cases heq
          refine ⟨Nat.succ_pos _, fun member hmember => Nat.lt_succ_of_le ?_⟩
          exact Json.depthOfMembers_le.1 le_rfl member (List.mem_filter.1 hmember).1
        · cases h
      · rename_i tag items
        obtain ⟨_, -, heq⟩ := Option.bind_eq_some_iff.1 h
        cases heq
        refine ⟨Nat.succ_pos _, fun item hitem => Nat.lt_succ_of_le ?_⟩
        exact Json.depthOfItems_le.1 le_rfl item (List.mem_cons_of_mem _ hitem)
      · cases h
  · cases h

end Wire

end ProgramQueue
