import ProgramQueue.Proofs.Fields
import ProgramQueue.Proofs.Forms

/-!
# Readers that pay no heed to revisions

A field is read from the one member of its name, and knows how that member may be absent.  So
a record is read alike before and after it was revised, and so is a tagged value, whose kind is
found wherever the tag stands.
-/

namespace ProgramQueue.Wire

variable {α β : Type} {form : Form} {slot : Slot Form} {slots : List (Slot Form)}
  {items others : List Json} {given kept revised : List (String × Json)} {json other : Json}

/-! ## Readable revisions -/

theorem readable_obj {members : List (String × Json)} :
    (Json.obj members).isReadable = true ↔ ∀ member ∈ members, member.2.isReadable = true :=
  Json.membersReadable_iff

mutual

/-- What was added can be read, so a revision can if what it is one of can. -/
theorem Revised.readable : ∀ {form : Form} {json other : Json}, Revised form json other →
    json.isReadable = true → other.isReadable = true
  | _, _, _, .same _ _, h => h
  | _, _, _, .list hitems, h =>
      Json.allReadable_iff.2 (hitems.readable (Json.allReadable_iff.1 h))
  | _, _, _, .record hkept horder hadded, h => by
      have hknown := hkept.readable (readable_obj.1 h)
      refine readable_obj.2 fun member hmember => ?_
      rcases List.mem_append.1 (horder.mem_iff.1 hmember) with hmember | hmember
      · exact hknown member hmember
      · exact (hadded member hmember).2
  | _, _, _, .tagged _ hkept horder hadded, h => by
      obtain ⟨htag, hgiven⟩ := List.forall_mem_cons.1 (readable_obj.1 h)
      have hknown := hkept.readable hgiven
      refine readable_obj.2 fun member hmember => ?_
      rcases List.mem_cons.1 (horder.mem_iff.1 hmember) with rfl | hmember
      · exact htag
      rcases List.mem_append.1 hmember with hmember | hmember
      · exact hknown member hmember
      · exact (hadded member hmember).2

theorem RevisedItems.readable : ∀ {form : Form} {items others : List Json},
    RevisedItems form items others → (∀ item ∈ items, item.isReadable = true) →
      ∀ item ∈ others, item.isReadable = true
  | _, _, _, .nil _, _ => List.forall_mem_nil _
  | _, _, _, .cons hitem hrest, h => by
      obtain ⟨hfirst, hlater⟩ := List.forall_mem_cons.1 h
      exact List.forall_mem_cons.2 ⟨hitem.readable hfirst, hrest.readable hlater⟩

theorem RevisedMembers.readable : ∀ {slots : List (Slot Form)}
    {given kept : List (String × Json)}, RevisedMembers slots given kept →
      (∀ member ∈ given, member.2.isReadable = true) →
        ∀ member ∈ kept, member.2.isReadable = true
  | _, _, _, .nil, _ => List.forall_mem_nil _
  | _, _, _, .kept hvalue hrest, h => by
      obtain ⟨hfirst, hlater⟩ := List.forall_mem_cons.1 h
      exact List.forall_mem_cons.2 ⟨hvalue.readable hfirst, hrest.readable hlater⟩
  | _, _, _, .absent hrest, h => hrest.readable h
  | _, _, _, .asNull _ hrest, h => List.forall_mem_cons.2 ⟨rfl, hrest.readable h⟩
  | _, _, _, .leftOut _ hrest, h => hrest.readable (List.forall_mem_cons.1 h).2

end

/-! ## Members by name -/

/-- The members of a slot's name before and after. -/
inductive SlotRevised (slot : Slot Form) : List (String × Json) → List (String × Json) → Prop
  | kept {value other : Json} (hvalue : Revised slot.form value other) :
      SlotRevised slot [(slot.name, value)] [(slot.name, other)]
  | absent : SlotRevised slot [] []
  | asNull (hoptional : slot.presence = .optional) : SlotRevised slot [] [(slot.name, .null)]
  | leftOut {usual : Json} (husual : slot.presence = .spared usual) :
      SlotRevised slot [(slot.name, usual)] []

/-- The members with a name. -/
abbrev named (name : String) (members : List (String × Json)) : List (String × Json) :=
  members.filter (·.1 = name)

/-- Each known member was revised as its slot allows. -/
def Alike (slots : List (Slot Form)) (given revised : List (String × Json)) : Prop :=
  ∀ slot ∈ slots, SlotRevised slot (named slot.name given) (named slot.name revised)

theorem named_eq_nil {name : String} {members : List (String × Json)}
    (h : ∀ member ∈ members, member.1 ≠ name) : named name members = [] :=
  List.filter_eq_nil_iff.2 fun member hmember heq => h member hmember (of_decide_eq_true heq)

theorem named_cons_self (name : String) (value : Json) (members : List (String × Json)) :
    named name ((name, value) :: members) = (name, value) :: named name members :=
  List.filter_cons_of_pos (decide_eq_true rfl)

theorem named_cons_of_ne {name : String} {member : String × Json} (h : member.1 ≠ name)
    (members : List (String × Json)) : named name (member :: members) = named name members :=
  List.filter_cons_of_neg fun heq => h (of_decide_eq_true heq)

theorem named_append (name : String) (first later : List (String × Json)) :
    named name (first ++ later) = named name first ++ named name later :=
  List.filter_append ..

theorem RevisedMembers.names (h : RevisedMembers slots given kept) :
    (∀ member ∈ given, member.1 ∈ slots.map Slot.name) ∧
      ∀ member ∈ kept, member.1 ∈ slots.map Slot.name := by
  induction slots generalizing given kept with
  | nil =>
      cases h
      exact ⟨List.forall_mem_nil _, List.forall_mem_nil _⟩
  | cons slot slots ih =>
      have hmore {members : List (String × Json)}
          (h : ∀ member ∈ members, member.1 ∈ slots.map Slot.name) :
          ∀ member ∈ members, member.1 ∈ (slot :: slots).map Slot.name := fun member hmember =>
        List.mem_cons_of_mem _ (h member hmember)
      have hfirst : slot.name ∈ (slot :: slots).map Slot.name := List.mem_cons_self
      cases h with
      | kept _ hrest =>
          exact ⟨List.forall_mem_cons.2 ⟨hfirst, hmore (ih hrest).1⟩,
            List.forall_mem_cons.2 ⟨hfirst, hmore (ih hrest).2⟩⟩
      | absent hrest => exact ⟨hmore (ih hrest).1, hmore (ih hrest).2⟩
      | asNull _ hrest =>
          exact ⟨hmore (ih hrest).1, List.forall_mem_cons.2 ⟨hfirst, hmore (ih hrest).2⟩⟩
      | leftOut _ hrest =>
          exact ⟨List.forall_mem_cons.2 ⟨hfirst, hmore (ih hrest).1⟩, hmore (ih hrest).2⟩

theorem RevisedMembers.alike (h : RevisedMembers slots given kept)
    (hnames : (slots.map Slot.name).Nodup) : Alike slots given kept := by
  induction slots generalizing given kept with
  | nil => exact List.forall_mem_nil _
  | cons slot slots ih =>
      obtain ⟨hname, hnames⟩ := List.nodup_cons.1 hnames
      have hnone {members : List (String × Json)}
          (h : ∀ member ∈ members, member.1 ∈ slots.map Slot.name) :
          named slot.name members = [] :=
        named_eq_nil fun member hmember heq => hname (heq ▸ h member hmember)
      have hother (later : Slot Form) (hlater : later ∈ slots) : slot.name ≠ later.name :=
        fun heq => hname (heq ▸ List.mem_map_of_mem hlater)
      refine List.forall_mem_cons.2 ?_
      cases h with
      | kept hvalue hrest =>
          rw [named_cons_self, named_cons_self, hnone hrest.names.1, hnone hrest.names.2]
          refine ⟨.kept hvalue, fun later hlater => ?_⟩
          rw [named_cons_of_ne (hother later hlater), named_cons_of_ne (hother later hlater)]
          exact ih hrest hnames later hlater
      | absent hrest =>
          rw [hnone hrest.names.1, hnone hrest.names.2]
          exact ⟨.absent, ih hrest hnames⟩
      | asNull hoptional hrest =>
          rw [named_cons_self, hnone hrest.names.1, hnone hrest.names.2]
          refine ⟨.asNull hoptional, fun later hlater => ?_⟩
          rw [named_cons_of_ne (hother later hlater)]
          exact ih hrest hnames later hlater
      | leftOut husual hrest =>
          rw [named_cons_self, hnone hrest.names.1, hnone hrest.names.2]
          refine ⟨.leftOut husual, fun later hlater => ?_⟩
          rw [named_cons_of_ne (hother later hlater)]
          exact ih hrest hnames later hlater

/-- At most one member stands under a name, so its place makes no difference. -/
theorem SlotRevised.perm {before after other : List (String × Json)}
    (h : SlotRevised slot before after) (hperm : other.Perm after) :
    SlotRevised slot before other := by
  cases h with
  | kept hvalue =>
      rw [List.perm_singleton.1 hperm]
      exact .kept hvalue
  | absent =>
      rw [List.perm_nil.1 hperm]
      exact .absent
  | asNull hoptional =>
      rw [List.perm_singleton.1 hperm]
      exact .asNull hoptional
  | leftOut husual =>
      rw [List.perm_nil.1 hperm]
      exact .leftOut husual

theorem Alike.reorder (h : Alike slots given kept) {added : List (String × Json)}
    (horder : revised.Perm (kept ++ added)) (hadded : Unknown (slots.map Slot.name) added) :
    Alike slots given revised := by
  intro slot hslot
  refine (h slot hslot).perm ?_
  have hnone : named slot.name added = [] := named_eq_nil fun member hmember heq =>
    (hadded member hmember).1 (heq ▸ List.mem_map_of_mem hslot)
  have hfilter : (named slot.name revised).Perm (named slot.name (kept ++ added)) :=
    horder.filter _
  rwa [named_append, hnone, List.append_nil] at hfilter

/-! ## Fields and records -/

variable {level : Level} {room : Nat} {read : Reader α} {write : α → Json} {name : String}
  {f : Json → Option α}

/-- Nothing else is found in a revision, if both values may be kept. -/
def Overlooks (f : Json → Option α) (room : Nat) (form : Form) : Prop :=
  ∀ ⦃json other : Json⦄, Revised form json other → json.isKeepable room = true →
    other.isKeepable room = true → f other = f json

/-- A reader to which revisions make no difference. -/
def Ignores (read : Reader α) (form : Form) : Prop :=
  ∀ level : Level, Overlooks (read level) level.room form

theorem overlooks_plain (f : Json → Option α) (room : Nat) : Overlooks f room .plain := by
  intro json other h _ _
  cases h
  rfl

theorem isKeepable_iff :
    json.isKeepable room = true ↔ json.depth ≤ room ∧ json.isReadable = true := by
  rw [Json.isKeepable, Bool.and_eq_true, decide_eq_true_eq]

theorem Overlooks.mono {less : Nat} (h : Overlooks f room form) (hle : less ≤ room) :
    Overlooks f less form := by
  have hmore {json : Json} (hjson : json.isKeepable less = true) :
      json.isKeepable room = true := by
    obtain ⟨hdepth, hreadable⟩ := isKeepable_iff.1 hjson
    exact isKeepable_iff.2 ⟨hdepth.trans hle, hreadable⟩
  intro json other hrevised hjson hother
  exact h hrevised (hmore hjson) (hmore hother)

theorem keepable_items (h : (Json.arr items).isKeepable room = true) :
    0 < room ∧ ∀ item ∈ items, item.isKeepable (room - 1) = true := by
  obtain ⟨hdepth, hreadable⟩ := isKeepable_iff.1 h
  have hdepth : Json.depthOfItems items + 1 ≤ room := hdepth
  refine ⟨by omega, fun item hitem => isKeepable_iff.2 ⟨?_, ?_⟩⟩
  · have hle := Json.depthOfItems_le.1 le_rfl item hitem
    omega
  · exact Json.allReadable_iff.1 hreadable item hitem

theorem keepable_members (h : (Json.obj given).isKeepable room = true) :
    0 < room ∧ ∀ member ∈ given, member.2.isKeepable (room - 1) = true := by
  obtain ⟨hdepth, hreadable⟩ := isKeepable_iff.1 h
  have hdepth : Json.depthOfMembers given + 1 ≤ room := hdepth
  refine ⟨by omega, fun member hmember => isKeepable_iff.2 ⟨?_, ?_⟩⟩
  · have hle := Json.depthOfMembers_le.1 le_rfl member hmember
    omega
  · exact readable_obj.1 hreadable member hmember

theorem Overlooks.mapM (hf : Overlooks f room form) (h : RevisedItems form items others)
    (hitems : ∀ item ∈ items, item.isKeepable room = true)
    (hothers : ∀ item ∈ others, item.isKeepable room = true) : others.mapM f = items.mapM f := by
  induction items generalizing others with
  | nil =>
      cases h
      rfl
  | cons item items ih =>
      cases h with
      | cons hitem hrest =>
          obtain ⟨hfirst, hitems⟩ := List.forall_mem_cons.1 hitems
          obtain ⟨hother, hothers⟩ := List.forall_mem_cons.1 hothers
          rw [List.mapM_cons, List.mapM_cons, hf hitem hfirst hother, ih hrest hitems hothers]

/-- The items of an array. -/
def itemsOf (f : Json → Option α) : Json → Option (List α)
  | .arr items => items.mapM f
  | _ => none

theorem Overlooks.itemsOf (hf : Overlooks f (room - 1) form) :
    Overlooks (itemsOf f) room (.list form) := by
  intro json other hrevised hjson hother
  cases hrevised with
  | same => rfl
  | list hitems => exact hf.mapM hitems (keepable_items hjson).2 (keepable_items hother).2

theorem Ignores.list (h : Ignores read form) : Ignores (.list read) (.list form) := by
  intro level json other hrevised hjson hother
  cases hrevised with
  | same => rfl
  | list hitems =>
      obtain ⟨hroom, hjson⟩ := keepable_items hjson
      obtain ⟨-, hother⟩ := keepable_items hother
      have hread := Overlooks.mapM (h level.inner) hitems hjson hother
      exact (if_neg hroom.ne').trans (hread.trans (if_neg hroom.ne').symm)

/-- An empty list that may be kept is read. -/
theorem list_nil (h : (Json.arr []).isKeepable level.room = true) :
    Reader.list read level (.arr []) = some [] :=
  if_neg (keepable_items h).1.ne'

/-- A revision of null is null, and of nothing else. -/
theorem Revised.null_iff (h : Revised form json other) : other = .null ↔ json = .null := by
  cases h with
  | same => exact Iff.rfl
  | _ => exact iff_of_false nofun nofun

theorem Overlooks.nullable (h : Overlooks (read level) level.room form) :
    Overlooks (read.nullable level) level.room form := by
  intro json other hrevised hjson hother
  by_cases hnull : json = .null
  · rw [hnull, hrevised.null_iff.2 hnull]
  · rw [nullable_of_ne hnull, nullable_of_ne (mt hrevised.null_iff.1 hnull),
      h hrevised hjson hother]

/-- A field reads the members of a slot, and knows how they may be absent. -/
structure Field.Obeys (field : Field α) (level : Level) (slot : Slot Form) : Prop where
  name : field.name = slot.name
  overlooks : Overlooks (field.read level) level.room slot.form
  null : slot.presence = .optional → field.read level .null = field.absent
  usual : ∀ {usual}, slot.presence = .spared usual → usual.isKeepable level.room = true →
    field.read level usual = field.absent

namespace Field

theorem obeys_required (h : Overlooks (read level) level.room form) (write : α → Json) :
    (required name read write).Obeys level ⟨name, .required, form⟩ :=
  ⟨rfl, h, nofun, nofun⟩

theorem obeys_optional (h : Overlooks (read level) level.room form) (write : α → Json) :
    (optional name read write).Obeys level ⟨name, .optional, form⟩ :=
  ⟨rfl, h.nullable, fun _ => rfl, nofun⟩

theorem obeys_nullable (h : Overlooks (read level) level.room form) (write : α → Json) :
    (nullable name read write).Obeys level ⟨name, .spared .null, form⟩ := by
  refine ⟨rfl, h.nullable, nofun, ?_⟩
  rintro _ ⟨⟩ _
  rfl

theorem obeys_defaulted {default : α} {usual : Json}
    (h : Overlooks (read level) level.room form)
    (husual : usual.isKeepable level.room = true → read level usual = some default)
    (write : α → Json) :
    (defaulted name default read write).Obeys level ⟨name, .spared usual, form⟩ := by
  refine ⟨rfl, h, nofun, ?_⟩
  rintro _ ⟨⟩ hkeepable
  exact husual hkeepable

theorem obeys_sparse (h : Overlooks (Reader.list read level) level.room form)
    (write : List α → Json) :
    (sparse name (.list read) write).Obeys level ⟨name, .spared (.arr []), form⟩ := by
  refine ⟨rfl, h, nofun, ?_⟩
  rintro _ ⟨⟩ hkeepable
  exact list_nil hkeepable

theorem readNamed_revised {field : Field α} (hobeys : field.Obeys level slot)
    (h : SlotRevised slot (named slot.name given) (named slot.name revised))
    (hgiven : ∀ member ∈ given, member.2.isKeepable level.room = true)
    (hrevised : ∀ member ∈ revised, member.2.isKeepable level.room = true) :
    field.readNamed level revised = field.readNamed level given := by
  have hgiven : ∀ member ∈ named slot.name given, member.2.isKeepable level.room = true :=
    fun member hmember => hgiven member (List.mem_filter.1 hmember).1
  have hrevised : ∀ member ∈ named slot.name revised, member.2.isKeepable level.room = true :=
    fun member hmember => hrevised member (List.mem_filter.1 hmember).1
  unfold readNamed occurrences
  rw [hobeys.name]
  unfold named at h hgiven hrevised
  generalize given.filter (·.1 = slot.name) = before at h hgiven ⊢
  generalize revised.filter (·.1 = slot.name) = after at h hrevised ⊢
  cases h with
  | kept hvalue =>
      exact hobeys.overlooks hvalue (hgiven _ List.mem_cons_self) (hrevised _ List.mem_cons_self)
  | absent => rfl
  | asNull hoptional => exact hobeys.null hoptional
  | leftOut husual => exact (hobeys.usual husual (hgiven _ List.mem_cons_self)).symm

end Field

namespace Record

/-- Each field reads the members of the slot in its place. -/
def Obeys (level : Level) : {α : Type} → Record α → List (Slot Form) → Prop
  | _, .nil, [] => True
  | _, .cons head tail, slot :: slots => head.Obeys level slot ∧ tail.Obeys level slots
  | _, _, _ => False

variable {record : Record α}

theorem readNamed_revised (hobeys : record.Obeys level slots) (h : Alike slots given revised)
    (hgiven : ∀ member ∈ given, member.2.isKeepable level.room = true)
    (hrevised : ∀ member ∈ revised, member.2.isKeepable level.room = true) :
    record.readNamed level revised = record.readNamed level given := by
  induction record generalizing slots with
  | nil => rfl
  | cons head tail ih =>
      cases slots with
      | nil => exact hobeys.elim
      | cons slot slots =>
          obtain ⟨hhead, htail⟩ := hobeys
          obtain ⟨hfirst, hlater⟩ := List.forall_mem_cons.1 h
          rw [readNamed, readNamed, Field.readNamed_revised hhead hfirst hgiven hrevised,
            ih htail hlater]

theorem ignores_read (hobeys : ∀ level, record.Obeys level slots)
    (hnames : (slots.map Slot.name).Nodup) :
    Ignores record.read (.record slots) := by
  intro level json other hrevised hjson hother
  cases hrevised with
  | same => rfl
  | @record _ given kept added revised hkept horder hadded =>
      obtain ⟨hroom, hjson⟩ := keepable_members hjson
      obtain ⟨-, hother⟩ := keepable_members hother
      have halike := (hkept.alike hnames).reorder horder hadded
      have hread : record.readNamed level.inner revised = record.readNamed level.inner given :=
        readNamed_revised (hobeys _) halike hjson hother
      exact (if_neg hroom.ne').trans (hread.trans (if_neg hroom.ne').symm)

/-- A type whose values are made from those of a record. -/
theorem ignores_packed (record : Record α) {read : Reader β} {finish : α → Option β}
    (hobeys : ∀ level, record.Obeys level slots) (hnames : (slots.map Slot.name).Nodup)
    (hread : ∀ level json, read level json = (record.read level json).bind finish) :
    Ignores read (.record slots) := by
  intro level json other hrevised hjson hother
  rw [hread, hread, ignores_read hobeys hnames level hrevised hjson hother]

end Record

/-! ## Tagged values -/

theorem Family.variants_names : ∀ family : Family, ∀ variant ∈ family.variants,
    tagName ∉ variant.2.map Slot.name ∧ (variant.2.map Slot.name).Nodup
  | .action => by decide
  | .effect => by decide
  | .trigger => by decide

/-- The members beside the tag. -/
abbrev besides (members : List (String × Json)) : List (String × Json) :=
  members.filter (·.1 ≠ tagName)

theorem named_besides {name : String} (h : name ≠ tagName) (members : List (String × Json)) :
    named name (besides members) = named name members := by
  rw [named, besides, List.filter_filter]
  refine List.filter_congr fun member _ => ?_
  by_cases heq : member.1 = name
  · simp [heq, h]
  · simp [heq]

theorem Alike.tagged {tag : Json} (h : Alike slots given kept)
    (htag : tagName ∉ slots.map Slot.name) :
    Alike slots ((tagName, tag) :: given) ((tagName, tag) :: kept) := by
  intro slot hslot
  have hne : tagName ≠ slot.name := fun heq => htag (heq ▸ List.mem_map_of_mem hslot)
  rw [named_cons_of_ne hne, named_cons_of_ne hne]
  exact h slot hslot

theorem Alike.besides (h : Alike slots given revised) (htag : tagName ∉ slots.map Slot.name) :
    Alike slots (Wire.besides given) (Wire.besides revised) := by
  intro slot hslot
  have hne : slot.name ≠ tagName := fun heq => htag (heq ▸ List.mem_map_of_mem hslot)
  rw [named_besides hne, named_besides hne]
  exact h slot hslot

theorem untag_obj {words : List String} {word : String} {members : List (String × Json)}
    (hword : word ∈ words) (htag : named tagName members = [(tagName, .str word)])
    (hkeepable : (Json.obj members).isKeepable level.room = true) :
    untag words level (.obj members) = some (word, .named (besides members)) := by
  have hkept : (level.kept || (Json.obj members).isKeepable level.room) = true := by
    rw [hkeepable, Bool.or_true]
  have hfound : tagWord? words level.kept (.str word) = some word := if_pos hword
  unfold named at htag
  refine (if_pos hkept).trans ?_
  dsimp only
  rw [htag]
  dsimp only
  rw [hfound]
  rfl

/-- The kind of a tagged value is found wherever the tag stands, and with it what is left. -/
theorem untag_revised {words : List String} {family : Family}
    (hwords : ∀ variant ∈ family.variants, variant.1 ∈ words)
    (hrevised : Revised (.tagged family) json other) (hjson : json.isKeepable level.room = true)
    (hother : other.isKeepable level.room = true) :
    other = json ∨ ∃ variant ∈ family.variants, ∃ before after,
      untag words level json = some (variant.1, .named before) ∧
        untag words level other = some (variant.1, .named after) ∧
          Alike variant.2 before after ∧
            (∀ member ∈ before, member.2.isKeepable level.within.room = true) ∧
              ∀ member ∈ after, member.2.isKeepable level.within.room = true := by
  cases hrevised with
  | same => exact Or.inl rfl
  | @tagged _ word slots given kept added revised hvariant hkept horder hadded =>
      obtain ⟨htag, hnames⟩ := family.variants_names _ hvariant
      have hword := hwords _ hvariant
      have hbeside : Alike slots ((tagName, .str word) :: given) ((tagName, .str word) :: kept) :=
        (hkept.alike hnames).tagged htag
      have hunknown : Unknown (slots.map Slot.name) added := fun member hmember =>
        ⟨fun hname => (hadded member hmember).1 (List.mem_cons_of_mem _ hname),
          (hadded member hmember).2⟩
      have halike := (hbeside.reorder horder hunknown).besides htag
      have hnone {members : List (String × Json)}
          (h : ∀ member ∈ members, member.1 ∈ slots.map Slot.name) : named tagName members = [] :=
        named_eq_nil fun member hmember heq => htag (heq ▸ h member hmember)
      have hfirst : named tagName ((tagName, .str word) :: given) = [(tagName, .str word)] := by
        rw [named_cons_self, hnone hkept.names.1]
      have hlater : named tagName revised = [(tagName, .str word)] := by
        have hadded : named tagName added = [] := named_eq_nil fun member hmember heq =>
          (hadded member hmember).1 (heq ▸ List.mem_cons_self)
        have hperm : (named tagName revised).Perm
            (named tagName ((tagName, .str word) :: (kept ++ added))) := horder.filter _
        rw [named_cons_self, named_append, hnone hkept.names.2, hadded] at hperm
        exact List.perm_singleton.1 hperm
      refine Or.inr ⟨_, hvariant, _, _, untag_obj hword hfirst hjson,
        untag_obj hword hlater hother, halike, fun member hmember => ?_, fun member hmember => ?_⟩
      · exact (keepable_members hjson).2 member (List.mem_filter.1 hmember).1
      · exact (keepable_members hother).2 member (List.mem_filter.1 hmember).1

/-! ## Values that are kept to be looked at later -/

/-- What was kept, if anything was. -/
def whenGiven (f : Json → Option α) : Option Json → Option (Option α)
  | none => some none
  | some json => (f json).map some

namespace Field

/-- A value that is kept and looked at afterwards might as well be looked at as it is read. -/
theorem readNamed_raw (name : String) (f : Json → Option α) (members : List (String × Json)) :
    ((required name .raw id).readNamed level members).bind f =
      (required name (fun _ => f) fun _ => .null).readNamed level members := by
  unfold readNamed occurrences required
  dsimp only
  cases members.filter (·.1 = name) with
  | nil => rfl
  | cons first rest => cases rest <;> rfl

/-- The same of a value that may be absent. -/
theorem readNamed_rawOptional (name : String) (f : Json → Option α)
    (members : List (String × Json)) :
    ((optional name .raw id).readNamed level members).bind (whenGiven f) =
      (optional name (fun _ => f) fun _ => .null).readNamed level members := by
  unfold readNamed occurrences optional
  dsimp only
  cases members.filter (·.1 = name) with
  | nil => rfl
  | cons first rest =>
      cases rest with
      | nil =>
          dsimp only
          by_cases hnull : first.2 = .null
          · rw [hnull]
            rfl
          · rw [nullable_of_ne hnull, nullable_of_ne hnull]
            rfl
      | cons second rest => rfl

end Field

end ProgramQueue.Wire
