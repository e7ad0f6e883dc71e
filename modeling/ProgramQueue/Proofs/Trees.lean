import Mathlib.Data.String.Basic
import ProgramQueue.Json.Normal

/-!
# Parts of JSON trees

What holds of every scalar in a tree, how deep the parts nest, and what becomes of them in
normal form.
-/

namespace ProgramQueue.Json

variable {holds other : Json → Prop} {json : Json} {items : List Json}
  {members : List (String × Json)} {name : String} {n : Nat}

/-- Every part that is neither an array nor an object has a property. -/
inductive Throughout (holds : Json → Prop) : Json → Prop
  | scalar {json : Json} (hflat : json.depth = 0) (h : holds json) : Throughout holds json
  | arr {items : List Json} (h : ∀ item ∈ items, Throughout holds item) :
      Throughout holds (.arr items)
  | obj {members : List (String × Json)} (h : ∀ member ∈ members, Throughout holds member.2) :
      Throughout holds (.obj members)

mutual

/-- An induction on this is one on the tree. -/
theorem throughout_any : ∀ json : Json, json.Throughout fun _ => True
  | .null | .bool _ | .int _ | .float _ | .str _ | .unreadable => .scalar rfl trivial
  | .arr items => .arr (items_any items)
  | .obj members => .obj (members_any members)

theorem items_any : ∀ items : List Json, ∀ item ∈ items, item.Throughout fun _ => True
  | [] => List.forall_mem_nil _
  | item :: rest => List.forall_mem_cons.2 ⟨throughout_any item, items_any rest⟩

theorem members_any : ∀ members : List (String × Json), ∀ member ∈ members,
    member.2.Throughout fun _ => True
  | [] => List.forall_mem_nil _
  | (_, value) :: rest => List.forall_mem_cons.2 ⟨throughout_any value, members_any rest⟩

end

theorem Throughout.imp (h : json.Throughout holds) (himp : ∀ json, holds json → other json) :
    json.Throughout other := by
  induction h with
  | scalar hflat h => exact .scalar hflat (himp _ h)
  | arr _ ih => exact .arr ih
  | obj _ ih => exact .obj ih

@[simp]
theorem throughout_arr :
    (arr items).Throughout holds ↔ ∀ item ∈ items, item.Throughout holds := by
  constructor
  · intro h
    cases h with
    | scalar hflat => simp [depth] at hflat
    | arr h => exact h
  · exact .arr

@[simp]
theorem throughout_obj :
    (obj members).Throughout holds ↔ ∀ member ∈ members, member.2.Throughout holds := by
  constructor
  · intro h
    cases h with
    | scalar hflat => simp [depth] at hflat
    | obj h => exact h
  · exact .obj

theorem throughout_scalar (hflat : json.depth = 0) : json.Throughout holds ↔ holds json := by
  constructor
  · intro h
    cases h with
    | scalar _ h => exact h
    | arr => simp [depth] at hflat
    | obj => simp [depth] at hflat
  · exact .scalar hflat

theorem Throughout.and (h : json.Throughout holds) (h' : json.Throughout other) :
    json.Throughout fun json => holds json ∧ other json := by
  induction h with
  | scalar hflat h => exact .scalar hflat ⟨h, (throughout_scalar hflat).1 h'⟩
  | arr _ ih => exact .arr fun item hitem => ih item hitem (throughout_arr.1 h' item hitem)
  | obj _ ih =>
      exact .obj fun member hmember => ih member hmember (throughout_obj.1 h' member hmember)

/-! ## Depths -/

theorem depthOfItems_le : depthOfItems items ≤ n ↔ ∀ item ∈ items, item.depth ≤ n := by
  induction items with
  | nil => simp [depthOfItems]
  | cons item rest ih => rw [depthOfItems, Nat.max_le, ih, List.forall_mem_cons]

theorem depthOfMembers_le :
    depthOfMembers members ≤ n ↔ ∀ member ∈ members, member.2.depth ≤ n := by
  induction members with
  | nil => simp [depthOfMembers]
  | cons member rest ih =>
      obtain ⟨name, value⟩ := member
      rw [depthOfMembers, Nat.max_le, ih, List.forall_mem_cons]

/-! ## Readable trees -/

/-- A part that denotes a value. -/
def IsDenoting : Json → Prop
  | .unreadable => False
  | _ => True

theorem allReadable_iff : allReadable items = true ↔ ∀ item ∈ items, item.isReadable = true := by
  induction items with
  | nil => simp [allReadable]
  | cons item rest ih => rw [allReadable, Bool.and_eq_true, ih, List.forall_mem_cons]

theorem membersReadable_iff :
    membersReadable members = true ↔ ∀ member ∈ members, member.2.isReadable = true := by
  induction members with
  | nil => simp [membersReadable]
  | cons member rest ih =>
      obtain ⟨name, value⟩ := member
      rw [membersReadable, Bool.and_eq_true, ih, List.forall_mem_cons]

theorem isReadable_iff (json : Json) : json.isReadable = true ↔ json.Throughout IsDenoting := by
  induction json.throughout_any with
  | @scalar json hflat =>
      rw [throughout_scalar hflat]
      cases json with
      | arr => simp [depth] at hflat
      | obj => simp [depth] at hflat
      | unreadable => simp [isReadable, IsDenoting]
      | _ => simp [isReadable, IsDenoting]
  | @arr items _ ih =>
      rw [isReadable, allReadable_iff, throughout_arr]
      exact forall₂_congr ih
  | @obj members _ ih =>
      rw [isReadable, membersReadable_iff, throughout_obj]
      exact forall₂_congr ih

/-! ## Normal forms -/

/-- Names in order, none of them twice. -/
def InOrder (members : List (String × Json)) : Prop :=
  members.Pairwise fun first later => first.1 < later.1

theorem mem_placeMember {value : Json} {member : String × Json}
    (h : member ∈ placeMember name value members) : member = (name, value) ∨ member ∈ members := by
  induction members with
  | nil => exact Or.inl (List.mem_singleton.1 h)
  | cons first rest ih =>
      obtain ⟨other, kept⟩ := first
      rw [placeMember] at h
      split at h
      · exact (List.mem_cons.1 h)
      split at h
      · exact (List.mem_cons.1 h).imp_right (List.mem_cons_of_mem _)
      · rcases List.mem_cons.1 h with rfl | hrest
        · exact Or.inr List.mem_cons_self
        · exact (ih hrest).imp_right (List.mem_cons_of_mem _)

theorem inOrder_placeMember (h : InOrder members) (value : Json) :
    InOrder (placeMember name value members) := by
  induction members with
  | nil => exact List.pairwise_singleton _ _
  | cons first rest ih =>
      obtain ⟨other, kept⟩ := first
      obtain ⟨hfirst, hrest⟩ := List.pairwise_cons.1 h
      rw [placeMember]
      split
      · rename_i hless
        refine List.pairwise_cons.2 ⟨List.forall_mem_cons.2 ⟨hless, fun member hmember => ?_⟩, h⟩
        exact lt_trans hless (hfirst member hmember)
      split
      · rename_i heq
        exact List.pairwise_cons.2 ⟨heq ▸ hfirst, hrest⟩
      · rename_i hless hne
        refine List.pairwise_cons.2 ⟨fun member hmember => ?_, ih hrest⟩
        rcases mem_placeMember hmember with rfl | hrest
        · exact lt_of_le_of_ne (not_lt.1 hless) (Ne.symm hne)
        · exact hfirst member hrest

theorem inOrder_normalMembers (members : List (String × Json)) :
    InOrder (normalMembers members) := by
  induction members with
  | nil => exact List.Pairwise.nil
  | cons first rest ih =>
      obtain ⟨name, value⟩ := first
      rw [normalMembers]
      split
      · exact ih
      · exact inOrder_placeMember ih _

/-- Nothing is in normal form that is not the normal form of something that was there. -/
theorem mem_normalMembers {member : String × Json} (h : member ∈ normalMembers members) :
    ∃ given ∈ members, member.2 = given.2.normal := by
  induction members with
  | nil => cases h
  | cons first rest ih =>
      obtain ⟨name, value⟩ := first
      have hlater (h : member ∈ normalMembers rest) :
          ∃ given ∈ (name, value) :: rest, member.2 = given.2.normal := by
        obtain ⟨given, hgiven, heq⟩ := ih h
        exact ⟨given, List.mem_cons_of_mem _ hgiven, heq⟩
      rw [normalMembers] at h
      split at h
      · exact hlater h
      · rcases mem_placeMember h with rfl | hrest
        · exact ⟨_, List.mem_cons_self, rfl⟩
        · exact hlater hrest

theorem normalItems_eq (items : List Json) : normalItems items = items.map normal := by
  induction items with
  | nil => rfl
  | cons item rest ih => rw [normalItems, ih, List.map_cons]

/-- Members in order that are in normal form stay as they are. -/
theorem normalMembers_of_inOrder (h : InOrder members)
    (hnormal : ∀ member ∈ members, member.2.normal = member.2) :
    normalMembers members = members := by
  induction members with
  | nil => rfl
  | cons first rest ih =>
      obtain ⟨name, value⟩ := first
      obtain ⟨hfirst, hrest⟩ := List.pairwise_cons.1 h
      obtain ⟨hvalue, hothers⟩ := List.forall_mem_cons.1 hnormal
      have hnone : (rest.any fun member => decide (member.1 = name)) = false := by
        rw [List.any_eq_false]
        intro member hmember heq
        exact absurd (of_decide_eq_true heq) (ne_of_gt (hfirst member hmember))
      rw [normalMembers, ih hrest hothers]
      rw [hnone, if_neg Bool.false_ne_true, hvalue]
      cases rest with
      | nil => rfl
      | cons next rest =>
          have hless : name < next.1 := hfirst next List.mem_cons_self
          exact if_pos hless

theorem normal_scalar (hflat : json.depth = 0) : json.normal = json := by
  cases json with
  | arr => simp [depth] at hflat
  | obj => simp [depth] at hflat
  | _ => rfl

/-- What is in normal form stays as it is. -/
theorem normal_normal (json : Json) : json.normal.normal = json.normal := by
  induction json.throughout_any with
  | scalar hflat => rw [normal_scalar hflat, normal_scalar hflat]
  | arr _ ih =>
      rw [normal, normal, normalItems_eq, normalItems_eq, List.map_map]
      exact congrArg arr (List.map_congr_left ih)
  | obj _ ih =>
      rw [normal, normal, normalMembers_of_inOrder (inOrder_normalMembers _)]
      intro member hmember
      obtain ⟨given, hgiven, heq⟩ := mem_normalMembers hmember
      rw [heq]
      exact ih given hgiven

theorem Throughout.normal (h : json.Throughout holds) : json.normal.Throughout holds := by
  induction h with
  | scalar hflat h =>
      rw [normal_scalar hflat]
      exact .scalar hflat h
  | arr _ ih =>
      rw [Json.normal, normalItems_eq]
      exact .arr (List.forall_mem_map.2 ih)
  | obj _ ih =>
      rw [Json.normal]
      refine .obj fun member hmember => ?_
      obtain ⟨given, hgiven, heq⟩ := mem_normalMembers hmember
      rw [heq]
      exact ih given hgiven

theorem depth_normal (json : Json) : json.normal.depth ≤ json.depth := by
  induction json.throughout_any with
  | scalar hflat => rw [normal_scalar hflat]
  | arr _ ih =>
      rw [normal, normalItems_eq, depth, depth]
      refine Nat.succ_le_succ (depthOfItems_le.2 (List.forall_mem_map.2 fun item hitem => ?_))
      exact (ih item hitem).trans (depthOfItems_le.1 le_rfl item hitem)
  | obj _ ih =>
      rw [normal, depth, depth]
      refine Nat.succ_le_succ (depthOfMembers_le.2 fun member hmember => ?_)
      obtain ⟨given, hgiven, heq⟩ := mem_normalMembers hmember
      rw [heq]
      exact (ih given hgiven).trans (depthOfMembers_le.1 le_rfl given hgiven)

end ProgramQueue.Json
