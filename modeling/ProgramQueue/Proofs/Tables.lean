import ProgramQueue.Table

/-!
# Looking up in a table

What is found under a key after a value was put under a key or a key was dropped.
-/

namespace ProgramQueue.Table

variable {α : Type}

theorem find?_place (key other : String) (value : α) (entries : List (String × α)) :
    ((place key value entries).find? (·.1 = other)).map Prod.snd =
      if other = key then some value else (entries.find? (·.1 = other)).map Prod.snd := by
  induction entries with
  | nil =>
      by_cases h : key = other
      · simp [place, h]
      · simp [place, h, Ne.symm h]
  | cons entry rest ih =>
      obtain ⟨present, kept⟩ := entry
      rw [place]
      split
      · by_cases h : key = other
        · simp [h]
        · simp [h, Ne.symm h]
      · split
        · rename_i heq
          subst heq
          by_cases h : key = other
          · simp [h]
          · simp [h, Ne.symm h]
        · rename_i hne
          by_cases h : present = other
          · subst h
            simp [Ne.symm hne]
          · simp only [List.find?_cons, h, decide_false, ih]

theorem find?_insert (table : Table α) (key other : String) (value : α) :
    (table.insert key value).find? other =
      if other = key then some value else table.find? other :=
  find?_place key other value table.entries

theorem find?_erase (table : Table α) (key other : String) :
    (table.erase key).find? other = if other = key then none else table.find? other := by
  unfold find? erase filter
  rw [List.find?_filter]
  by_cases h : other = key
  · subst h
    rw [if_pos rfl, Option.map_eq_none_iff, List.find?_eq_none]
    intro entry _
    simp
  · rw [if_neg h]
    congr 2
    funext entry
    by_cases hentry : entry.1 = other
    · simp [hentry, h]
    · simp [hentry]

/-- Every entry is what is found under its key. -/
theorem find?_of_mem {table : Table α} {key : String} {value : α}
    (h : (key, value) ∈ table.entries) : table.find? key = some value := by
  obtain ⟨entries, sorted⟩ := table
  induction sorted with
  | nil => cases h
  | @cons entry rest hlt hsorted ih =>
      obtain heq | hrest := List.mem_cons.1 h
      · subst heq
        simp [find?]
      · have hne : entry.1 ≠ key := fun heq =>
          absurd (hlt _ hrest) (heq ▸ String.lt_irrefl _)
        have := ih hrest
        simp only [find?] at this ⊢
        rw [List.find?_cons, decide_eq_false hne]
        exact this

/-- What is found under a key is an entry. -/
theorem mem_of_find? {table : Table α} {key : String} {value : α}
    (h : table.find? key = some value) : (key, value) ∈ table.entries := by
  obtain ⟨entry, hentry, rfl⟩ := Option.map_eq_some_iff.1 h
  have hkey : entry.1 = key := by simpa using List.find?_some hentry
  exact hkey ▸ List.mem_of_find?_eq_some hentry

theorem find?_iff_mem (table : Table α) (key : String) (value : α) :
    table.find? key = some value ↔ (key, value) ∈ table.entries :=
  ⟨mem_of_find?, find?_of_mem⟩

/-- A test that lets the entry of a key pass does not hide it. -/
theorem find?_filter_of {table : Table α} {key : String} {value : α} {keep : String × α → Bool}
    (hfound : table.find? key = some value) (hkeep : keep (key, value) = true) :
    (table.filter keep).find? key = some value := by
  apply find?_of_mem
  exact List.mem_filter.2 ⟨mem_of_find? hfound, hkeep⟩

/-- What is found after a test was found before it and passes it. -/
theorem find?_of_filter {table : Table α} {key : String} {value : α} {keep : String × α → Bool}
    (h : (table.filter keep).find? key = some value) :
    table.find? key = some value ∧ keep (key, value) = true := by
  obtain ⟨hmem, hkeep⟩ := List.mem_filter.1 (mem_of_find? h)
  exact ⟨find?_of_mem hmem, hkeep⟩

/-- There is one entry for a key at most. -/
theorem filter_key (table : Table α) (key : String) :
    table.entries.filter (·.1 = key) = ((table.find? key).map fun value => (key, value)).toList := by
  obtain ⟨entries, sorted⟩ := table
  induction sorted with
  | nil => rfl
  | @cons entry rest hlt hsorted ih =>
      simp only [find?] at ih ⊢
      rw [List.filter_cons, List.find?_cons]
      by_cases hkey : entry.1 = key
      · have hothers : rest.filter (·.1 = key) = [] := by
          refine List.filter_eq_nil_iff.2 fun other hother heq => ?_
          have hother := hlt other hother
          rw [hkey, of_decide_eq_true heq] at hother
          exact String.lt_irrefl _ hother
        subst hkey
        simp [hothers]
      · simp only [hkey, decide_false, Bool.false_eq_true, if_false, ih]

/-- Tables in which the same is found under every key are the same. -/
theorem ext_find? {table other : Table α} (h : ∀ key, table.find? key = other.find? key) :
    table = other := by
  have hnodup (table : Table α) : table.entries.Nodup := by
    refine List.Pairwise.imp (fun {first later} hlt heq => ?_) table.sorted
    rw [heq] at hlt
    exact String.lt_irrefl _ hlt
  have hmem (entry : String × α) : entry ∈ table.entries ↔ entry ∈ other.entries := by
    constructor
    · exact fun hentry => mem_of_find? ((h _).symm.trans (find?_of_mem hentry))
    · exact fun hentry => mem_of_find? ((h _).trans (find?_of_mem hentry))
  have hperm := (List.perm_ext_iff_of_nodup (hnodup table) (hnodup other)).2 hmem
  have hentries : table.entries = other.entries :=
    hperm.eq_of_pairwise (fun _ _ _ _ hlt hgt => (String.lt_irrefl _ (String.lt_trans hlt hgt)).elim)
      table.sorted other.sorted
  obtain ⟨entries, sorted⟩ := table
  obtain rfl := hentries
  rfl

theorem filter_congr {table : Table α} {keep other : String × α → Bool}
    (h : ∀ entry ∈ table.entries, keep entry = other entry) :
    table.filter keep = table.filter other := by
  obtain ⟨entries, sorted⟩ := table
  rw [filter, Table.mk.injEq]
  exact List.filter_congr h

/-- Keys that are dropped one after the other are not there. -/
theorem foldl_erase (table : Table α) (keys : List String) :
    keys.foldl erase table = table.filter fun entry => !keys.contains entry.1 := by
  induction keys generalizing table with
  | nil =>
      obtain ⟨entries, sorted⟩ := table
      rw [filter, Table.mk.injEq]
      exact (List.filter_eq_self.2 fun _ _ => rfl).symm
  | cons first rest ih =>
      rw [List.foldl_cons, ih, erase, filter, filter, filter, Table.mk.injEq, List.filter_filter]
      refine List.filter_congr fun entry _ => ?_
      rw [List.contains_cons, Bool.not_or, Bool.and_comm]
      rfl

/-- Dropping the keys of all entries that a test finds leaves those that it does not find. -/
theorem foldl_erase_keys (table : Table α) (test : String × α → Bool) :
    ((table.entries.filter test).map Prod.fst).foldl erase table =
      table.filter fun entry => !test entry := by
  rw [foldl_erase]
  refine filter_congr fun entry hentry => congrArg (!·) (Bool.eq_iff_iff.2 ?_)
  rw [List.contains_iff_mem, List.mem_map]
  constructor
  · rintro ⟨⟨key, value⟩, hfound, rfl⟩
    obtain ⟨hmem, htest⟩ := List.mem_filter.1 hfound
    have hagain : table.find? entry.1 = some entry.2 := find?_of_mem hentry
    obtain rfl := Option.some.inj ((find?_of_mem hmem).symm.trans hagain)
    exact htest
  · exact fun htest => ⟨entry, List.mem_filter.2 ⟨hentry, htest⟩, rfl⟩

/-- It makes no difference whether a key is dropped before or after something is put under
another. -/
theorem erase_insert (table : Table α) {key other : String} (hne : other ≠ key) (value : α) :
    (table.insert other value).erase key = (table.erase key).insert other value := by
  refine ext_find? fun name => ?_
  rw [find?_erase, find?_insert, find?_insert, find?_erase]
  by_cases hkey : name = key
  · rw [if_pos hkey, if_neg (hkey ▸ hne.symm), if_pos hkey]
  · rw [if_neg hkey, if_neg hkey]

end ProgramQueue.Table
