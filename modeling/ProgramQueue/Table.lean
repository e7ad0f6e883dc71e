/-!
# Tables keyed by text

A table holds at most one value for each key, in ascending order of the keys.
The order is part of the type, so a list of the entries is always sorted and
never names a key twice.
-/

namespace ProgramQueue

/-- Values by key, in ascending order of the keys. -/
structure Table (α : Type) where
  entries : List (String × α)
  sorted : entries.Pairwise fun a b => a.1 < b.1
deriving DecidableEq

namespace Table

variable {α β : Type}

def empty : Table α := ⟨[], .nil⟩

instance : Inhabited (Table α) := ⟨empty⟩

/-- The value for a key. -/
def find? (table : Table α) (key : String) : Option α :=
  (table.entries.find? (·.1 = key)).map Prod.snd

def contains (table : Table α) (key : String) : Bool := (table.find? key).isSome

def keys (table : Table α) : List String := table.entries.map Prod.fst

def values (table : Table α) : List α := table.entries.map Prod.snd

/-! ## Putting a value in its place -/

/-- Puts an entry before the first one with a greater key, in place of one with
the same key. -/
def place (key : String) (value : α) : List (String × α) → List (String × α)
  | [] => [(key, value)]
  | (other, kept) :: rest =>
      if key < other then (key, value) :: (other, kept) :: rest
      else if key = other then (key, value) :: rest
      else (other, kept) :: place key value rest

theorem mem_place {key : String} {value : α} {entry : String × α} :
    {entries : List (String × α)} →
      entry ∈ place key value entries → entry = (key, value) ∨ entry ∈ entries
  | [], h => by
      simp only [place, List.mem_singleton] at h
      exact Or.inl h
  | (other, kept) :: rest, h => by
      unfold place at h
      split at h
      · exact List.mem_cons.1 h
      · split at h
        · rcases List.mem_cons.1 h with h | h
          · exact Or.inl h
          · exact Or.inr (List.mem_cons_of_mem _ h)
        · rcases List.mem_cons.1 h with h | h
          · exact Or.inr (h ▸ List.mem_cons_self)
          · rcases mem_place h with h | h
            · exact Or.inl h
            · exact Or.inr (List.mem_cons_of_mem _ h)

/-- Of two different keys of which the first is not less, the second is. -/
theorem lt_of_not_lt {a b : String} (h : ¬a < b) (hne : a ≠ b) : b < a :=
  Decidable.byContradiction fun hba =>
    hne (String.le_antisymm (String.not_lt.1 hba) (String.not_lt.1 h))

theorem place_sorted (key : String) (value : α) :
    (entries : List (String × α)) →
      (entries.Pairwise fun a b => a.1 < b.1) →
      (place key value entries).Pairwise fun a b => a.1 < b.1
  | [], _ => List.pairwise_singleton _ _
  | (other, kept) :: rest, h => by
      have hrest := List.pairwise_cons.1 h
      unfold place
      split
      · rename_i hlt
        refine List.pairwise_cons.2 ⟨fun entry hentry => ?_, h⟩
        rcases List.mem_cons.1 hentry with rfl | hmem
        · exact hlt
        · exact String.lt_trans hlt (hrest.1 entry hmem)
      · split
        · rename_i heq
          refine List.pairwise_cons.2 ⟨fun entry hentry => ?_, hrest.2⟩
          exact heq ▸ hrest.1 entry hentry
        · rename_i hlt hne
          refine List.pairwise_cons.2
            ⟨fun entry hentry => ?_, place_sorted key value rest hrest.2⟩
          rcases mem_place hentry with rfl | hmem
          · exact lt_of_not_lt hlt hne
          · exact hrest.1 entry hmem

/-- The table with a value for a key, in place of one that it had. -/
def insert (table : Table α) (key : String) (value : α) : Table α :=
  ⟨place key value table.entries, place_sorted key value _ table.sorted⟩

/-- The table without the entries that a test refuses. -/
def filter (table : Table α) (keep : String × α → Bool) : Table α :=
  ⟨table.entries.filter keep, table.sorted.filter keep⟩

/-- The table without a key. -/
def erase (table : Table α) (key : String) : Table α :=
  table.filter fun entry => entry.1 != key

/-- The table of some entries, of which a later one takes the place of an earlier
one with the same key. -/
def ofList (entries : List (String × α)) : Table α :=
  entries.foldl (fun table entry => table.insert entry.1 entry.2) empty

end Table

end ProgramQueue
