import ProgramQueue.Json.Printer
import ProgramQueue.Json.Reader
import ProgramQueue.Proofs.Trees

/-!
# Trees read back from their texts

A tree that holds neither a double nor an unreadable part, and no integer beyond 64 bits,
is read back from its text.  The budget of the reader is the length of the text, which
every value, item and member uses up at least as fast as it makes calls.
-/

namespace ProgramQueue

/-- What is in a list that was read item by item was read from one of the items. -/
theorem mem_of_mapM {α β : Type} {f : α → Option β} {items : List α} {values : List β}
    (h : items.mapM f = some values) : ∀ value ∈ values, ∃ item ∈ items, f item = some value := by
  induction items generalizing values with
  | nil =>
      cases h
      exact List.forall_mem_nil _
  | cons item items ih =>
      rw [List.mapM_cons] at h
      obtain ⟨first, hfirst, h⟩ := Option.bind_eq_some_iff.1 h
      obtain ⟨later, hlater, h⟩ := Option.bind_eq_some_iff.1 h
      cases h
      refine List.forall_mem_cons.2 ⟨⟨item, List.mem_cons_self, hfirst⟩, fun value hvalue => ?_⟩
      obtain ⟨other, hother, heq⟩ := ih hlater value hvalue
      exact ⟨other, List.mem_cons_of_mem _ hother, heq⟩

namespace Json

variable {c : Char} {n : Nat} {json : Json} {rest tail : List Char}

/-! ## Strings -/

theorem hexValue_digit (h : n < 16) : Hex.value? (Hex.digit n) = some n := by
  revert n
  decide

theorem units_short {letter : Char} (hletter : shortEscape? letter = some c) (rest : List Char) :
    units ('\\' :: letter :: rest) = (units rest).map fun read => (c.toNat :: read.1, read.2) := by
  rw [units.eq_def]
  split
  · simp_all
  · rename_i heq
    cases heq
    cases hletter
  · rename_i heq
    cases heq
    rw [hletter]
    cases units rest <;> rfl
  · rename_i hother heq
    cases heq
    exact absurd rfl (hother _ _ rfl)
  · contradiction

/-- A character is read back from the way it is written in a string. -/
theorem units_escape (c : Char) (rest : List Char) :
    units (escape c ++ rest) = (units rest).map fun read => (c.toNat :: read.1, read.2) := by
  unfold escape
  repeat
    split
    · subst_vars
      exact units_short rfl rest
  split
  · -- four digits, of which the last two tell the character
    have hhigh : Hex.value? (Hex.digit (c.toNat / 16)) = some (c.toNat / 16) :=
      hexValue_digit (by omega)
    have hlow : Hex.value? (Hex.digit (c.toNat % 16)) = some (c.toNat % 16) :=
      hexValue_digit (by omega)
    have hunit : hexUnit? '0' '0' (Hex.digit (c.toNat / 16)) (Hex.digit (c.toNat % 16)) =
        some c.toNat := by
      have hzero : Hex.value? '0' = some 0 := rfl
      have hsum : ((0 * 16 + 0) * 16 + c.toNat / 16) * 16 + c.toNat % 16 = c.toNat := by omega
      rw [hexUnit?, hzero, hhigh, hlow]
      exact congrArg some hsum
    rw [List.cons_append, List.cons_append, List.cons_append, List.cons_append, List.cons_append,
      List.cons_append, List.nil_append, units, hunit]
    cases units rest <;> rfl
  · rename_i hquote hbackslash _ _ _ _ _ hplain
    have hkept : ¬(c.toNat < 0x20 ∨ c = '\\') := by
      rintro (hcontrol | heq)
      · exact hplain hcontrol
      · exact hbackslash heq
    rw [List.cons_append, List.nil_append, units.eq_def]
    split
    · simp_all
    · simp_all
    · simp_all
    · rename_i heq
      cases heq
      rw [if_neg hkept]
      cases units rest <;> rfl
    · contradiction

theorem units_quoted (text : List Char) (rest : List Char) :
    units (text.flatMap escape ++ '"' :: rest) = some (text.map Char.toNat, rest) := by
  induction text with
  | nil => rfl
  | cons c text ih =>
      rw [List.flatMap_cons, List.append_assoc, units_escape, ih]
      rfl

/-- No character is half of a surrogate pair. -/
theorem not_surrogate (c : Char) :
    isHighSurrogate c.toNat = false ∧ isLowSurrogate c.toNat = false := by
  have hvalid : c.toNat < 0xD800 ∨ 0xDFFF < c.toNat := c.valid.imp_right And.left
  unfold isHighSurrogate isLowSurrogate
  constructor
  all_goals
    simp only [Bool.and_eq_false_iff, decide_eq_false_iff_not]
    omega

theorem charsOfUnits_toNat (text : List Char) :
    charsOfUnits (text.map Char.toNat) = some text := by
  induction text with
  | nil => rfl
  | cons c text ih =>
      obtain ⟨hhigh, hlow⟩ := not_surrogate c
      cases text with
      | nil => simp [charsOfUnits, hhigh, hlow]
      | cons next text =>
          rw [List.map_cons, List.map_cons, charsOfUnits, ← List.map_cons, ih]
          simp [hhigh, hlow]

theorem stringBody_quoted (text : String) (rest : List Char) :
    stringBody (text.toList.flatMap escape ++ '"' :: rest) = some (some text, rest) := by
  rw [stringBody, units_quoted]
  simp [charsOfUnits_toNat]

/-! ## Integers -/

/-- A text that does not go on with what could be part of a number. -/
def Ends : List Char → Prop
  | [] => True
  | c :: _ => isDigit c = false ∧ c ≠ '.' ∧ c ≠ 'e' ∧ c ≠ 'E'

theorem isDigit_eq (c : Char) : isDigit c = c.isDigit := by
  simp [isDigit, Char.isDigit, Char.le_def]

theorem isDigit_toDigits (h : c ∈ Nat.toDigits 10 n) : isDigit c = true := by
  rw [isDigit_eq]
  exact Nat.isDigit_of_mem_toDigits (by decide) (by decide) h

theorem Ends.head (h : Ends rest) : ∀ c ∈ rest.head?, isDigit c = false := by
  cases rest with
  | nil => nofun
  | cons first rest =>
      intro c hc
      obtain rfl := Option.some.inj hc
      exact h.1

theorem spanDigits_append {digits : List Char} (hdigits : ∀ c ∈ digits, isDigit c = true)
    (hrest : ∀ c ∈ rest.head?, isDigit c = false) :
    spanDigits (digits ++ rest) = (digits, rest) := by
  have htake : rest.takeWhile isDigit = [] ∧ rest.dropWhile isDigit = rest := by
    cases rest with
    | nil => exact ⟨rfl, rfl⟩
    | cons c rest => simp [hrest c rfl]
  rw [spanDigits, List.takeWhile_append_of_pos hdigits, List.dropWhile_append_of_pos hdigits,
    htake.1, htake.2, List.append_nil]

theorem natOfDigits_toDigits (n : Nat) : natOfDigits (Nat.toDigits 10 n) = n := by
  have hfold (digits : List Char) (total : Nat) :
      digits.foldl (fun total c => total * 10 + Decimal.digitValue c) total =
        Nat.ofDigitChars 10 digits total := by
    induction digits generalizing total with
    | nil => rfl
    | cons c digits ih =>
        rw [List.foldl_cons, ih, Nat.mul_comm total]
        rfl
  rw [natOfDigits, hfold, Nat.ofDigitChars_ten_toDigits]

/-- Only zero is written with a zero in front. -/
theorem toDigits_head {digits : List Char} (h : Nat.toDigits 10 n = '0' :: digits) :
    digits = [] := by
  induction n using Nat.strongRecOn generalizing digits with
  | ind n ih =>
    by_cases hsmall : n < 10
    · rw [Nat.toDigits_of_lt_base hsmall] at h
      exact (List.cons.inj h).2.symm
    · rw [Nat.toDigits_of_base_le (by decide) (by omega)] at h
      cases hfront : Nat.toDigits 10 (n / 10) with
      | nil => exact absurd hfront Nat.toDigits_ne_nil
      | cons first front =>
          rw [hfront] at h
          obtain ⟨rfl, -⟩ := List.cons.inj h
          obtain rfl := ih (n / 10) (by omega) hfront
          have hzero : n / 10 = 0 := by
            rw [← natOfDigits_toDigits (n / 10), hfront]
            rfl
          omega

/-- The digits of a whole part, of which the first is no zero unless it stands alone. -/
structure IsWhole (digits : List Char) : Prop where
  decimal : ∀ c ∈ digits, isDigit c = true
  nonempty : digits ≠ []
  leading : ∀ {rest}, digits = '0' :: rest → rest = []

theorem isWhole_toDigits (n : Nat) : IsWhole (Nat.toDigits 10 n) :=
  ⟨fun _ => isDigit_toDigits, Nat.toDigits_ne_nil, toDigits_head⟩

theorem wholePart_digits {digits : List Char} (h : IsWhole digits)
    (hrest : ∀ c ∈ rest.head?, isDigit c = false) :
    wholePart? (digits ++ rest) = some (digits, rest) := by
  rw [wholePart?, spanDigits_append h.decimal hrest]
  split
  · rename_i heq
    exact absurd (Prod.mk.inj heq).1 h.nonempty
  · rename_i heq
    cases h.leading (Prod.mk.inj heq).1
  · rfl

theorem unsignedNumber_toDigits (negative : Bool) (n : Nat) (hrest : Ends rest) :
    unsignedNumber negative (Nat.toDigits 10 n ++ rest) =
      some (ofInteger negative (Nat.toDigits 10 n), rest) := by
  have hfraction : fractionPart? rest = some (none, rest) := by
    cases rest with
    | nil => rfl
    | cons c rest =>
        rw [fractionPart?.eq_def]
        split
        · rename_i heq
          cases heq
          exact absurd rfl hrest.2.1
        · rfl
  have hpower : powerPart? rest = some (none, rest) := by
    cases rest with
    | nil => rfl
    | cons c rest => exact if_neg (not_or.2 hrest.2.2)
  simp [unsignedNumber, wholePart_digits (isWhole_toDigits n) hrest.head, hfraction, hpower]

/-- An integer of 64 bits, with a sign or without. -/
def InRange (n : Int) : Prop := -(Nat.pow 2 63 : Nat) ≤ n ∧ n < (Nat.pow 2 64 : Nat)

theorem number_integerChars {n : Int} (hrange : InRange n) (hrest : Ends rest) :
    number (integerChars n ++ rest) = some (.int n, rest) := by
  obtain ⟨hleast, hgreatest⟩ := hrange
  cases n with
  | ofNat n =>
      have hgreatest : (n : Int) < 2 ^ 64 := hgreatest
      have hbound : Nat.pow 2 64 = 2 ^ 64 := rfl
      have hsize : n < Nat.pow 2 64 := by omega
      have hunsigned : number (Nat.toDigits 10 n ++ rest) =
          unsignedNumber false (Nat.toDigits 10 n ++ rest) := by
        rw [number.eq_def]
        split
        · rename_i heq
          cases hdigits : Nat.toDigits 10 n with
          | nil => exact absurd hdigits Nat.toDigits_ne_nil
          | cons c digits =>
              rw [hdigits] at heq
              obtain ⟨rfl, -⟩ := List.cons.inj heq
              have hdigit : isDigit '-' = true :=
                isDigit_toDigits (hdigits ▸ List.mem_cons_self)
              cases hdigit
        · rfl
      rw [integerChars, hunsigned, unsignedNumber_toDigits false n hrest, ofInteger,
        natOfDigits_toDigits]
      simp [hsize]
  | negSucc n =>
      have hbound : Nat.pow 2 63 = 2 ^ 63 := rfl
      have hsize : n + 1 ≤ Nat.pow 2 63 := by omega
      rw [integerChars, List.cons_append, number, unsignedNumber_toDigits true (n + 1) hrest,
        ofInteger, natOfDigits_toDigits, if_pos ⟨rfl, Nat.succ_pos n, hsize⟩]
      rfl

/-! ## Values -/

/-- No integer beyond 64 bits. -/
def IsSized : Json → Prop
  | .int n => InRange n
  | _ => True

/-- Not a double. -/
def IsFloatless : Json → Prop
  | .float _ => False
  | _ => True

/-- A scalar whose text is read as some scalar. -/
structure IsLegible (json : Json) : Prop where
  sized : json.IsSized
  denoting : json.IsDenoting

/-- A scalar that is read back from its text. -/
structure IsExact (json : Json) : Prop where
  sized : json.IsSized
  floatless : json.IsFloatless
  denoting : json.IsDenoting

theorem IsExact.legible (h : json.IsExact) : json.IsLegible := ⟨h.sized, h.denoting⟩

theorem Throughout.denoting (h : json.Throughout IsExact) : json.Throughout IsDenoting :=
  h.imp fun _ hexact => hexact.denoting

/-- A value is read back from its text, whatever follows that cannot be part of it. -/
def ReadBack (json : Json) : Prop :=
  ∀ budget rest, Ends rest → json.compactChars.length ≤ budget →
    value budget (json.compactChars ++ rest) = some (json, rest)

theorem skipBlanks_cons (h : isBlank c = false) (rest : List Char) :
    skipBlanks (c :: rest) = c :: rest := by
  rw [skipBlanks, List.dropWhile_cons, h]
  rfl

theorem not_blank_of_digit (h : isDigit c = true) : isBlank c = false := by
  rw [← Bool.not_eq_true]
  intro hblank
  simp only [isBlank, Bool.or_eq_true, decide_eq_true_eq] at hblank
  rcases hblank with ((rfl | rfl) | rfl) | rfl <;> cases h

theorem integerChars_head (n : Int) : ∃ c chars, integerChars n = c :: chars ∧
    isBlank c = false ∧ (isDigit c = true ∨ c = '-') := by
  cases n with
  | ofNat n =>
      cases hdigits : Nat.toDigits 10 n with
      | nil => exact absurd hdigits Nat.toDigits_ne_nil
      | cons c chars =>
          have hdigit : isDigit c = true := isDigit_toDigits (hdigits ▸ List.mem_cons_self)
          exact ⟨c, chars, hdigits, not_blank_of_digit hdigit, Or.inl hdigit⟩
  | negSucc n => exact ⟨_, _, rfl, rfl, Or.inr rfl⟩

/-- No value starts with a blank or with a closing bracket. -/
theorem compactChars_head (json : Json) (h : json.Throughout IsExact) :
    ∃ c chars, json.compactChars = c :: chars ∧ isBlank c = false ∧ c ≠ ']' := by
  cases json with
  | null => exact ⟨_, _, rfl, by decide⟩
  | bool value => cases value <;> exact ⟨_, _, rfl, by decide⟩
  | int n =>
      obtain ⟨c, chars, heq, hblank, hfirst⟩ := integerChars_head n
      refine ⟨c, chars, heq, hblank, ?_⟩
      rintro rfl
      rcases hfirst with hdigit | heq
      · cases hdigit
      · cases heq
  | float x =>
      cases h with
      | scalar _ h => exact h.floatless.elim
  | str s => exact ⟨_, _, rfl, by decide⟩
  | arr items => cases items <;> exact ⟨_, _, rfl, by decide⟩
  | obj members =>
      cases members with
      | nil => exact ⟨_, _, rfl, by decide⟩
      | cons member rest => exact ⟨_, _, rfl, by decide⟩
  | unreadable => exact ⟨_, _, rfl, by decide⟩

theorem ends_compactItems (items : List Json) : Ends (compactItems items ++ rest) := by
  cases items <;> exact ⟨by decide, by decide, by decide, by decide⟩

theorem ends_compactMembers (members : List (String × Json)) :
    Ends (compactMembers members ++ rest) := by
  cases members with
  | nil => exact ⟨by decide, by decide, by decide, by decide⟩
  | cons member members => exact ⟨by decide, by decide, by decide, by decide⟩

theorem quoted_append (text : String) (rest : List Char) :
    quoted text ++ rest = '"' :: (text.toList.flatMap escape ++ '"' :: rest) := by
  simp [quoted]

theorem values_compact {item : Json} {items : List Json}
    (hitems : ∀ other ∈ item :: items, other.ReadBack) {budget : Nat}
    (hbudget : (item.compactChars ++ compactItems items).length ≤ budget) (rest : List Char) :
    values budget (item.compactChars ++ (compactItems items ++ rest)) =
      some (item :: items, rest) := by
  induction items generalizing item budget with
  | nil =>
      simp only [compactItems, List.length_append, List.length_singleton] at hbudget
      obtain ⟨budget, rfl⟩ := Nat.exists_eq_add_one.2 (Nat.lt_of_lt_of_le (Nat.succ_pos _) hbudget)
      have hitem := hitems item List.mem_cons_self budget (compactItems [] ++ rest)
        (ends_compactItems []) (by omega)
      rw [values, hitem]
      rfl
  | cons next items ih =>
      simp only [compactItems, List.length_append, List.length_cons] at hbudget
      obtain ⟨budget, rfl⟩ := Nat.exists_eq_add_one.2 (Nat.lt_of_lt_of_le (Nat.succ_pos _) hbudget)
      have hitem := hitems item List.mem_cons_self budget (compactItems (next :: items) ++ rest)
        (ends_compactItems _) (by omega)
      have hrest : values budget (next.compactChars ++ (compactItems items ++ rest)) =
          some (next :: items, rest) :=
        ih (fun other hother => hitems other (List.mem_cons_of_mem _ hother))
          (by simp only [List.length_append]; omega)
      have hcomma : compactItems (next :: items) ++ rest =
          ',' :: (next.compactChars ++ (compactItems items ++ rest)) := by
        simp [compactItems]
      rw [values, hitem, hcomma]
      simp [skipBlanks_cons (show isBlank ',' = false from rfl), hrest]

theorem namedValues_compact {name : String} {item : Json} {members : List (String × Json)}
    (hmembers : ∀ member ∈ (name, item) :: members, member.2.ReadBack) {budget : Nat}
    (hbudget : (quoted name ++ ':' :: (item.compactChars ++ compactMembers members)).length ≤
      budget) (rest : List Char) :
    namedValues budget
        (quoted name ++ ':' :: (item.compactChars ++ (compactMembers members ++ rest))) =
      some (((name, item) :: members).map fun member => (some member.1, member.2), rest) := by
  induction members generalizing name item budget with
  | nil =>
      simp only [compactMembers, List.length_append, List.length_cons, List.length_nil] at hbudget
      obtain ⟨budget, rfl⟩ := Nat.exists_eq_add_one.2 (Nat.lt_of_lt_of_le (Nat.succ_pos _) hbudget)
      have hitem : value budget (item.compactChars ++ '}' :: rest) = some (item, '}' :: rest) :=
        hmembers _ List.mem_cons_self budget _ (ends_compactMembers []) (by dsimp only; omega)
      rw [namedValues, quoted_append, skipBlanks_cons rfl]
      simp [stringBody_quoted, skipBlanks_cons (show isBlank ':' = false from rfl),
        compactMembers, hitem, skipBlanks_cons (show isBlank '}' = false from rfl)]
  | cons next members ih =>
      obtain ⟨nextName, nextItem⟩ := next
      simp only [compactMembers, List.length_append, List.length_cons] at hbudget
      obtain ⟨budget, rfl⟩ := Nat.exists_eq_add_one.2 (Nat.lt_of_lt_of_le (Nat.succ_pos _) hbudget)
      have hitem : value budget (item.compactChars ++
          (compactMembers ((nextName, nextItem) :: members) ++ rest)) =
            some (item, compactMembers ((nextName, nextItem) :: members) ++ rest) :=
        hmembers _ List.mem_cons_self budget _ (ends_compactMembers _) (by dsimp only; omega)
      have hrest : namedValues budget (quoted nextName ++ ':' :: (nextItem.compactChars ++
          (compactMembers members ++ rest))) =
            some (((nextName, nextItem) :: members).map fun member => (some member.1, member.2),
              rest) :=
        ih (fun other hother => hmembers other (List.mem_cons_of_mem _ hother))
          (by simp only [List.length_append, List.length_cons]; omega)
      have hcomma : compactMembers ((nextName, nextItem) :: members) ++ rest =
          ',' :: (quoted nextName ++ ':' :: (nextItem.compactChars ++
            (compactMembers members ++ rest))) := by
        simp [compactMembers]
      rw [hcomma] at hitem ⊢
      rw [namedValues, quoted_append, skipBlanks_cons rfl]
      simp [stringBody_quoted, skipBlanks_cons (show isBlank ':' = false from rfl), hitem,
        skipBlanks_cons (show isBlank ',' = false from rfl), hrest]

/-- What starts with a sign or with a digit is read as a number. -/
theorem value_number {first : Char} (hblank : isBlank first = false)
    (hfirst : isDigit first = true ∨ first = '-') (budget : Nat) (rest : List Char) :
    value (budget + 1) (first :: rest) = number (first :: rest) := by
  rw [value, skipBlanks_cons hblank]
  split
  all_goals
    first
    | rfl
    | rename_i heq
      cases heq
      rcases hfirst with hdigit | heq
      · cases hdigit
      · cases heq

theorem value_bracket (hblank : isBlank c = false) (hclosed : c ≠ ']') (budget : Nat)
    (rest : List Char) : value (budget + 1) ('[' :: c :: rest) =
      (values budget (c :: rest)).map fun read => (.arr read.1, read.2) := by
  rw [value, skipBlanks_cons rfl]
  simp only [skipBlanks_cons hblank]
  split
  · rename_i heq
    exact absurd (List.cons.inj heq).1 hclosed
  · cases values budget (c :: rest) <;> rfl

theorem value_brace (budget : Nat) (rest : List Char) :
    value (budget + 1) ('{' :: '"' :: rest) =
      (namedValues budget ('"' :: rest)).map fun read => (ofMembers read.1, read.2) := by
  have hquote : skipBlanks ('"' :: rest) = '"' :: rest := skipBlanks_cons rfl rest
  rw [value, skipBlanks_cons rfl]
  simp only [hquote]
  split
  · rename_i heq
    cases heq
  · cases namedValues budget ('"' :: rest) <;> rfl

theorem ofMembers_named (members : List (String × Json)) :
    ofMembers (members.map fun member => (some member.1, member.2)) = .obj members := by
  have hnamed : (members.map fun member => (some member.1, member.2)).mapM
      (fun (entry : Option String × Json) => entry.1.map (·, entry.2)) = some members := by
    induction members with
    | nil => rfl
    | cons member members ih =>
        rw [List.map_cons, List.mapM_cons, ih]
        rfl
  rw [ofMembers, hnamed]

/-- Something is always written, so the budget is never used up at once. -/
theorem readBack_of_succ (h : json.Throughout IsExact)
    (hvalue : ∀ budget rest, Ends rest → json.compactChars.length ≤ budget + 1 →
      value (budget + 1) (json.compactChars ++ rest) = some (json, rest)) : json.ReadBack := by
  intro budget rest hends hbudget
  obtain ⟨c, chars, heq, -⟩ := compactChars_head json h
  cases budget with
  | zero => simp [heq] at hbudget
  | succ budget => exact hvalue budget rest hends hbudget

/-- What is read back is what was written. -/
theorem readBack (h : json.Throughout IsExact) : json.ReadBack := by
  -- each bracket takes one off the budget, and it is a character of the text too
  induction h with
  | @scalar json hflat h =>
      refine readBack_of_succ (.scalar hflat h) fun budget rest hends _ => ?_
      cases json with
      | null => simp [value, compactChars, skipBlanks_cons (show isBlank 'n' = false from rfl)]
      | bool flag =>
          cases flag with
          | true => simp [value, compactChars, skipBlanks_cons (show isBlank 't' = false from rfl)]
          | false => simp [value, compactChars, skipBlanks_cons (show isBlank 'f' = false from rfl)]
      | int n =>
          have hnumber : number (integerChars n ++ rest) = some (.int n, rest) :=
            number_integerChars h.sized hends
          obtain ⟨c, chars, heq, hblank, hfirst⟩ := integerChars_head n
          rw [heq] at hnumber
          rw [compactChars, heq]
          exact (value_number hblank hfirst budget _).trans hnumber
      | str text =>
          rw [compactChars, quoted_append, value, skipBlanks_cons rfl]
          simp [stringBody_quoted]
      | float x => exact h.floatless.elim
      | unreadable => exact h.denoting.elim
      | arr items => simp [depth] at hflat
      | obj members => simp [depth] at hflat
  | @arr items h ih =>
      refine readBack_of_succ (.arr h) fun budget rest _ hbudget => ?_
      cases items with
      | nil =>
          simp [value, compactChars, skipBlanks_cons (show isBlank '[' = false from rfl),
            skipBlanks_cons (show isBlank ']' = false from rfl)]
      | cons item items =>
          simp only [compactChars, List.length_cons] at hbudget
          have hvalues := values_compact ih (Nat.le_of_succ_le_succ hbudget) rest
          obtain ⟨c, chars, heq, hblank, hclosed⟩ :=
            compactChars_head item (h item List.mem_cons_self)
          have hchars : compactChars (.arr (item :: items)) ++ rest =
              '[' :: (item.compactChars ++ (compactItems items ++ rest)) := by
            simp [compactChars]
          rw [heq, List.cons_append] at hchars hvalues
          rw [hchars, value_bracket hblank hclosed, hvalues]
          rfl
  | @obj members h ih =>
      refine readBack_of_succ (.obj h) fun budget rest _ hbudget => ?_
      cases members with
      | nil =>
          simp [value, compactChars, skipBlanks_cons (show isBlank '{' = false from rfl),
            skipBlanks_cons (show isBlank '}' = false from rfl)]
      | cons member members =>
          obtain ⟨name, item⟩ := member
          simp only [compactChars, List.length_cons] at hbudget
          have hvalues := namedValues_compact ih (Nat.le_of_succ_le_succ hbudget) rest
          have hchars : compactChars (.obj ((name, item) :: members)) ++ rest = '{' ::
              (quoted name ++ ':' :: (item.compactChars ++ (compactMembers members ++ rest))) := by
            simp [compactChars]
          rw [quoted_append] at hchars hvalues
          rw [hchars, value_brace, hvalues, Option.map_some, ofMembers_named]

/-! ## What is read -/

theorem sized_ofInteger (negative : Bool) (digits : List Char) :
    (ofInteger negative digits).Throughout IsSized := by
  have hflat : (ofInteger negative digits).depth = 0 ∧ (ofInteger negative digits).IsSized := by
    have hleast : Nat.pow 2 63 = 2 ^ 63 := rfl
    have hgreatest : Nat.pow 2 64 = 2 ^ 64 := rfl
    rw [ofInteger]
    split
    · exact ⟨rfl, by simp only [IsSized, InRange]; omega⟩
    split
    · exact ⟨rfl, by simp only [IsSized, InRange]; omega⟩
    split <;> exact ⟨rfl, trivial⟩
  exact .scalar hflat.1 hflat.2

theorem sized_ofDecimal (negative : Bool) (whole fraction : List Char) (power : Int) :
    (ofDecimal negative whole fraction power).Throughout IsSized := by
  rw [ofDecimal]
  split <;> exact .scalar rfl trivial

theorem sized_unsignedNumber {negative : Bool} {text : List Char}
    (h : unsignedNumber negative text = some (json, rest)) : json.Throughout IsSized := by
  simp only [unsignedNumber, Option.bind_eq_bind, Option.bind_eq_some_iff] at h
  obtain ⟨whole, -, fraction, -, power, -, h⟩ := h
  split at h
  · cases h
    exact sized_ofInteger _ _
  · cases h
    exact sized_ofDecimal _ _ _ _

theorem sized_number {text : List Char} (h : number text = some (json, rest)) :
    json.Throughout IsSized := by
  rw [number.eq_def] at h
  split at h <;> exact sized_unsignedNumber h

theorem sized_ofMembers {members : List (Option String × Json)}
    (h : ∀ member ∈ members, member.2.Throughout IsSized) :
    (ofMembers members).Throughout IsSized := by
  rw [ofMembers]
  split
  · rename_i named hnamed
    refine .obj fun member hmember => ?_
    obtain ⟨entry, hentry, heq⟩ := mem_of_mapM hnamed member hmember
    obtain ⟨name, -, rfl⟩ := Option.map_eq_some_iff.1 heq
    exact h entry hentry
  · exact .scalar rfl trivial

/-- What is read with a budget is sized throughout. -/
structure ReadsSized (budget : Nat) : Prop where
  single {text rest : List Char} {json : Json} (h : value budget text = some (json, rest)) :
    json.Throughout IsSized
  listed {text rest : List Char} {items : List Json}
    (h : values budget text = some (items, rest)) : ∀ item ∈ items, item.Throughout IsSized
  named {text rest : List Char} {members : List (Option String × Json)}
    (h : namedValues budget text = some (members, rest)) :
    ∀ member ∈ members, member.2.Throughout IsSized

theorem ReadsSized.value_succ {budget : Nat} {text : List Char} (hreads : ReadsSized budget)
    (h : value (budget + 1) text = some (json, rest)) : json.Throughout IsSized := by
  rw [value] at h
  split at h
  · split at h
    · cases h
      exact .obj nofun
    · obtain ⟨⟨members, _⟩, hread, heq⟩ := Option.bind_eq_some_iff.1 h
      cases heq
      exact sized_ofMembers (hreads.named hread)
  · split at h
    · cases h
      exact .arr nofun
    · obtain ⟨⟨items, _⟩, hread, heq⟩ := Option.bind_eq_some_iff.1 h
      cases heq
      exact .arr (hreads.listed hread)
  · obtain ⟨⟨text, _⟩, hread, heq⟩ := Option.bind_eq_some_iff.1 h
    cases heq
    cases text <;> exact .scalar rfl trivial
  · cases h
    exact .scalar rfl trivial
  · cases h
    exact .scalar rfl trivial
  · cases h
    exact .scalar rfl trivial
  · exact sized_number h

theorem ReadsSized.values_succ {budget : Nat} {text : List Char} {items : List Json}
    (hreads : ReadsSized budget) (h : values (budget + 1) text = some (items, rest)) :
    ∀ item ∈ items, item.Throughout IsSized := by
  rw [values] at h
  obtain ⟨⟨item, _⟩, hitem, h⟩ := Option.bind_eq_some_iff.1 h
  have hfirst := hreads.single hitem
  dsimp only at h
  split at h
  · obtain ⟨⟨later, _⟩, hlater, heq⟩ := Option.bind_eq_some_iff.1 h
    cases heq
    exact List.forall_mem_cons.2 ⟨hfirst, hreads.listed hlater⟩
  · cases h
    exact List.forall_mem_singleton.2 hfirst
  · cases h

theorem ReadsSized.namedValues_succ {budget : Nat} {text : List Char}
    {members : List (Option String × Json)} (hreads : ReadsSized budget)
    (h : namedValues (budget + 1) text = some (members, rest)) :
    ∀ member ∈ members, member.2.Throughout IsSized := by
  rw [namedValues] at h
  split at h
  · obtain ⟨⟨name, _⟩, -, h⟩ := Option.bind_eq_some_iff.1 h
    dsimp only at h
    split at h
    · obtain ⟨⟨item, _⟩, hitem, h⟩ := Option.bind_eq_some_iff.1 h
      have hfirst := hreads.single hitem
      dsimp only at h
      split at h
      · obtain ⟨⟨later, _⟩, hlater, heq⟩ := Option.bind_eq_some_iff.1 h
        cases heq
        exact List.forall_mem_cons.2 ⟨hfirst, hreads.named hlater⟩
      · cases h
        exact List.forall_mem_singleton.2 hfirst
      · cases h
    · cases h
  · cases h

theorem readsSized (budget : Nat) : ReadsSized budget := by
  induction budget with
  -- the three readers call each other, each with one less than it was given
  | zero => exact ⟨nofun, nofun, nofun⟩
  | succ budget ih => exact ⟨ih.value_succ, ih.values_succ, ih.namedValues_succ⟩

theorem parse_sized {text : String} (h : parse? text = some json) : json.Throughout IsSized := by
  obtain ⟨⟨read, rest⟩, hread, h⟩ := Option.bind_eq_some_iff.1 h
  dsimp only at h
  split at h
  · cases h
    exact (readsSized _).single hread
  · cases h

/-- A tree is read back from its text. -/
theorem parse_compact (h : json.Throughout IsExact) : parse? json.compact = some json := by
  have hread := readBack h (2 * json.compactChars.length + 1) [] trivial (by omega)
  rw [List.append_nil] at hread
  rw [parse?, compact, String.toList_ofList, ofChars?, hread]
  rfl

end Json

end ProgramQueue
