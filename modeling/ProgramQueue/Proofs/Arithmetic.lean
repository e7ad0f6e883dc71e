import Mathlib.Algebra.Group.Nat.Defs
import Mathlib.Data.List.TakeWhile
import ProgramQueue.Proofs.Amounts

/-!
# Exact arithmetic on amounts

A text is read as an amount if it spells a number that fits: blanks, at most one plus sign,
digits and blanks again.  The operations are those on natural numbers for as long as the
results fit, and what they write is the numeral of the result, which is read back as the
same number.
-/

namespace ProgramQueue.Amount

/-- Digits between blanks, with at most one plus sign in front, spell a number. -/
inductive Denotes : List Char → Nat → Prop
  | spelled {before sign digits after : List Char}
      (hbefore : ∀ c ∈ before, Text.isBlank c = true) (hsign : sign = [] ∨ sign = ['+'])
      (hsome : digits ≠ []) (hdigits : ∀ c ∈ digits, c.isDigit = true)
      (hafter : ∀ c ∈ after, Text.isBlank c = true) :
      Denotes (before ++ (sign ++ digits ++ after)) (Nat.ofDigitChars 10 digits 0)

/-- The decimal numeral of a number: digits alone, and no zero in front of others. -/
structure IsNumeral (numeral : String) (n : Nat) : Prop where
  some_digit : numeral.toList ≠ []
  digits : ∀ c ∈ numeral.toList, c.isDigit = true
  no_leading_zero : numeral.toList.head? = some '0' → numeral = "0"
  value : Nat.ofDigitChars 10 numeral.toList 0 = n

variable {a b numeral : String} {c : Char} {chars : List Char} {d n total : Nat}

/-! ## Reading -/

theorem digit?_some (h : digit? c = some d) : c.isDigit = true ∧ d = c.toNat - '0'.toNat := by
  unfold digit? at h
  split at h
  · rename_i hrange
    exact ⟨by simpa [Char.isDigit, Char.le_def] using hrange, (Option.some.inj h).symm⟩
  · cases h

theorem digitsFrom?_some (h : digitsFrom? total chars = some n) :
    (∀ c ∈ chars, c.isDigit = true) ∧ n = Nat.ofDigitChars 10 chars total ∧
      (total < bound → n < bound) := by
  induction chars generalizing total with
  | nil =>
      obtain rfl := Option.some.inj h
      exact ⟨List.forall_mem_nil _, rfl, id⟩
  | cons c rest ih =>
      obtain ⟨d, hd, hrest⟩ := Option.bind_eq_some_iff.1 h
      obtain ⟨hdigit, rfl⟩ := digit?_some hd
      by_cases hfits : total * 10 + (c.toNat - '0'.toNat) < bound
      · rw [if_pos hfits] at hrest
        obtain ⟨hdigits, rfl, hbound⟩ := ih hrest
        refine ⟨List.forall_mem_cons.2 ⟨hdigit, hdigits⟩, ?_, fun _ => hbound hfits⟩
        rw [Nat.ofDigitChars_cons, Nat.mul_comm]
      · rw [if_neg hfits] at hrest
        cases hrest

theorem digits?_iff : digits? chars = some n ↔ chars ≠ [] ∧ (∀ c ∈ chars, c.isDigit = true) ∧
    n = Nat.ofDigitChars 10 chars 0 ∧ n < bound := by
  cases chars with
  | nil => simp [digits?]
  | cons c rest =>
      constructor
      · intro h
        obtain ⟨hdigits, hvalue, hbound⟩ := digitsFrom?_some h
        exact ⟨List.cons_ne_nil c rest, hdigits, hvalue, hbound (by decide)⟩
      · rintro ⟨-, hdigits, rfl, hfits⟩
        exact digitsFrom?_eq hdigits 0 hfits

/-- A number with at most one plus sign. -/
theorem unsigned?_iff : unsigned? chars = some n ↔ ∃ sign digits, chars = sign ++ digits ∧
    (sign = [] ∨ sign = ['+']) ∧ digits? digits = some n := by
  constructor
  · intro h
    unfold unsigned? at h
    split at h
    · exact ⟨['+'], _, rfl, .inr rfl, h⟩
    · exact ⟨[], chars, rfl, .inl rfl, h⟩
  · rintro ⟨sign, digits, rfl, rfl | rfl, hdigits⟩
    · obtain ⟨hsome, hall, -⟩ := digits?_iff.1 hdigits
      unfold unsigned?
      split
      · rename_i heq
        rw [List.nil_append] at heq
        cases (heq ▸ hall) '+' List.mem_cons_self
      · exact hdigits
    · exact hdigits

/-- Only blanks are trimmed. -/
theorem trimChars_split (chars : List Char) : ∃ before after,
    chars = before ++ (Text.trimChars chars ++ after) ∧
      (∀ c ∈ before, Text.isBlank c = true) ∧ ∀ c ∈ after, Text.isBlank c = true := by
  let rest := chars.dropWhile Text.isBlank
  refine ⟨chars.takeWhile Text.isBlank, (rest.reverse.takeWhile Text.isBlank).reverse, ?_,
    fun c hc => List.mem_takeWhile_imp hc,
    fun c hc => List.mem_takeWhile_imp (List.mem_reverse.1 hc)⟩
  have hrest : Text.trimChars chars ++ (rest.reverse.takeWhile Text.isBlank).reverse = rest := by
    rw [Text.trimChars, ← List.reverse_append, List.takeWhile_append_dropWhile,
      List.reverse_reverse]
  rw [hrest, List.takeWhile_append_dropWhile]

theorem value?_iff : value? a = some n ↔ Denotes a.toList n ∧ n < bound := by
  constructor
  · intro h
    obtain ⟨sign, digits, hchars, hsign, hdigits⟩ := unsigned?_iff.1 h
    obtain ⟨hsome, hall, rfl, hfits⟩ := digits?_iff.1 hdigits
    obtain ⟨before, after, heq, hbefore, hafter⟩ := trimChars_split a.toList
    rw [heq, hchars]
    exact ⟨.spelled hbefore hsign hsome hall hafter, hfits⟩
  · rintro ⟨h, hfits⟩
    rw [value?]
    generalize a.toList = chars at h
    obtain ⟨hbefore, hsign, hsome, hall, hafter⟩ := h
    rename_i before sign digits after
    have hcore : ∀ c ∈ sign ++ digits, Text.isBlank c = false := by
      refine List.forall_mem_append.2 ⟨?_, fun c hc => not_blank_of_digit (hall c hc)⟩
      rcases hsign with rfl | rfl
      · exact List.forall_mem_nil _
      · exact List.forall_mem_singleton.2 rfl
    rw [trimChars_between hbefore hcore hafter]
    exact unsigned?_iff.2 ⟨sign, digits, rfl, hsign, digits?_iff.2 ⟨hsome, hall, rfl, hfits⟩⟩

/-! ## Writing -/

theorem toDigits_digit (h : c.isDigit = true) :
    Nat.toDigits 10 (c.toNat - '0'.toNat) = [c] := by
  obtain ⟨hlow, hhigh⟩ := range_of_digit h
  have hlt : c.toNat - '0'.toNat < 10 := by
    change c.toNat - 48 < 10
    omega
  have hchar : (c.toNat - '0'.toNat).digitChar.toNat = c.toNat := by
    rw [Nat.toNat_digitChar_of_lt_ten hlt]
    exact Nat.add_sub_of_le hlow
  rw [Nat.toDigits_of_lt_base hlt, Char.toNat_inj.1 hchar]

/-- Digits that follow those of a positive number are the last digits of a larger one. -/
theorem toDigits_append (hdigits : ∀ c ∈ chars, c.isDigit = true) (hpos : 0 < total) :
    Nat.toDigits 10 total ++ chars = Nat.toDigits 10 (Nat.ofDigitChars 10 chars total) := by
  induction chars generalizing total with
  | nil => exact List.append_nil _
  | cons c rest ih =>
      obtain ⟨hdigit, hrest⟩ := List.forall_mem_cons.1 hdigits
      have hlt : c.toNat - '0'.toNat < 10 := by
        obtain ⟨hlow, hhigh⟩ := range_of_digit hdigit
        change c.toNat - 48 < 10
        omega
      calc Nat.toDigits 10 total ++ c :: rest
          = (Nat.toDigits 10 total ++ [c]) ++ rest := by rw [List.append_assoc]; rfl
        _ = Nat.toDigits 10 (10 * total + (c.toNat - '0'.toNat)) ++ rest := by
            rw [← toDigits_digit hdigit, Nat.toDigits_append_toDigits (by decide) hpos hlt]
        _ = Nat.toDigits 10 (Nat.ofDigitChars 10 (c :: rest) total) := by
            rw [ih hrest (by omega), Nat.ofDigitChars_cons]

theorem head?_toDigits (h : (Nat.toDigits 10 n).head? = some '0') : n = 0 := by
  induction n using Nat.strongRecOn with
  | _ n ih =>
      by_cases hlt : n < 10
      · rw [Nat.toDigits_of_lt_base hlt] at h
        exact Nat.digitChar_eq_zero.1 (Option.some.inj h)
      · rw [Nat.toDigits_of_base_le (by decide) (by omega)] at h
        have hzero : n / 10 = 0 := by
          apply ih (n / 10) (by omega)
          cases hhigher : Nat.toDigits 10 (n / 10) with
          | nil => exact absurd hhigher Nat.toDigits_ne_nil
          | cons c rest => rwa [hhigher] at h
        omega

/-- A number has one numeral, which is what is written for it. -/
theorem isNumeral_iff : IsNumeral numeral n ↔ numeral = text n := by
  constructor
  · rintro ⟨hsome, hdigits, hzero, rfl⟩
    cases hchars : numeral.toList with
    | nil => exact absurd hchars hsome
    | cons c rest =>
        by_cases hc : c = '0'
        · obtain rfl := hzero (by rw [hchars, hc]; rfl)
          rw [← hchars]
          rfl
        · rw [hchars] at hdigits
          obtain ⟨hdigit, hrest⟩ := List.forall_mem_cons.1 hdigits
          have hpos : 0 < c.toNat - '0'.toNat := by
            refine Nat.sub_pos_of_lt (Nat.lt_of_le_of_ne (range_of_digit hdigit).1 fun heq => ?_)
            exact hc (Char.toNat_inj.1 heq.symm)
          have happend := toDigits_append hrest hpos
          rw [toDigits_digit hdigit] at happend
          apply String.toList_inj.1
          rw [text, String.toList_ofList, Nat.ofDigitChars_cons, Nat.mul_zero, Nat.zero_add,
            ← happend, hchars]
          rfl
  · rintro rfl
    refine ⟨?_, ?_, ?_, ?_⟩
    · rw [text, String.toList_ofList]
      exact Nat.toDigits_ne_nil
    · rw [text, String.toList_ofList]
      exact fun c hc => Nat.isDigit_of_mem_toDigits (by decide) (by decide) hc
    · intro h
      rw [text, String.toList_ofList] at h
      rw [head?_toDigits h]
      rfl
    · rw [text, String.toList_ofList, Nat.ofDigitChars_ten_toDigits]

/-! ## Operations -/

theorem parse_error_iff : (∃ e, parse a = .error e) ↔ value? a = none := by
  unfold parse
  cases value? a <;> simp

theorem bind_error_iff {α β : Type} {attempt : Except Error α} {next : α → Except Error β} :
    (∃ e, (attempt >>= next) = .error e) ↔
      (∃ e, attempt = .error e) ∨ ∃ value, attempt = .ok value ∧ ∃ e, next value = .error e := by
  cases attempt <;> simp [bind, Except.bind]

theorem fitting_error_iff {n : Nat} {result : String} {e : Error} :
    (∃ found, (if n < bound then .ok result else .error e) =
      (.error found : Except Error String)) ↔ bound ≤ n := by
  split <;> simp <;> omega

theorem compare_ok_iff {order : Ordering} : compare a b = .ok order ↔
    ∃ m n, value? a = some m ∧ value? b = some n ∧ order = Ord.compare m n := by
  simp only [compare, bind_ok_iff, parse_ok_iff, exists_and_left]
  simp only [pure, Except.pure, Except.ok.injEq, eq_comm]

theorem add_error_iff : (∃ e, add a b = .error e) ↔ value? a = none ∨ value? b = none ∨
    ∃ m n, value? a = some m ∧ value? b = some n ∧ bound ≤ m + n := by
  simp only [add, bind_error_iff, parse_error_iff, parse_ok_iff, fitting_error_iff]
  cases value? a <;> simp

theorem percentOf_error_iff {percent : Nat} : (∃ e, percentOf a percent = .error e) ↔
    value? a = none ∨ ∃ n, value? a = some n ∧ bound ≤ n * percent := by
  simp only [percentOf, bind_error_iff, parse_error_iff, parse_ok_iff, fitting_error_iff]

theorem compare_error_iff : (∃ e, compare a b = .error e) ↔
    value? a = none ∨ value? b = none := by
  simp only [compare, bind_error_iff, parse_error_iff, parse_ok_iff]
  cases value? a <;> simp [pure, Except.pure]

/-- What the operations come to for two texts and a percentage. -/
structure IsExact (a b : String) (percent : Nat) : Prop where
  /-- What is read are the texts that spell a number that fits. -/
  reads : ∀ n, parse a = .ok n ↔ Denotes a.toList n ∧ n < 2 ^ 128
  adds : ∀ sum, add a b = .ok sum ↔
    ∃ m n, parse a = .ok m ∧ parse b = .ok n ∧ m + n < 2 ^ 128 ∧ IsNumeral sum (m + n)
  add_fails : (∃ e, add a b = .error e) ↔ (∃ e, parse a = .error e) ∨
    (∃ e, parse b = .error e) ∨ ∃ m n, parse a = .ok m ∧ parse b = .ok n ∧ 2 ^ 128 ≤ m + n
  takes : ∀ share, percentOf a percent = .ok share ↔
    ∃ n, parse a = .ok n ∧ n * percent < 2 ^ 128 ∧ IsNumeral share (n * percent / 100)
  take_fails : (∃ e, percentOf a percent = .error e) ↔ (∃ e, parse a = .error e) ∨
    ∃ n, parse a = .ok n ∧ 2 ^ 128 ≤ n * percent
  compares : ∀ order, compare a b = .ok order ↔
    ∃ m n, parse a = .ok m ∧ parse b = .ok n ∧ order = Ord.compare m n
  compare_fails : (∃ e, compare a b = .error e) ↔
    (∃ e, parse a = .error e) ∨ ∃ e, parse b = .error e
  /-- The numeral of a number that fits is read back as that number. -/
  reads_back : ∀ numeral n, IsNumeral numeral n → n < 2 ^ 128 → parse numeral = .ok n
  commutes : ∀ sum, add a b = .ok sum ↔ add b a = .ok sum
  associates : ∀ c sum, (do add (← add a b) c) = .ok sum ↔ (do add a (← add b c)) = .ok sum

theorem add_comm_iff : add a b = .ok numeral ↔ add b a = .ok numeral := by
  have hswap {a b : String} (h : add a b = .ok numeral) : add b a = .ok numeral := by
    obtain ⟨m, n, hm, hn, hfits, rfl⟩ := add_ok_iff.1 h
    rw [Nat.add_comm] at hfits ⊢
    exact add_ok_iff.2 ⟨n, m, hn, hm, hfits, rfl⟩
  exact ⟨hswap, hswap⟩

/-- A sum is added to another amount if the sum of all three fits. -/
theorem add_add_iff {c : String} : (do add (← add a b) c) = .ok numeral ↔
    ∃ k m n, value? a = some k ∧ value? b = some m ∧ value? c = some n ∧
      k + m + n < bound ∧ numeral = text (k + m + n) := by
  simp only [bind_ok_iff, add_ok_iff]
  constructor
  · rintro ⟨_, ⟨k, m, hk, hm, hfits, rfl⟩, first, n, hfirst, hn, hall, rfl⟩
    obtain rfl := Option.some.inj ((value?_text hfits).symm.trans hfirst)
    exact ⟨k, m, n, hk, hm, hn, hall, rfl⟩
  · rintro ⟨k, m, n, hk, hm, hn, hall, rfl⟩
    have hfits : k + m < bound := Nat.lt_of_le_of_lt (Nat.le_add_right _ n) hall
    exact ⟨_, ⟨k, m, hk, hm, hfits, rfl⟩, k + m, n, value?_text hfits, hn, hall, rfl⟩

theorem add_assoc_iff {c : String} :
    (do add (← add a b) c) = .ok numeral ↔ (do add a (← add b c)) = .ok numeral := by
  have hright : (do add a (← add b c)) = .ok numeral ↔ (do add (← add b c) a) = .ok numeral := by
    cases hsum : add b c with
    | error e => exact Iff.rfl
    | ok sum => exact add_comm_iff
  rw [hright, add_add_iff, add_add_iff]
  constructor
  · rintro ⟨k, m, n, hk, hm, hn, hfits, rfl⟩
    rw [Nat.add_assoc, Nat.add_comm k] at hfits ⊢
    exact ⟨m, n, k, hm, hn, hk, hfits, rfl⟩
  · rintro ⟨m, n, k, hm, hn, hk, hfits, rfl⟩
    rw [Nat.add_comm _ k, ← Nat.add_assoc] at hfits ⊢
    exact ⟨k, m, n, hk, hm, hn, hfits, rfl⟩

/-- Amounts are read, added, compared and shared as the numbers that they spell, as long as
these fit; addition is commutative and associative. -/
theorem arithmetic_exact (a b : String) (percent : Nat) : IsExact a b percent where
  reads n := parse_ok_iff.trans value?_iff
  adds sum := by
    simp only [add_ok_iff, parse_ok_iff, isNumeral_iff]
    rfl
  add_fails := by
    simp only [add_error_iff, parse_error_iff, parse_ok_iff]
    rfl
  takes share := by
    simp only [percentOf_ok_iff, parse_ok_iff, isNumeral_iff]
    rfl
  take_fails := by
    simp only [percentOf_error_iff, parse_error_iff, parse_ok_iff]
    rfl
  compares order := by simp only [compare_ok_iff, parse_ok_iff]
  compare_fails := by simp only [compare_error_iff, parse_error_iff]
  reads_back numeral n h hfits := by
    rw [isNumeral_iff.1 h]
    exact parse_ok_iff.2 (value?_text hfits)
  commutes sum := add_comm_iff
  associates c sum := add_assoc_iff

end ProgramQueue.Amount
