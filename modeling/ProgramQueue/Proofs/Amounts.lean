import ProgramQueue.Amount

/-!
# Which operations on amounts succeed

The text that is written for an amount denotes that amount.  A sum or a percentage is
found exactly when the operands denote amounts and the exact result still fits.
-/

namespace ProgramQueue.Amount

variable {a b sum : String} {c : Char} {chars : List Char} {percent : Nat}

/-! ## Writing and reading -/

theorem digit?_eq (h : c.isDigit = true) : digit? c = some (c.toNat - '0'.toNat) := by
  apply if_pos
  simpa [Char.isDigit, Char.le_def] using h

theorem le_ofDigitChars (chars : List Char) (total : Nat) :
    total ≤ Nat.ofDigitChars 10 chars total := by
  induction chars generalizing total with
  | nil => exact Nat.le_refl total
  | cons c rest ih =>
      rw [Nat.ofDigitChars_cons]
      have hrest := ih (10 * total + (c.toNat - '0'.toNat))
      omega

/-- Digits denote the number they are read as, if it fits. -/
theorem digitsFrom?_eq (hdigits : ∀ c ∈ chars, c.isDigit = true) (total : Nat)
    (hfits : Nat.ofDigitChars 10 chars total < bound) :
    digitsFrom? total chars = some (Nat.ofDigitChars 10 chars total) := by
  induction chars generalizing total with
  | nil => rfl
  | cons c rest ih =>
      rw [Nat.ofDigitChars_cons, Nat.mul_comm] at hfits ⊢
      have hnext := Nat.lt_of_le_of_lt (le_ofDigitChars rest _) hfits
      simp only [digitsFrom?, digit?_eq (hdigits c List.mem_cons_self), Option.bind_eq_bind,
        Option.bind_some, if_pos hnext]
      exact ih (fun d hd => hdigits d (List.mem_cons_of_mem c hd)) _ hfits

theorem range_of_digit (h : c.isDigit = true) : 48 ≤ c.toNat ∧ c.toNat ≤ 57 := by
  simp only [Char.isDigit, Bool.and_eq_true, decide_eq_true_eq, ge_iff_le,
    UInt32.le_iff_toNat_le] at h
  exact h

theorem not_blank_of_digit (h : c.isDigit = true) : Text.isBlank c = false := by
  obtain ⟨hlow, hhigh⟩ := range_of_digit h
  simp only [Text.isBlank, Bool.or_eq_false_iff, Bool.and_eq_false_iff, decide_eq_false_iff_not]
  omega

theorem dropWhile_blank {core : List Char} (hcore : ∀ c ∈ core, Text.isBlank c = false) :
    core.dropWhile Text.isBlank = core := by
  cases core with
  | nil => rfl
  | cons c rest =>
      apply List.dropWhile_cons_of_neg
      simp [hcore c List.mem_cons_self]

/-- Trimming takes the blanks at both ends. -/
theorem trimChars_between {before core after : List Char}
    (hbefore : ∀ c ∈ before, Text.isBlank c = true)
    (hcore : ∀ c ∈ core, Text.isBlank c = false)
    (hafter : ∀ c ∈ after, Text.isBlank c = true) :
    Text.trimChars (before ++ (core ++ after)) = core := by
  rw [Text.trimChars, List.dropWhile_append_of_pos hbefore]
  cases core with
  | nil =>
      rw [List.nil_append, ← List.append_nil after, List.dropWhile_append_of_pos hafter]
      rfl
  | cons c rest =>
      rw [List.cons_append, List.dropWhile_cons_of_neg (by simp [hcore c List.mem_cons_self]),
        ← List.cons_append, List.reverse_append,
        List.dropWhile_append_of_pos fun d hd => hafter d (List.mem_reverse.1 hd),
        dropWhile_blank fun d hd => hcore d (List.mem_reverse.1 hd), List.reverse_reverse]

/-- What is written for an amount is read as that amount. -/
theorem value?_text {n : Nat} (h : n < bound) : value? (text n) = some n := by
  have hdigits : ∀ c ∈ Nat.toDigits 10 n, c.isDigit = true := fun c hc =>
    Nat.isDigit_of_mem_toDigits (by decide) (by decide) hc
  have hread : digitsFrom? 0 (Nat.toDigits 10 n) = some n := by
    rw [digitsFrom?_eq hdigits 0 (by rwa [Nat.ofDigitChars_ten_toDigits]),
      Nat.ofDigitChars_ten_toDigits]
  have htrim := trimChars_between (List.forall_mem_nil _)
    (fun c hc => not_blank_of_digit (hdigits c hc)) (List.forall_mem_nil _)
  rw [List.nil_append, List.append_nil] at htrim
  rw [value?, text, String.toList_ofList, htrim]
  cases hchars : Nat.toDigits 10 n with
  | nil => exact absurd hchars Nat.toDigits_ne_nil
  | cons c rest =>
      rw [hchars] at hdigits hread
      have hplus : c ≠ '+' := by
        rintro rfl
        cases hdigits '+' List.mem_cons_self
      rw [unsigned?.eq_def]
      split
      · rename_i heq
        exact absurd (List.cons.inj heq).1 hplus
      · exact hread

/-! ## Exact results -/

theorem bind_ok_iff {α β : Type} {attempt : Except Error α} {next : α → Except Error β}
    {result : β} : (attempt >>= next) = .ok result ↔
      ∃ value, attempt = .ok value ∧ next value = .ok result := by
  cases attempt <;> simp [bind, Except.bind]

theorem parse_ok_iff {n : Nat} : parse a = .ok n ↔ value? a = some n := by
  unfold parse
  cases value? a <;> simp

/-- A result is given as long as it fits. -/
theorem fitting_ok_iff {fits : Prop} [Decidable fits] {result : String} {e : Error} :
    (if fits then .ok result else .error e) = (.ok b : Except Error String) ↔
      fits ∧ b = result := by
  split <;> simp [*, eq_comm]

theorem add_ok_iff :
    add a b = .ok sum ↔ ∃ m n, value? a = some m ∧ value? b = some n ∧ m + n < bound ∧
      sum = text (m + n) := by
  simp only [add, bind_ok_iff, parse_ok_iff, fitting_ok_iff, exists_and_left]

theorem percentOf_ok_iff :
    percentOf a percent = .ok b ↔ ∃ n, value? a = some n ∧ n * percent < bound ∧
      b = text (n * percent / 100) := by
  simp only [percentOf, bind_ok_iff, parse_ok_iff, fitting_ok_iff]

end ProgramQueue.Amount
