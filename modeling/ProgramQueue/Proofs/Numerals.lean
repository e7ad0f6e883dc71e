import Mathlib.Data.List.DropRight
import Mathlib.Data.Nat.Cast.Order.Field
import ProgramQueue.Proofs.Roundings
import ProgramQueue.Proofs.Spellings
import ProgramQueue.Store.Transcription

/-!
# Rates are read from their texts

The text of a finite double has a point or a power, so it is read as a double and not as an
integer.  Reading rounds the digits, then the power of ten, then their product, so it may miss
the double by a place; but only the digits of the largest double could be carried beyond all
doubles, and these are not.
-/

namespace ProgramQueue

namespace Decimal

variable {number : Double} {span : Span} {grid : Int} {count : Nat}

/-! ## The decimal that is written -/

/-- The number that digits with an exponent stand for. -/
def Digits.value (decimal : Digits) : ℚ := decimal.digits * 10 ^ decimal.exponent

/-- The upper end of a span. -/
def Span.upper (span : Span) : ℚ := span.high * 2 ^ span.power

/-- What the span is multiplied with, to be compared with multiples on a grid. -/
abbrev Span.up (span : Span) (grid : Int) : Nat :=
  Nat.pow 2 span.power.toNat * Nat.pow 10 (-grid).toNat

/-- What multiples on a grid are multiplied with. -/
abbrev Span.unit (span : Span) (grid : Int) : Nat :=
  Nat.pow 2 (-span.power).toNat * Nat.pow 10 grid.toNat

/-- A multiple on a grid lies in the span. -/
def Span.contains (span : Span) (grid : Int) (n : Nat) : Bool :=
  if span.endsIncluded then
    span.low * span.up grid ≤ n * span.unit grid && n * span.unit grid ≤ span.high * span.up grid
  else span.low * span.up grid < n * span.unit grid && n * span.unit grid < span.high * span.up grid

theorem Span.contains_of_nearestOn {n : Nat} (h : span.nearestOn? grid = some n) :
    span.contains grid n = true := by
  rw [nearestOn?] at h
  split at h
  · cases h
  · cases h
    assumption
  · cases h
    assumption
  · -- both neighbours lie in it, and whichever is taken does
    split at h
    · cases h
      assumption
    split at h
    · cases h
      assumption
    split at h
    · cases h
      assumption
    · cases h
      assumption

/-- A decimal is compared with a number in binary after both were multiplied to whole numbers. -/
theorem Span.le_iff (n m : Nat) : n * span.unit grid ≤ m * span.up grid ↔
    (n * 10 ^ grid : ℚ) ≤ m * 2 ^ span.power := by
  rw [Double.zpow_eq_div 10 grid, Double.zpow_eq_div 2 span.power, ← mul_div_assoc,
    ← mul_div_assoc, div_le_div_iff₀ (by positivity) (by positivity), mul_assoc, mul_assoc,
    mul_comm (10 ^ grid.toNat : ℚ)]
  exact_mod_cast Iff.rfl

/-- A decimal that may be written: no larger than the upper end of the span, and not zero unless
it is whole. -/
structure Span.Bounds (span : Span) (decimal : Digits) : Prop where
  upper : decimal.value ≤ span.upper
  written : 0 < decimal.digits ∨ decimal.exponent = 0

theorem Span.bounds_of_contains {n : Nat} (hlow : 0 < span.low)
    (h : span.contains grid n = true) : span.Bounds ⟨n, grid⟩ := by
  have hup : 0 < span.up grid := Nat.mul_pos (Nat.two_pow_pos _) (Nat.pow_pos (by decide))
  have hinside : span.low * span.up grid ≤ n * span.unit grid ∧
      n * span.unit grid ≤ span.high * span.up grid := by
    rw [contains] at h
    split at h
    all_goals
      simp only [Bool.and_eq_true, decide_eq_true_eq] at h
      omega
  refine ⟨(le_iff _ _).1 hinside.2, .inl (Nat.pos_of_ne_zero ?_)⟩
  rintro rfl
  have hpos := Nat.mul_pos hlow hup
  omega

theorem Span.bounds_search (hlow : 0 < span.low) (hvalue : span.value ≤ span.high) (grid : Int)
    (count : Nat) : span.Bounds (span.search grid count) := by
  induction count generalizing grid with
  | zero =>
      refine ⟨?_, .inr rfl⟩
      rw [search, Digits.value, upper, zpow_zero, mul_one, Double.zpow_eq_div 2, ← mul_div_assoc]
      refine Nat.cast_div_le.trans ?_
      rw [Nat.pow_eq, Nat.pow_eq]
      push_cast
      gcongr
  | succ count ih =>
      rw [search]
      split
      · rename_i n hfound
        exact bounds_of_contains hlow (contains_of_nearestOn hfound)
      · exact ih (grid - 1)

/-- The largest number whose digits are not carried beyond all doubles: halfway between the second
largest double and the largest one. -/
def limit : Nat := (2 ^ 55 - 6) * 2 ^ 969

theorem shortest_bounds (hzero : number.mantissa ≠ 0) :
    (Span.ofDouble number).Bounds (shortest number) := by
  refine Span.bounds_search ?_ ?_ _ _
  · rw [Span.ofDouble]
    dsimp only
    split <;> omega
  · exact Nat.le_add_right _ _

theorem power_le (hfinite : number.isFinite = true) : number.power ≤ 971 := by
  have hexponent := number.exponentField_lt
  simp only [Double.isFinite, bne_iff_ne] at hfinite
  rw [Double.power]
  split <;> omega

/-- Only the largest double reaches beyond the limit. -/
theorem shortest_le (hfinite : number.isFinite = true) (hzero : number.mantissa ≠ 0)
    (htop : ¬(number.mantissa = 2 ^ 53 - 1 ∧ number.power = 971)) :
    (shortest number).value ≤ limit := by
  have hmantissa := number.mantissa_lt
  have hlimit : (limit : ℚ) = (2 ^ 55 - 6 : Nat) * 2 ^ (969 : Int) := by
    rw [limit, Nat.cast_mul, Nat.cast_pow, Nat.cast_ofNat, zpow_ofNat]
  refine (shortest_bounds hzero).upper.trans ?_
  have hupper : (Span.ofDouble number).upper =
      (4 * number.mantissa + 2 : Nat) * 2 ^ (number.power - 2) := rfl
  rw [hupper, hlimit]
  rcases (power_le hfinite).eq_or_lt with heq | hlt
  · rw [heq]
    gcongr
    · omega
    · exact one_le_two
    · decide
  · calc ((4 * number.mantissa + 2 : Nat) : ℚ) * 2 ^ (number.power - 2)
        ≤ 2 ^ (1023 : Int) := (Double.mul_two_zpow_lt (by omega : _ < 2 ^ 55) (by omega)).le
      _ ≤ (2 ^ 55 - 6 : Nat) * 2 ^ (969 : Int) := by
        exact Double.two_zpow_le_mul (by omega : 2 ^ 54 ≤ _) (by decide)

/-! ## The significand that is read -/

/-- A number with these digits before others. -/
def append (start : Nat) (digits : List Char) : Nat :=
  digits.foldl (fun total c => total * 10 + digitValue c) start

theorem append_append (start : Nat) (digits more : List Char) :
    append start (digits ++ more) = append (append start digits) more :=
  List.foldl_append

/-- Digits move those before them to the left. -/
theorem mul_le_append (start : Nat) (digits : List Char) :
    start * 10 ^ digits.length ≤ append start digits := by
  induction digits generalizing start with
  | nil => exact Nat.le_of_eq (Nat.mul_one start)
  | cons c digits ih =>
      refine le_trans ?_ (ih _)
      rw [List.length_cons, Nat.pow_succ', ← Nat.mul_assoc]
      exact Nat.mul_le_mul_right _ (Nat.le_add_right _ _)

theorem append_zeros (start count : Nat) :
    append start (List.replicate count '0') = start * 10 ^ count := by
  induction count generalizing start with
  | zero => exact (Nat.mul_one start).symm
  | succ count ih =>
      rw [List.replicate_succ, append, List.foldl_cons]
      have hzero : start * 10 + digitValue '0' = start * 10 := rfl
      rw [hzero]
      refine (ih _).trans ?_
      rw [Nat.pow_succ', Nat.mul_assoc]

/-- What is gathered of digits: the significand still fits, and with the digits that were left out
it makes up the whole number. -/
theorem gather_spec {start significand : Nat} {digits dropped : List Char}
    (hstart : start < significandBound) (h : gather start digits = (significand, dropped)) :
    significand < significandBound ∧ append significand dropped = append start digits ∧
      dropped.length ≤ digits.length ∧ start ≤ significand := by
  induction digits generalizing start with
  | nil =>
      cases h
      exact ⟨hstart, rfl, le_rfl, le_rfl⟩
  | cons c digits ih =>
      rw [gather] at h
      split at h
      · rename_i hnext
        obtain ⟨hfits, hwhole, hlength, hle⟩ := ih hnext h
        exact ⟨hfits, hwhole, hlength.trans (Nat.le_succ _), by omega⟩
      · cases h
        exact ⟨hstart, rfl, le_rfl, le_rfl⟩

theorem digitValue_le {c : Char} (h : Json.isDigit c = true) : digitValue c ≤ 9 := by
  rw [Json.isDigit_eq] at h
  have hle : c.toNat ≤ 57 := by
    simp only [Char.isDigit, Bool.and_eq_true, decide_eq_true_eq] at h
    exact h.2
  have hzero : '0'.toNat = 48 := rfl
  rw [digitValue, hzero]
  omega

theorem digitValue_pos {c : Char} (h : Json.isDigit c = true) (hne : c ≠ '0') :
    0 < digitValue c := by
  rw [Json.isDigit_eq] at h
  have hle : 48 ≤ c.toNat := by
    simp only [Char.isDigit, Bool.and_eq_true, decide_eq_true_eq] at h
    exact h.1
  have hzero : '0'.toNat = 48 := rfl
  have hdiff : c.toNat ≠ 48 := fun heq => hne (Char.toNat_inj.1 heq)
  rw [digitValue, hzero]
  omega

/-- Few digits are all gathered. -/
theorem gather_of_short {start : Nat} {digits : List Char}
    (hdigits : ∀ c ∈ digits, Json.isDigit c = true)
    (h : (start + 1) * 10 ^ digits.length ≤ significandBound) :
    gather start digits = (append start digits, []) := by
  induction digits generalizing start with
  | nil => rfl
  | cons c digits ih =>
      obtain ⟨hc, hdigits⟩ := List.forall_mem_cons.1 hdigits
      have hvalue := digitValue_le hc
      have hnext : (start * 10 + digitValue c + 1) * 10 ^ digits.length ≤ significandBound :=
        calc (start * 10 + digitValue c + 1) * 10 ^ digits.length
            ≤ (start + 1) * 10 * 10 ^ digits.length := Nat.mul_le_mul_right _ (by omega)
          _ = (start + 1) * 10 ^ (c :: digits).length := by
              rw [List.length_cons, Nat.pow_succ', Nat.mul_assoc]
          _ ≤ significandBound := h
      have hfits : start * 10 + digitValue c < significandBound :=
        (Nat.le_mul_of_pos_right _ (Nat.pow_pos (by decide))).trans hnext
      rw [gather, if_pos hfits, ih hdigits hnext]
      rfl

/-- The largest significand that is read with a power of ten. -/
def largest (n : Nat) : Nat := min (significandBound - 1) (limit / 10 ^ n)

/-- Up to this power of ten every significand is within the range of a double. -/
def ample : Nat := 288

theorem largest_ample : largest ample = significandBound - 1 := by
  decide +kernel

theorem largest_finite : ∀ n < stride + 1 - ample,
    (Double.ofNat (largest (ample + n))).isFinite = true ∧
      (powerOfTen (ample + n)).isFinite = true ∧
      (Double.ofNat (largest (ample + n)) * powerOfTen (ample + n)).isFinite = true := by
  decide +kernel

/-- No product of a significand and a power of ten that is read leaves the range of a double. -/
theorem isInfinite_largest {significand n : Nat} (hle : significand ≤ largest n)
    (hpower : n < stride + 1) :
    (Double.ofNat significand * powerOfTen n).isInfinite = false := by
  have hten {k l : Nat} (h : k ≤ l) : Nat.pow 10 k ≤ Nat.pow 10 l :=
    Nat.pow_le_pow_right (by decide) h
  obtain hample | hsteep := Nat.le_total n ample
  · have hfirst := largest_finite 0 (by decide)
    rw [Nat.add_zero] at hfirst
    obtain ⟨hlarge, hfinite, hproduct⟩ := hfirst
    have hbound : largest n ≤ largest ample := by
      rw [largest_ample, largest]
      exact Nat.min_le_left _ _
    exact Double.isInfinite_mul_of_le (hle.trans hbound) (hten hample) hlarge hfinite hproduct
  · obtain ⟨more, rfl⟩ := Nat.exists_eq_add_of_le hsteep
    obtain ⟨hlarge, hfinite, hproduct⟩ := largest_finite more (Nat.lt_sub_iff_add_lt'.2 hpower)
    exact Double.isInfinite_mul_of_le hle (Nat.le_refl _) hlarge hfinite hproduct

theorem limit_lt : limit < 10 ^ (stride + 1) := by
  decide +kernel

/-- A numeral up to the limit is within the range of a double. -/
theorem Scaled.isSome_magnitude {numeral : Scaled} (hfits : numeral.significand < significandBound)
    (h : ∀ n : Nat, numeral.exponent = n →
      n = 0 ∨ 0 < numeral.significand ∧ numeral.significand * 10 ^ n ≤ limit) :
    numeral.magnitude?.isSome = true := by
  obtain ⟨significand, exponent⟩ := numeral
  cases exponent with
  | negSucc n => rfl
  | ofNat n =>
      have hlimit : significand * 10 ^ n ≤ limit := by
        obtain rfl | ⟨-, hle⟩ := h n rfl
        · have hbound : significandBound ≤ limit := by decide +kernel
          exact (Nat.mul_one _).trans_le (hfits.le.trans hbound)
        · exact hle
      have hpower : n < stride + 1 := by
        obtain rfl | ⟨hpos, hle⟩ := h n rfl
        · decide
        · by_contra hlarge
          have hten : 10 ^ (stride + 1) ≤ 10 ^ n :=
            Nat.pow_le_pow_right (by decide) (Nat.le_of_not_lt hlarge)
          have hbelow : 10 ^ n ≤ significand * 10 ^ n := Nat.le_mul_of_pos_left _ hpos
          exact Nat.lt_irrefl _ (((hten.trans hbelow).trans hle).trans_lt limit_lt)
      have hle : significand ≤ largest n := by
        refine Nat.le_min.2 ⟨Nat.le_sub_one_of_lt hfits, ?_⟩
        exact (Nat.le_div_iff_mul_le (Nat.pow_pos (by decide))).2 hlimit
      have hstride : n ≤ stride := Nat.le_of_lt_succ hpower
      simp only [magnitude?]
      rw [if_pos hstride, isInfinite_largest hle hpower]
      rfl

end Decimal

/-! ## The text that is read -/

namespace Json

open Decimal (Digits Scaled Layout positional scientific trimZeros append)

variable {negative : Bool} {whole fraction text rest : List Char} {power : Int}

/-- Digits after a point, up to what is none. -/
theorem fractionPart_digits (hnonempty : fraction ≠ [])
    (hfraction : ∀ c ∈ fraction, isDigit c = true)
    (hrest : ∀ c ∈ rest.head?, isDigit c = false) :
    fractionPart? ('.' :: (fraction ++ rest)) = some (some fraction, rest) := by
  rw [fractionPart?, spanDigits_append hfraction hrest]
  cases fraction with
  | nil => exact absurd rfl hnonempty
  | cons => rfl

theorem unsignedNumber_point (hwhole : IsWhole whole) (hnonempty : fraction ≠ [])
    (hfraction : ∀ c ∈ fraction, isDigit c = true) :
    unsignedNumber negative (whole ++ '.' :: fraction) =
      some (ofDecimal negative whole fraction 0, []) := by
  have hpoint : ∀ c ∈ ('.' :: fraction).head?, isDigit c = false := by simp [isDigit]
  have hend : fractionPart? ('.' :: (fraction ++ [])) = some (some fraction, []) :=
    fractionPart_digits hnonempty hfraction (by simp)
  rw [List.append_nil] at hend
  rw [unsignedNumber, wholePart_digits hwhole hpoint]
  dsimp only [Option.bind_eq_bind, Option.bind_some]
  rw [hend]
  rfl

theorem signedPower_toDigits (negative : Bool) (n : Nat) :
    signedPower? negative (Nat.toDigits 10 n) =
      some (some (if negative then -(n : Int) else n), []) := by
  have hspan : spanDigits (Nat.toDigits 10 n ++ []) = (Nat.toDigits 10 n, []) :=
    spanDigits_append (fun _ => isDigit_toDigits) (by simp)
  rw [List.append_nil] at hspan
  rw [signedPower?, hspan]
  split
  · rename_i heq
    exact absurd (Prod.mk.inj heq).1 Nat.toDigits_ne_nil
  · rename_i heq
    cases heq
    rw [natOfDigits_toDigits]

/-- The digits of a power of ten with its sign. -/
def powerChars (power : Int) : List Char :=
  (if power < 0 then ['-'] else ['+']) ++ Nat.toDigits 10 power.natAbs

theorem powerPart_written (power : Int) :
    powerPart? ('e' :: powerChars power) = some (some power, []) := by
  rw [powerChars]
  split
  · refine (signedPower_toDigits true power.natAbs).trans ?_
    have habs : -(power.natAbs : Int) = power := by omega
    exact congrArg (fun power => some (some power, [])) habs
  · refine (signedPower_toDigits false power.natAbs).trans ?_
    have habs : (power.natAbs : Int) = power := by omega
    exact congrArg (fun power => some (some power, [])) habs

theorem unsignedNumber_scientific {first : Char} (hfirst : isDigit first = true)
    (hfraction : ∀ c ∈ fraction, isDigit c = true) :
    unsignedNumber negative (scientific true (first :: fraction) power) =
      some (ofDecimal negative [first] fraction power, []) := by
  have hwhole : IsWhole [first] := by
    refine ⟨by simpa using hfirst, nofun, fun heq => ?_⟩
    exact (List.cons.inj heq).2.symm
  have hletter : ∀ c ∈ ('e' :: powerChars power).head?, isDigit c = false := by simp [isDigit]
  cases fraction with
  | nil =>
      have htext : scientific true [first] power = [first] ++ 'e' :: powerChars power := rfl
      have hnone : fractionPart? ('e' :: powerChars power) = some (none, 'e' :: powerChars power) :=
        rfl
      rw [htext, unsignedNumber, wholePart_digits hwhole hletter]
      dsimp only [Option.bind_eq_bind, Option.bind_some]
      rw [hnone]
      dsimp only [Option.bind_eq_bind, Option.bind_some]
      rw [powerPart_written]
      rfl
  | cons second later =>
      have htext : scientific true (first :: second :: later) power =
        [first] ++ '.' :: (second :: later ++ 'e' :: powerChars power) := rfl
      have hpoint : ∀ c ∈ ('.' :: (second :: later ++ 'e' :: powerChars power)).head?,
          isDigit c = false := by simp [isDigit]
      have hsome : fractionPart? ('.' :: (second :: later ++ 'e' :: powerChars power)) =
          some (some (second :: later), 'e' :: powerChars power) :=
        fractionPart_digits (List.cons_ne_nil _ _) hfraction hletter
      rw [htext, unsignedNumber, wholePart_digits hwhole hpoint]
      dsimp only [Option.bind_eq_bind, Option.bind_some]
      rw [hsome]
      dsimp only [Option.bind_eq_bind, Option.bind_some]
      rw [powerPart_written]
      rfl

/-- The zeros at the end of the digits are the only ones that are left out. -/
theorem trimZeros_spec (digits : List Char) :
    ∃ count, digits = trimZeros digits ++ List.replicate count '0' := by
  have hsplit : trimZeros digits ++ digits.rtakeWhile (· = '0') = digits :=
    List.rdropWhile_append_rtakeWhile
  have hzeros : ∀ c ∈ digits.rtakeWhile (· = '0'), c = '0' := by
    intro c hc
    have hzero := List.mem_rtakeWhile_imp hc
    exact of_decide_eq_true hzero
  refine ⟨(digits.rtakeWhile (· = '0')).length, ?_⟩
  rw [← List.eq_replicate_of_mem hzeros, hsplit]

theorem isWhole_of_ne {c : Char} {rest : List Char} (hfirst : c ≠ '0')
    (hdigits : ∀ d ∈ c :: rest, isDigit d = true) : IsWhole (c :: rest) where
  decimal := hdigits
  nonempty := List.cons_ne_nil _ _
  leading heq := absurd (List.cons.inj heq).1 hfirst

theorem isDigit_zeros (count : Nat) : ∀ c ∈ List.replicate count '0', isDigit c = true := by
  intro c hc
  rw [List.eq_of_mem_replicate hc]
  rfl

/-- A number with a point, and no longer whole part than its exponent tells. -/
theorem unsignedNumber_positional {c : Char} {digits : List Char} (exponent : Int)
    (hfirst : c ≠ '0') (hdigits : ∀ d ∈ c :: digits, isDigit d = true) :
    ∃ whole fraction, IsWhole whole ∧ whole.length ≤ exponent.toNat + 1 ∧
      ∀ negative, unsignedNumber negative (positional (c :: digits) exponent) =
        some (ofDecimal negative whole fraction 0, []) := by
  simp only [positional]
  split
  · have hwhole : IsWhole ['0'] := isWhole_toDigits 0
    have hfraction := List.forall_mem_append.2
      ⟨isDigit_zeros (-exponent - 1).toNat, hdigits⟩
    exact ⟨['0'], _, hwhole, Nat.le_add_left _ _, fun negative =>
      unsignedNumber_point hwhole (by simp) hfraction⟩
  split
  · rename_i hshort
    have hwhole : IsWhole (c :: (digits ++
        List.replicate (exponent.toNat + 1 - (c :: digits).length) '0')) :=
      isWhole_of_ne hfirst (List.forall_mem_append.2 ⟨hdigits, isDigit_zeros _⟩)
    refine ⟨_, ['0'], hwhole, ?_, fun negative => ?_⟩
    · simp only [List.length_cons, List.length_append, List.length_replicate] at hshort ⊢
      omega
    · exact unsignedNumber_point hwhole (List.cons_ne_nil '0' []) (by simp [isDigit])
  · rename_i hlong
    have htake : ∀ d ∈ (c :: digits).take (exponent.toNat + 1), isDigit d = true :=
      fun d hd => hdigits d (List.mem_of_mem_take hd)
    have hwhole : IsWhole ((c :: digits).take (exponent.toNat + 1)) := isWhole_of_ne hfirst htake
    refine ⟨_, _, hwhole, ?_, fun negative => unsignedNumber_point hwhole ?_ ?_⟩
    · simp
    · simpa using hlong
    · exact fun d hd => hdigits d (List.mem_of_mem_drop hd)

/-! ## The double that is read -/

theorem ofDecimal_float (h : (Scaled.ofDigits whole fraction power).magnitude?.isSome = true)
    (negative : Bool) : ∃ read, ofDecimal negative whole fraction power = .float read := by
  obtain ⟨magnitude, hmagnitude⟩ := Option.isSome_iff_exists.1 h
  rw [ofDecimal, Scaled.toDouble?, hmagnitude]
  exact ⟨_, rfl⟩

/-- A numeral whose whole part has at most sixteen digits. -/
theorem ofDigits_of_short (hwhole : ∀ c ∈ whole, isDigit c = true) (hlength : whole.length ≤ 16)
    (fraction : List Char) (power : Int) :
    ∃ significand dropped, Scaled.ofDigits whole fraction power =
        ⟨significand, power - (fraction.length - dropped.length : Nat)⟩ ∧
      significand < Decimal.significandBound ∧
      append significand dropped = append 0 (whole ++ fraction) ∧
      dropped.length ≤ fraction.length ∧ append 0 whole ≤ significand := by
  have hwhole : Decimal.gather 0 whole = (append 0 whole, []) := by
    refine Decimal.gather_of_short hwhole ?_
    calc (0 + 1) * 10 ^ whole.length ≤ 10 ^ 16 := by
          rw [Nat.zero_add, Nat.one_mul]
          exact Nat.pow_le_pow_right (by decide) hlength
      _ ≤ Decimal.significandBound := by decide
  obtain ⟨hfits, -, -, -⟩ := Decimal.gather_spec (by decide) hwhole
  cases hfraction : Decimal.gather (append 0 whole) fraction with
  | mk significand dropped =>
      obtain ⟨hfits, hdigits, hdropped, hle⟩ := Decimal.gather_spec hfits hfraction
      refine ⟨significand, dropped, ?_, hfits, ?_, hdropped, hle⟩
      · simp only [Scaled.ofDigits, hwhole, hfraction, List.length_nil, Scaled.mk.injEq, true_and]
        omega
      · rw [hdigits, Decimal.append_append]

/-- With few digits before the point, and no power, a numeral is within range. -/
theorem isSome_positional (hwhole : ∀ c ∈ whole, isDigit c = true) (hlength : whole.length ≤ 16) :
    (Scaled.ofDigits whole fraction 0).magnitude?.isSome = true := by
  obtain ⟨significand, dropped, heq, hfits, -⟩ := ofDigits_of_short hwhole hlength fraction 0
  rw [heq]
  refine Scaled.isSome_magnitude hfits fun n hn => .inl ?_
  dsimp only at hn
  omega

/-- The digits of a number up to the limit, written with a power, are within range. -/
theorem isSome_scientific {c : Char} {digits : List Char} {count : Nat} {decimal : Digits}
    (hfirst : c ≠ '0') (hdigits : ∀ d ∈ c :: digits, isDigit d = true)
    (hall : Nat.toDigits 10 decimal.digits = c :: digits ++ List.replicate count '0')
    (hle : decimal.value ≤ Decimal.limit) :
    (Scaled.ofDigits [c] digits
      (decimal.exponent + ((digits.length + count : Nat) : Int))).magnitude?.isSome = true := by
  have hc : isDigit c = true := hdigits c List.mem_cons_self
  obtain ⟨significand, dropped, heq, hfits, hwhole, hdropped, hpos⟩ := ofDigits_of_short
    (List.forall_mem_singleton.2 hc) (by simp) digits
    (decimal.exponent + ((digits.length + count : Nat) : Int))
  rw [heq]
  refine Scaled.isSome_magnitude hfits fun n hn => .inr ⟨?_, ?_⟩
  · have hleading : append 0 [c] = Decimal.digitValue c := Nat.zero_add _
    exact (Decimal.digitValue_pos hc hfirst).trans_le (hleading ▸ hpos)
  · have hvalue : decimal.digits = append 0 (c :: digits) * 10 ^ count := by
      rw [← natOfDigits_toDigits decimal.digits, hall]
      exact (Decimal.append_append _ _ _).trans (Decimal.append_zeros _ _)
    have hprefix := Decimal.mul_le_append significand dropped
    have hpower : (n : Int) = dropped.length + count + decimal.exponent := by
      dsimp only at hn
      omega
    have hbound : (significand * 10 ^ (n : Int) : ℚ) ≤ Decimal.limit :=
      calc (significand * 10 ^ (n : Int) : ℚ)
          = (significand * 10 ^ dropped.length * 10 ^ count : Nat) * 10 ^ decimal.exponent := by
            rw [hpower, zpow_add₀ (by norm_num), zpow_add₀ (by norm_num)]
            push_cast
            rw [zpow_natCast, zpow_natCast]
            ring
        _ ≤ decimal.digits * 10 ^ decimal.exponent := by
            rw [hvalue]
            gcongr
            rwa [← List.singleton_append, ← hwhole]
        _ ≤ Decimal.limit := hle
    exact_mod_cast hbound

theorem toDigits_of_pos {n : Nat} (h : 0 < n) : ∃ c digits count, c ≠ '0' ∧
    (∀ d ∈ c :: digits, isDigit d = true) ∧ trimZeros (Nat.toDigits 10 n) = c :: digits ∧
      Nat.toDigits 10 n = c :: digits ++ List.replicate count '0' := by
  obtain ⟨count, hall⟩ := trimZeros_spec (Nat.toDigits 10 n)
  have hvalue : append 0 (Nat.toDigits 10 n) = n := natOfDigits_toDigits n
  cases htrim : trimZeros (Nat.toDigits 10 n) with
  | nil =>
      rw [hall, htrim, List.nil_append, Decimal.append_zeros] at hvalue
      omega
  | cons c digits =>
      rw [htrim] at hall
      refine ⟨c, digits, count, ?_, fun d hd => ?_, rfl, hall⟩
      · rintro rfl
        have hzero : digits ++ List.replicate count '0' = [] := toDigits_head hall
        rw [hall, List.cons_append, hzero] at hvalue
        have hnone : append 0 ['0'] = 0 := rfl
        omega
      · exact isDigit_toDigits (hall ▸ List.mem_append_left _ hd)

/-- The text of a decimal up to the limit is read as a double. -/
theorem unsignedNumber_positive {decimal : Digits}
    (hwritten : 0 < decimal.digits ∨ decimal.exponent = 0) (hle : decimal.value ≤ Decimal.limit)
    (negative : Bool) : ∃ read,
      unsignedNumber negative (numberLayout.positive decimal) = some (.float read, []) := by
  obtain ⟨n, exponent⟩ := decimal
  rcases Nat.eq_zero_or_pos n with rfl | hpos
  · obtain rfl : exponent = 0 := hwritten.resolve_left (Nat.lt_irrefl 0)
    cases negative <;> exact ⟨_, rfl⟩
  · obtain ⟨c, digits, count, hfirst, hdigits, htrim, hall⟩ := toDigits_of_pos hpos
    have hexponent : exponent + ((Nat.toDigits 10 n).length - 1 : Int) =
        exponent + ((digits.length + count : Nat) : Int) := by
      rw [hall]
      simp
    simp only [Layout.positive, htrim, hexponent]
    split
    · rename_i hrange
      obtain ⟨whole, fraction, hwhole, hlength, hread⟩ := unsignedNumber_positional
        (exponent + ((digits.length + count : Nat) : Int)) hfirst hdigits
      have hshort : whole.length ≤ 16 := by
        have hgreatest := hrange.2
        have : numberLayout.greatestPositional = 15 := rfl
        omega
      obtain ⟨read, hfloat⟩ := ofDecimal_float (isSome_positional hwhole.decimal hshort) negative
      exact ⟨read, (hread negative).trans (congrArg (fun json => some (json, [])) hfloat)⟩
    · obtain ⟨hc, hdigits'⟩ := List.forall_mem_cons.1 hdigits
      obtain ⟨read, hfloat⟩ :=
        ofDecimal_float (isSome_scientific hfirst hdigits hall hle) negative
      exact ⟨read, (unsignedNumber_scientific hc hdigits').trans
        (congrArg (fun json => some (json, [])) hfloat)⟩

/-- The digits of the largest double are not carried either. -/
theorem unsignedNumber_greatest (negative : Bool) : ∃ read, unsignedNumber negative
    (numberLayout.positive ⟨17976931348623157, 292⟩) = some (.float read, []) := by
  have htext : numberLayout.positive ⟨17976931348623157, 292⟩ =
      scientific true ('1' :: "7976931348623157".toList) 308 := by
    decide +kernel
  have hrange : (Scaled.ofDigits ['1'] "7976931348623157".toList 308).magnitude?.isSome = true := by
    decide +kernel
  obtain ⟨read, hfloat⟩ := ofDecimal_float hrange negative
  have hdigits : ∀ c ∈ "7976931348623157".toList, isDigit c = true :=
    List.all_eq_true.1 (by decide +kernel)
  refine ⟨read, ?_⟩
  rw [htext, unsignedNumber_scientific rfl hdigits, hfloat]

theorem number_of_unsigned {json : Json} (h : unsignedNumber false text = some (json, rest)) :
    number text = some (json, rest) := by
  cases text with
  | nil => exact h
  | cons c text =>
      rw [number_of_ne ?_, h]
      rintro rfl
      cases h

end Json

namespace Double

open Json (numberLayout unsignedNumber)
open Decimal (Layout Span shortest)

variable {rate : Double}

theorem shortest_greatest (hmantissa : rate.mantissa = 2 ^ 53 - 1) (hpower : rate.power = 971) :
    shortest rate = ⟨17976931348623157, 292⟩ := by
  have hexponent : rate.exponentField = 2046 := by
    rw [power] at hpower
    split at hpower <;> omega
  have hfraction : rate.fractionField ≠ 0 := by
    rw [mantissa, hexponent, Nat.pow_eq] at hmantissa
    split at hmantissa <;> omega
  have hspan : Span.ofDouble rate =
      ⟨4 * (2 ^ 53 - 1) - 2, 4 * (2 ^ 53 - 1), 4 * (2 ^ 53 - 1) + 2, 969, false⟩ := by
    simp only [Span.ofDouble, hmantissa, hpower, hfraction, false_and, if_false]
    rfl
  rw [shortest, hspan]
  decide +kernel

theorem unsignedNumber_magnitude (h : rate.isFinite = true) (negative : Bool) :
    ∃ read, unsignedNumber negative
      (if rate.mantissa = 0 then ['0', '.', '0'] else numberLayout.positive (shortest rate)) =
        some (.float read, []) := by
  split
  · cases negative <;> exact ⟨_, rfl⟩
  rename_i hzero
  by_cases hgreatest : rate.mantissa = 2 ^ 53 - 1 ∧ rate.power = 971
  · rw [shortest_greatest hgreatest.1 hgreatest.2]
    exact Json.unsignedNumber_greatest negative
  · exact Json.unsignedNumber_positive (Decimal.shortest_bounds hzero).written
      (Decimal.shortest_le h hzero hgreatest) negative

/-- The text of a finite rate is read as a rate. -/
theorem number_text (h : rate.isFinite = true) :
    ∃ read, Json.number (numberLayout.text rate) = some (.float read, []) := by
  have hnan : rate.isNaN = false := by
    simp only [isFinite, bne_iff_ne] at h
    simp [isNaN, h]
  obtain ⟨read, hread⟩ := unsignedNumber_magnitude h rate.isNegative
  refine ⟨read, ?_⟩
  simp only [Layout.text, hnan, h, Bool.not_true, Bool.false_eq_true, if_false]
  cases hnegative : rate.isNegative with
  | true =>
      rw [hnegative] at hread
      exact hread
  | false =>
      rw [hnegative] at hread
      exact Json.number_of_unsigned hread

end Double

end ProgramQueue
