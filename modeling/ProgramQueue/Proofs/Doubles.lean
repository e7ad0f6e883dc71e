import Mathlib.Algebra.Order.Field.Power
import Mathlib.Algebra.Order.Floor.Semifield
import Mathlib.Data.Rat.Floor
import ProgramQueue.Double

/-!
# Arithmetic that needs no rounding

A double that is not negative stands for a rational number, its value.  A number of at most
fifty-three bits, none of them below the last place that any double has, is left alone by
rounding: the nearest double has that value, or is infinite if the number is `2 ^ 1024` or
more.  Products and quotients with such a result are therefore exact or infinite, and what is
cut to a whole number at the end is the exact result.
-/

namespace ProgramQueue.Double

/-- The number that a finite double stands for, but for the sign. -/
def value (x : Double) : ℚ := x.mantissa * 2 ^ x.power

/-- A double is finite, not negative, and stands for a number. -/
structure IsNumber (x : Double) (q : ℚ) : Prop where
  finite : x.isFinite = true
  positive : x.isNegative = false
  value_eq : x.value = q

/-- A double stands for a number, or is infinite because the number is too large. -/
def Holds (x : Double) (q : ℚ) : Prop :=
  x.IsNumber q ∨ x = infinity false ∧ 2 ^ 1024 ≤ q

/-- A number has at most fifty-three bits, and none below the last place of a double. -/
def Precise (q : ℚ) : Prop :=
  ∃ (digits : Nat) (place : Int), digits < 2 ^ 53 ∧ -1074 ≤ place ∧ q = digits * 2 ^ place

variable {x y : Double} {q r : ℚ} {bits num den e i j m n place digits : Nat}

/-! ## Scaling by powers of two -/

/-- A power with a signed exponent as a quotient of powers of which one is one. -/
theorem zpow_eq_div (b : ℚ) (p : Int) : b ^ p = b ^ p.toNat / b ^ (-p).toNat := by
  rcases Int.le_total 0 p with h | h
  · obtain ⟨n, rfl⟩ := Int.eq_ofNat_of_zero_le h
    simp
  · obtain ⟨n, hn⟩ := Int.eq_ofNat_of_zero_le (Int.neg_nonneg.2 h)
    obtain rfl : p = -n := by omega
    simp

theorem mul_two_zpow_lt {p s : Int} (hn : n < 2 ^ e) (hs : e + p ≤ s) :
    (n : ℚ) * 2 ^ p < 2 ^ s :=
  calc (n : ℚ) * 2 ^ p < 2 ^ e * 2 ^ p := by gcongr; exact_mod_cast hn
    _ = 2 ^ ((e : Int) + p) := by rw [zpow_add₀ two_ne_zero, zpow_natCast]
    _ ≤ 2 ^ s := zpow_le_zpow_right₀ one_le_two hs

theorem two_zpow_le_mul {p s : Int} (hn : 2 ^ e ≤ n) (hs : s ≤ e + p) :
    (2 : ℚ) ^ s ≤ n * 2 ^ p :=
  calc (2 : ℚ) ^ s ≤ 2 ^ ((e : Int) + p) := zpow_le_zpow_right₀ one_le_two hs
    _ = 2 ^ e * 2 ^ p := by rw [zpow_add₀ two_ne_zero, zpow_natCast]
    _ ≤ n * 2 ^ p := by gcongr; exact_mod_cast hn

/-! ## Bits -/

theorem toNat_ofMagnitude (bits : Nat) :
    (ofMagnitude false bits).bits.toNat = min bits infinityBits := by
  have hlarge : infinityBits < 2 ^ 64 := by decide
  have hfits : min bits infinityBits < 2 ^ 64 := Nat.lt_of_le_of_lt (Nat.min_le_right _ _) hlarge
  simp only [ofMagnitude, Bool.false_eq_true, ↓reduceIte, UInt64.toNat_ofNat',
    Nat.mod_eq_of_lt hfits]

theorem ofMagnitude_of_infinityBits_le (h : infinityBits ≤ bits) :
    ofMagnitude false bits = infinity false := by
  simp only [infinity, ofMagnitude, Nat.min_eq_right h, Nat.min_self]

/-- The bits of a finite magnitude are its place and its digits, whose leading one is counted
with the place. -/
theorem isNumber_ofMagnitude (hplace : place ≤ 2045) (hdigits : digits < 2 ^ 53)
    (hlead : 2 ^ 52 ≤ digits ∨ place = 0) :
    (ofMagnitude false (place * 2 ^ 52 + digits)).IsNumber
      (digits * 2 ^ ((place : Int) - 1074)) := by
  have hinfinity : infinityBits = 2047 * 2 ^ 52 := rfl
  have hbits : (ofMagnitude false (place * 2 ^ 52 + digits)).bits.toNat =
      place * 2 ^ 52 + digits := by
    rw [toNat_ofMagnitude]
    omega
  generalize ofMagnitude false (place * 2 ^ 52 + digits) = x at hbits ⊢
  have hfields : x.exponentField = (if digits < 2 ^ 52 then 0 else place + 1) ∧
      x.fractionField = (if digits < 2 ^ 52 then digits else digits - 2 ^ 52) := by
    simp only [exponentField, fractionField, Nat.pow_eq, hbits]
    split <;> omega
  refine ⟨?_, ?_, ?_⟩
  · simp only [isFinite, hfields.1, bne_iff_ne]
    split <;> omega
  · simp only [isNegative, Nat.pow_eq, hbits, decide_eq_false_iff_not]
    omega
  · simp only [value, mantissa, power, hfields, Nat.pow_eq]
    split
    · obtain rfl : place = 0 := by omega
      norm_num
    · have hwhole : digits - 2 ^ 52 + 2 ^ 52 = digits := by omega
      simp only [Nat.succ_ne_zero, ↓reduceIte, hwhole]
      congr 2
      push_cast
      ring

theorem isNumber_zero : (ofMagnitude false 0).IsNumber 0 := by
  simpa using isNumber_ofMagnitude (Nat.zero_le 2045) (Nat.two_pow_pos 53) (.inr rfl)

@[simp] theorem isNaN_infinity : (infinity false).isNaN = false := by decide

@[simp] theorem isInfinite_infinity : (infinity false).isInfinite = true := by decide

@[simp] theorem isNegative_infinity : (infinity false).isNegative = false := by decide

theorem exponentField_lt (x : Double) : x.exponentField < 2048 :=
  Nat.mod_lt _ (Nat.two_pow_pos 11)

theorem fractionField_lt (x : Double) : x.fractionField < 2 ^ 52 :=
  Nat.mod_lt _ (Nat.two_pow_pos 52)

theorem IsNumber.not_nan (h : x.IsNumber q) : x.isNaN = false := by
  have hfinite := h.finite
  simp only [isFinite, bne_iff_ne] at hfinite
  simp [isNaN, hfinite]

theorem IsNumber.not_infinite (h : x.IsNumber q) : x.isInfinite = false := by
  have hfinite := h.finite
  simp only [isFinite, bne_iff_ne] at hfinite
  simp [isInfinite, hfinite]

theorem IsNumber.mantissa_ne_zero (h : x.IsNumber q) (hq : q ≠ 0) : x.mantissa ≠ 0 := by
  intro hzero
  apply hq
  rw [← h.value_eq, value, hzero, Nat.cast_zero, zero_mul]

theorem mantissa_lt (x : Double) : x.mantissa < 2 ^ 53 := by
  have hfraction := x.fractionField_lt
  rw [mantissa, Nat.pow_eq]
  split <;> omega

/-- A finite double is less than `2 ^ 1024`. -/
theorem IsNumber.lt (h : x.IsNumber q) : q < 2 ^ 1024 := by
  have hfinite := h.finite
  have hexponent := x.exponentField_lt
  simp only [isFinite, bne_iff_ne] at hfinite
  have hpower : 53 + x.power ≤ 1024 := by
    rw [power]
    split <;> omega
  rw [← h.value_eq, value, ← zpow_ofNat]
  exact mul_two_zpow_lt x.mantissa_lt hpower

theorem Holds.isNumber (h : x.Holds q) (hq : q < 2 ^ 1024) : x.IsNumber q := by
  rcases h with hnumber | ⟨-, hlarge⟩
  · exact hnumber
  · exact absurd hq (not_lt.2 hlarge)

/-! ## Rounding -/

theorem nearestQuotient_mul (hden : 0 < den) : nearestQuotient (n * den) den = n := by
  simp only [nearestQuotient, Nat.mul_div_cancel n hden, Nat.mul_mod_left]
  rw [if_neg]
  omega

/-- The difference of the logarithms is the logarithm of the quotient, or one too large. -/
theorem quotient_between (hnum : 0 < num) (hden : 0 < den) :
    (2 : ℚ) ^ ((num.log2 : Int) - den.log2 - 1) < num / den ∧
      (num / den : ℚ) < 2 ^ ((num.log2 : Int) - den.log2 + 1) := by
  have hden' : (0 : ℚ) < den := by exact_mod_cast hden
  rw [lt_div_iff₀ hden', div_lt_iff₀ hden', mul_comm, mul_comm _ (den : ℚ)]
  constructor
  · calc (den : ℚ) * 2 ^ ((num.log2 : Int) - den.log2 - 1)
        < 2 ^ (num.log2 : Int) := mul_two_zpow_lt Nat.lt_log2_self (by push_cast; omega)
      _ ≤ num := by
          rw [zpow_natCast]
          exact_mod_cast Nat.log2_self_le hnum.ne'
  · calc (num : ℚ) < 2 ^ ((num.log2 + 1 : Nat) : Int) := by
          rw [zpow_natCast]
          exact_mod_cast Nat.lt_log2_self
      _ ≤ den * 2 ^ ((num.log2 : Int) - den.log2 + 1) :=
          two_zpow_le_mul (Nat.log2_self_le hden.ne') (by push_cast; omega)

theorem two_zpow_le_quotient_iff {p : Int} (hden : 0 < den) :
    (2 : ℚ) ^ p ≤ num / den ↔ den * 2 ^ p.toNat ≤ num * 2 ^ (-p).toNat := by
  have hden' : (0 : ℚ) < den := by exact_mod_cast hden
  rw [zpow_eq_div 2, div_le_div_iff₀ (by positivity) hden', mul_comm (2 ^ p.toNat : ℚ)]
  exact_mod_cast Iff.rfl

theorem floorLog2_spec (hnum : 0 < num) (hden : 0 < den) :
    (2 : ℚ) ^ floorLog2 num den ≤ num / den ∧
      (num / den : ℚ) < 2 ^ (floorLog2 num den + 1) := by
  obtain ⟨hlower, hupper⟩ := quotient_between hnum hden
  simp only [floorLog2, Nat.pow_eq, ← two_zpow_le_quotient_iff hden]
  split
  · exact ⟨‹_›, hupper⟩
  · refine ⟨hlower.le, ?_⟩
    rw [sub_add_cancel]
    exact lt_of_not_ge ‹_›

/-- The place to which a quotient is rounded. -/
def lastPlace (num den : Nat) : Int := (floorLog2 num den - 52) ⊔ -1074

/-- A precise quotient has no digits below the place to which it is rounded. -/
theorem lastPlace_le {p : Int} (hnum : 0 < num) (hden : 0 < den) (hm : m < 2 ^ 53)
    (hp : -1074 ≤ p) (h : (num / den : ℚ) = m * 2 ^ p) : lastPlace num den ≤ p := by
  have hlt : (2 : ℚ) ^ floorLog2 num den < 2 ^ (53 + p) :=
    ((floorLog2_spec hnum hden).1.trans_eq h).trans_lt (mul_two_zpow_lt hm le_rfl)
  have hlog : floorLog2 num den < 53 + p := (zpow_lt_zpow_iff_right₀ one_lt_two).1 hlt
  rw [lastPlace]
  omega

/-- The digits of a quotient down to the place to which it is rounded are fifty-three, or fewer
at the last place of all. -/
theorem digits_bounds (hnum : 0 < num) (hden : 0 < den)
    (h : (num / den : ℚ) = digits * 2 ^ lastPlace num den) :
    digits < 2 ^ 53 ∧ (2 ^ 52 ≤ digits ∨ lastPlace num den = -1074) := by
  obtain ⟨hlower, hupper⟩ := floorLog2_spec hnum hden
  have hplace : lastPlace num den = (floorLog2 num den - 52) ⊔ -1074 := rfl
  rw [h] at hlower hupper
  constructor
  · refine Nat.lt_of_not_le fun hlarge => absurd hupper (not_lt.2 ?_)
    exact two_zpow_le_mul hlarge (by omega)
  · rcases Int.le_total (floorLog2 num den - 52) (-1074) with hlow | hhigh
    · exact .inr (by omega)
    · refine .inl (Nat.le_of_not_lt fun hsmall => absurd hlower (not_le.2 ?_))
      exact mul_two_zpow_lt hsmall (by omega)

/-- A quotient without digits below the place to which it is rounded keeps its digits. -/
theorem nearestMagnitude_eq (hden : 0 < den)
    (h : (num / den : ℚ) = digits * 2 ^ lastPlace num den) :
    nearestMagnitude num den = (lastPlace num den + 1074).toNat * 2 ^ 52 + digits := by
  have hunfold : nearestMagnitude num den = (lastPlace num den + 1074).toNat * Nat.pow 2 52 +
      nearestQuotient (num * Nat.pow 2 (-lastPlace num den).toNat)
        (den * Nat.pow 2 (lastPlace num den).toNat) := rfl
  have hden' : (den : ℚ) ≠ 0 := by exact_mod_cast hden.ne'
  have hscaled : num * Nat.pow 2 (-lastPlace num den).toNat =
      digits * (den * Nat.pow 2 (lastPlace num den).toNat) := by
    rw [zpow_eq_div 2, ← mul_div_assoc, div_eq_div_iff hden' (by positivity)] at h
    have hnat : num * 2 ^ (-lastPlace num den).toNat =
        digits * 2 ^ (lastPlace num den).toNat * den := by
      exact_mod_cast h
    rw [Nat.pow_eq, Nat.pow_eq, hnat]
    ring
  have hpos : 0 < den * Nat.pow 2 (lastPlace num den).toNat :=
    Nat.mul_pos hden (Nat.two_pow_pos _)
  rw [hunfold, hscaled, nearestQuotient_mul hpos, Nat.pow_eq]

/-- A precise number is found with all its digits at the place to which it is rounded. -/
theorem nearestMagnitude_of_precise (hnum : 0 < num) (hden : 0 < den)
    (h : Precise (num / den)) :
    ∃ place digits : Nat, nearestMagnitude num den = place * 2 ^ 52 + digits ∧
      (num / den : ℚ) = digits * 2 ^ ((place : Int) - 1074) ∧ digits < 2 ^ 53 ∧
      (2 ^ 52 ≤ digits ∨ place = 0) := by
  obtain ⟨m, p, hm, hp, hq⟩ := h
  have hle := lastPlace_le hnum hden hm hp hq
  have hvalue : (num / den : ℚ) =
      (m * 2 ^ (p - lastPlace num den).toNat : Nat) * 2 ^ lastPlace num den := by
    have hshift : ((p - lastPlace num den).toNat : Int) = p - lastPlace num den :=
      Int.toNat_of_nonneg (by omega)
    rw [hq]
    push_cast
    rw [mul_assoc, ← zpow_natCast, ← zpow_add₀ two_ne_zero, hshift, sub_add_cancel]
  obtain ⟨hdigits, hlead⟩ := digits_bounds hnum hden hvalue
  have hplace : ((lastPlace num den + 1074).toNat : Int) - 1074 = lastPlace num den := by
    have : -1074 ≤ lastPlace num den := le_sup_right
    omega
  refine ⟨_, _, nearestMagnitude_eq hden hvalue, ?_, hdigits, ?_⟩
  · rw [hplace]
    exact hvalue
  · exact hlead.imp_right fun hlast => by rw [hlast]; rfl

/-- A precise quotient is not changed by rounding. -/
theorem holds_ofQuotient (hden : 0 < den) (h : Precise (num / den)) :
    (ofQuotient false num den).Holds (num / den) := by
  rcases Nat.eq_zero_or_pos num with rfl | hnum
  · left
    simpa [ofQuotient] using isNumber_zero
  · obtain ⟨place, digits, hbits, hvalue, hdigits, hlead⟩ :=
      nearestMagnitude_of_precise hnum hden h
    rw [ofQuotient, if_neg hnum.ne', hbits, hvalue]
    rcases le_or_gt place 2045 with hsmall | hlarge
    · exact .inl (isNumber_ofMagnitude hsmall hdigits hlead)
    · have hlead' : 2 ^ 52 ≤ digits := by omega
      refine .inr ⟨ofMagnitude_of_infinityBits_le ?_, ?_⟩
      · have hinfinity : infinityBits = 2047 * 2 ^ 52 := rfl
        omega
      · rw [← zpow_ofNat]
        exact two_zpow_le_mul hlead' (by omega)

theorem Precise.natCast (hn : n < 2 ^ 53) : Precise n :=
  ⟨n, 0, hn, by decide, by simp⟩

theorem Precise.two_zpow {p : Int} (hp : -1074 ≤ p) : Precise (2 ^ p) :=
  ⟨1, p, by decide, hp, by simp⟩

theorem Precise.mul_two_pow (hn : n < 2 ^ 53) (e : Nat) : Precise (n * 2 ^ e) :=
  ⟨n, e, hn, by omega, by simp⟩

/-- A whole number that is precise is held by the double made of it. -/
theorem holds_ofNat (h : Precise n) : (ofNat n).Holds n := by
  have hquotient : (ofNat n).Holds ((n : ℚ) / (1 : Nat)) :=
    holds_ofQuotient Nat.one_pos (by simpa using h)
  simpa using hquotient

theorem isNumber_ofNat (hn : n < 2 ^ 53) : (ofNat n).IsNumber n := by
  refine (holds_ofNat (Precise.natCast hn)).isNumber ?_
  calc (n : ℚ) < 2 ^ 53 := by exact_mod_cast hn
    _ ≤ 2 ^ 1024 := pow_le_pow_right₀ one_le_two (by decide)

theorem isNumber_one : one.IsNumber 1 := by
  have hone : one.IsNumber (1 : Nat) := isNumber_ofNat (by decide)
  rwa [Nat.cast_one] at hone

/-! ## Products and quotients -/

/-- The product of two numbers is their exact product, rounded once. -/
theorem IsNumber.mul_eq (hx : x.IsNumber q) (hy : y.IsNumber r) :
    ∃ num den : Nat, 0 < den ∧ x * y = ofQuotient false num den ∧ (num / den : ℚ) = q * r := by
  have hproduct : x * y = ofScaled false (x.mantissa * y.mantissa) (x.power + y.power) := by
    change Double.mul x y = _
    simp [Double.mul, hx.not_nan, hy.not_nan, hx.not_infinite, hy.not_infinite, hx.positive,
      hy.positive]
  refine ⟨_, _, Nat.two_pow_pos _, hproduct, ?_⟩
  rw [← hx.value_eq, ← hy.value_eq, value, value, mul_mul_mul_comm, ← zpow_add₀ two_ne_zero,
    zpow_eq_div 2 (x.power + y.power), Nat.pow_eq]
  push_cast
  ring

/-- A product that is precise is exact or infinite. -/
theorem IsNumber.mul (hx : x.IsNumber q) (hy : y.IsNumber r) (h : Precise (q * r)) :
    (x * y).Holds (q * r) := by
  obtain ⟨num, den, hden, hproduct, hvalue⟩ := hx.mul_eq hy
  rw [hproduct]
  rw [← hvalue] at h ⊢
  exact holds_ofQuotient hden h

theorem infinity_mul (hy : y.IsNumber r) (hr : r ≠ 0) : infinity false * y = infinity false := by
  change Double.mul (infinity false) y = _
  simp [mul, hy.not_nan, hy.positive, hy.mantissa_ne_zero hr]

theorem mul_infinity (hx : x.IsNumber q) (hq : q ≠ 0) : x * infinity false = infinity false := by
  change Double.mul x (infinity false) = _
  simp [mul, hx.not_nan, hx.not_infinite, hx.positive, hx.mantissa_ne_zero hq]

theorem Holds.mul (hx : x.Holds q) (hy : y.Holds r) (hq : 1 ≤ q) (hr : 1 ≤ r)
    (h : Precise (q * r)) : (x * y).Holds (q * r) := by
  rcases hx with hx | ⟨rfl, hlarge⟩
  · rcases hy with hy | ⟨rfl, hlarge⟩
    · exact hx.mul hy h
    · refine .inr ⟨mul_infinity hx (by positivity), ?_⟩
      exact hlarge.trans (le_mul_of_one_le_left (by positivity) hq)
  · refine .inr ⟨?_, hlarge.trans (le_mul_of_one_le_right (by positivity) hr)⟩
    rcases hy with hy | ⟨rfl, -⟩
    · exact infinity_mul hy (by positivity)
    · decide

/-- A quotient that is precise is exact or infinite. -/
theorem IsNumber.div (hx : x.IsNumber q) (hy : y.IsNumber r) (hr : r ≠ 0)
    (h : Precise (q / r)) : (x / y).Holds (q / r) := by
  have hzero : y.mantissa ≠ 0 := hy.mantissa_ne_zero hr
  set p := x.power - y.power with hp
  have hvalue : ((x.mantissa * Nat.pow 2 p.toNat : Nat) : ℚ) /
      (y.mantissa * Nat.pow 2 (-p).toNat : Nat) = q / r := by
    have hsplit : (2 : ℚ) ^ p.toNat / 2 ^ (-p).toNat = 2 ^ x.power / 2 ^ y.power := by
      rw [← zpow_eq_div 2, hp, zpow_sub₀ two_ne_zero]
    rw [← hx.value_eq, ← hy.value_eq, value, value, Nat.pow_eq, Nat.pow_eq]
    push_cast
    rw [mul_div_mul_comm, hsplit, mul_div_mul_comm]
  have hquotient : x / y = ofQuotient false (x.mantissa * Nat.pow 2 p.toNat)
      (y.mantissa * Nat.pow 2 (-p).toNat) := by
    change Double.div x y = _
    simp [Double.div, hx.not_nan, hy.not_nan, hx.not_infinite, hy.not_infinite, hx.positive,
      hy.positive, hzero, hp]
  rw [hquotient]
  rw [← hvalue] at h ⊢
  exact holds_ofQuotient (Nat.mul_pos (Nat.pos_of_ne_zero hzero) (Nat.two_pow_pos _)) h

theorem div_infinity (hx : x.IsNumber q) : x / infinity false = ofMagnitude false 0 := by
  change Double.div x (infinity false) = _
  simp [div, hx.not_nan, hx.not_infinite, hx.positive]

/-! ## Order -/

theorem IsNumber.bits_eq (h : x.IsNumber q) :
    x.bits.toNat = x.exponentField * 2 ^ 52 + x.fractionField := by
  have hpositive := h.positive
  simp only [isNegative, Nat.pow_eq, decide_eq_false_iff_not] at hpositive
  simp only [exponentField, fractionField, Nat.pow_eq]
  omega

/-- Numbers with a smaller exponent are below all those with a larger one. -/
theorem value_lt_of_exponentField_lt (h : x.exponentField < y.exponentField) :
    x.value < y.value := by
  have hfraction := x.fractionField_lt
  have hy : (2 : ℚ) ^ ((y.exponentField : Int) - 1023) ≤ y.value := by
    rw [value, mantissa, power, if_neg (by omega), if_neg (by omega)]
    exact two_zpow_le_mul (Nat.le_add_left (2 ^ 52) _) (by push_cast; omega)
  refine lt_of_lt_of_le ?_ hy
  rw [value, mantissa, power]
  split
  · exact mul_two_zpow_lt hfraction (by omega)
  · exact mul_two_zpow_lt (by rw [Nat.pow_eq]; omega : _ < 2 ^ 53) (by omega)

/-- Of two numbers the one with the smaller bits is the smaller. -/
theorem IsNumber.le_of_bits (hx : x.IsNumber q) (hy : y.IsNumber r)
    (h : x.bits.toNat ≤ y.bits.toNat) : q ≤ r := by
  have hxfraction := x.fractionField_lt
  have hyfraction := y.fractionField_lt
  rw [hx.bits_eq, hy.bits_eq] at h
  rw [← hx.value_eq, ← hy.value_eq]
  rcases Nat.lt_trichotomy x.exponentField y.exponentField with hlt | heq | hgt
  · exact (value_lt_of_exponentField_lt hlt).le
  · have hmantissa : x.mantissa ≤ y.mantissa := by
      rw [mantissa, mantissa, heq]
      split <;> omega
    rw [value, value, power, power, heq]
    gcongr
  · omega

/-- The larger of two numbers stands for the larger value. -/
theorem IsNumber.max (hx : x.IsNumber q) (hy : y.IsNumber r) : (x.max y).IsNumber (q ⊔ r) := by
  have hle : x.le y = true ↔ x.bits.toNat ≤ y.bits.toNat := by
    simp [le, rank, hx.not_nan, hy.not_nan, hx.positive, hy.positive]
  simp only [Double.max, hx.not_nan, hy.not_nan, Bool.false_eq_true, ↓reduceIte, hle]
  split
  · rwa [sup_eq_right.2 (hx.le_of_bits hy ‹_›)]
  · rwa [sup_eq_left.2 (hy.le_of_bits hx (Nat.le_of_not_le ‹_›))]

/-! ## Whole parts -/

theorem IsNumber.toNatBelow (h : x.IsNumber q) (bound : Nat) :
    x.toNatBelow bound = min ⌊q⌋₊ (bound - 1) := by
  have hfloor : x.mantissa * Nat.pow 2 x.power.toNat / Nat.pow 2 (-x.power).toNat = ⌊q⌋₊ := by
    rw [← Nat.floor_div_eq_div (K := ℚ), ← h.value_eq, value, zpow_eq_div 2, Nat.pow_eq,
      Nat.pow_eq]
    push_cast
    rw [mul_div_assoc]
  simp only [Double.toNatBelow, h.not_nan, h.positive, h.not_infinite, Bool.or_self,
    Bool.false_eq_true, ↓reduceIte, hfloor]

/-- What is too large for a double is too large for any bound that a double can stand for. -/
theorem Holds.toNatBelow (h : x.Holds q) (hbits : bits ≤ 1024) :
    x.toNatBelow (2 ^ bits) = min ⌊q⌋₊ (2 ^ bits - 1) := by
  rcases h with h | ⟨rfl, hlarge⟩
  · exact h.toNatBelow (2 ^ bits)
  · have hbound : (2 : ℚ) ^ bits ≤ q := (pow_le_pow_right₀ one_le_two hbits).trans hlarge
    have hfloor : 2 ^ bits ≤ ⌊q⌋₊ := Nat.le_floor (by exact_mod_cast hbound)
    have hinfinite : (infinity false).toNatBelow (2 ^ bits) = 2 ^ bits - 1 := rfl
    rw [hinfinite, Nat.min_eq_right ((Nat.sub_le _ _).trans hfloor)]

/-! ## Powers of two -/

/-- Powers of two are multiplied exactly, or the product is infinite. -/
theorem Holds.mul_two_pow (hx : x.Holds (2 ^ i)) (hy : y.Holds (2 ^ j)) :
    (x * y).Holds (2 ^ (i + j)) := by
  have hprecise : Precise (2 ^ i * 2 ^ j) := by
    rw [← pow_add, ← one_mul (2 ^ (i + j) : ℚ), ← Nat.cast_one]
    exact Precise.mul_two_pow (by decide) (i + j)
  rw [pow_add]
  exact hx.mul hy (one_le_pow₀ one_le_two) (one_le_pow₀ one_le_two) hprecise

/-- A whole number is multiplied by a power of two, and cut to some bits. -/
theorem toNatBelow_mul (hx : x.Holds (2 ^ e)) (hn : n < 2 ^ 53) (hbits : bits ≤ 1024) :
    (ofNat n * x).toNatBelow (2 ^ bits) = min (n * 2 ^ e) (2 ^ bits - 1) := by
  have hnumber := isNumber_ofNat hn
  rcases Nat.eq_zero_or_pos n with rfl | hpos
  · rw [Nat.zero_mul, Nat.zero_min]
    rcases hx with hx | ⟨rfl, -⟩
    · have hproduct := hnumber.mul hx (Precise.mul_two_pow hn e)
      rw [hproduct.toNatBelow hbits, Nat.cast_zero, zero_mul, Nat.floor_zero, Nat.zero_min]
    · -- Nothing times infinity is no number, and counts as nothing.
      rfl
  · have hone : (1 : ℚ) ≤ n := by exact_mod_cast hpos
    have hholds : (ofNat n).Holds n := .inl hnumber
    have hproduct := hholds.mul hx hone (one_le_pow₀ one_le_two) (Precise.mul_two_pow hn e)
    have hfloor : ⌊(n * 2 ^ e : ℚ)⌋₊ = n * 2 ^ e := by exact_mod_cast Nat.floor_natCast _
    rw [hproduct.toNatBelow hbits, hfloor]

theorem IsNumber.exponent_lt (hx : x.IsNumber (2 ^ e)) : e < 1024 :=
  (pow_lt_pow_iff_right₀ one_lt_two).1 hx.lt

/-- The inverse of a finite power of two is exact. -/
theorem IsNumber.one_div_two_pow (hx : x.IsNumber (2 ^ e)) :
    (one / x).IsNumber (2 ^ (-(e : Int))) := by
  have hexponent := hx.exponent_lt
  have hinverse : (1 / 2 ^ e : ℚ) = 2 ^ (-(e : Int)) := by
    rw [zpow_neg, zpow_natCast, one_div]
  have hquotient : (one / x).Holds (1 / 2 ^ e) := by
    refine isNumber_one.div hx (by positivity) ?_
    rw [hinverse]
    exact Precise.two_zpow (by omega)
  rw [hinverse] at hquotient
  refine hquotient.isNumber ?_
  calc (2 : ℚ) ^ (-(e : Int)) ≤ 1 := zpow_le_one_of_nonpos₀ one_le_two (by omega)
    _ < 2 ^ 1024 := one_lt_pow₀ one_lt_two (by decide)

/-- A whole number is divided by a power of two through the inverse of that, and cut to some
bits. -/
theorem toNatBelow_mul_inverse (hx : x.Holds (2 ^ e)) (hn : n < 2 ^ 53) (hbits : bits ≤ 1024) :
    (ofNat n * (one / x)).toNatBelow (2 ^ bits) = min (n / 2 ^ e) (2 ^ bits - 1) := by
  have hnumber := isNumber_ofNat hn
  rcases hx with hx | ⟨rfl, hlarge⟩
  · have hexponent := hx.exponent_lt
    have hproduct := hnumber.mul hx.one_div_two_pow ⟨n, -e, hn, by omega, rfl⟩
    have hfloor : ⌊(n * 2 ^ (-(e : Int)) : ℚ)⌋₊ = n / 2 ^ e := by
      rw [zpow_neg, zpow_natCast, ← div_eq_mul_inv]
      exact_mod_cast Nat.floor_div_eq_div (K := ℚ) n (2 ^ e)
    rw [hproduct.toNatBelow hbits, hfloor]
  · -- The inverse of infinity is zero, and the number is less than any power that large.
    have hexponent : 1024 ≤ e := (pow_le_pow_iff_right₀ one_lt_two).1 hlarge
    have hzero : n / 2 ^ e = 0 :=
      Nat.div_eq_of_lt (hn.trans_le (Nat.pow_le_pow_right Nat.two_pos (by omega)))
    have hprecise : Precise (n * 0) := by simpa using Precise.natCast (n := 0) (by decide)
    have hproduct := hnumber.mul isNumber_zero hprecise
    rw [div_infinity isNumber_one, hproduct.toNatBelow hbits, hzero, mul_zero, Nat.floor_zero]

end ProgramQueue.Double
