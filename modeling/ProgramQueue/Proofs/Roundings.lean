import ProgramQueue.Decimal.Scaled
import ProgramQueue.Proofs.Doubles

/-!
# Rounding keeps the order

Of two quotients the larger one is not rounded to the smaller double.  So a product is finite if
it is with a factor that is larger.
-/

namespace ProgramQueue.Double

variable {x y z w : Double} {q r s t : ℚ} {num den num' den' n : Nat}

/-! ## Quotients -/

/-- The nearest whole number is at most one half away, and if it is just that, it is even. -/
theorem nearestQuotient_near (num : Nat) (hden : 0 < den) :
    2 * (nearestQuotient num den * den) ≤ 2 * num + den ∧
      2 * num ≤ 2 * (nearestQuotient num den * den) + den ∧
      (2 * (nearestQuotient num den * den) = 2 * num + den ∨
        2 * num = 2 * (nearestQuotient num den * den) + den →
          nearestQuotient num den % 2 = 0) := by
  have hsplit := Nat.div_add_mod num den
  have hrest := Nat.mod_lt num hden
  rw [Nat.mul_comm] at hsplit
  simp only [nearestQuotient]
  split
  · have hnext : (num / den + 1) * den = num / den * den + den := Nat.succ_mul _ _
    omega
  · omega

theorem nearestQuotient_mono (hden : 0 < den) (hden' : 0 < den')
    (h : (num / den : ℚ) ≤ num' / den') : nearestQuotient num den ≤ nearestQuotient num' den' := by
  rw [div_le_div_iff₀ (by exact_mod_cast hden) (by exact_mod_cast hden')] at h
  have h : num * den' ≤ num' * den := by exact_mod_cast h
  obtain ⟨hupper, -, heven⟩ := nearestQuotient_near num hden
  obtain ⟨-, hlower, heven'⟩ := nearestQuotient_near num' hden'
  generalize nearestQuotient num den = k at hupper heven ⊢
  generalize nearestQuotient num' den' = k' at hlower heven' ⊢
  -- otherwise both are half way between the same two, and both are even
  refine Nat.le_of_not_lt fun hlt => ?_
  have hfirst : 2 * (k * (den * den')) ≤ 2 * (num * den') + den * den' :=
    calc 2 * (k * (den * den')) = 2 * (k * den) * den' := by ring
      _ ≤ (2 * num + den) * den' := Nat.mul_le_mul_right den' hupper
      _ = 2 * (num * den') + den * den' := by ring
  have hlast : 2 * (num' * den) ≤ 2 * (k' * (den * den')) + den * den' :=
    calc 2 * (num' * den) = 2 * num' * den := by ring
      _ ≤ (2 * (k' * den') + den') * den := Nat.mul_le_mul_right den hlower
      _ = 2 * (k' * (den * den')) + den * den' := by ring
  have hstep : k' * (den * den') + den * den' ≤ k * (den * den') :=
    (Nat.succ_mul k' _).symm.trans_le (Nat.mul_le_mul_right _ hlt)
  have hnext : k = k' + 1 := by
    refine Nat.eq_of_mul_eq_mul_right (Nat.mul_pos hden hden') ?_
    rw [Nat.succ_mul]
    omega
  have htie : 2 * (k * den) = 2 * num + den := by
    refine Nat.eq_of_mul_eq_mul_right hden' ?_
    linarith
  have htie' : 2 * num' = 2 * (k' * den') + den' := by
    refine Nat.eq_of_mul_eq_mul_right hden ?_
    linarith
  have hk := heven (.inl htie)
  have hk' := heven' (.inr htie')
  omega

theorem nearestQuotient_le (hden : 0 < den) (h : (num / den : ℚ) ≤ n) :
    nearestQuotient num den ≤ n := by
  have hle : nearestQuotient num den ≤ nearestQuotient (n * 1) 1 :=
    nearestQuotient_mono hden Nat.one_pos (by simpa using h)
  rwa [nearestQuotient_mul Nat.one_pos] at hle

theorem le_nearestQuotient (hden : 0 < den) (h : (n : ℚ) ≤ num / den) :
    n ≤ nearestQuotient num den := by
  have hle : nearestQuotient (n * 1) 1 ≤ nearestQuotient num den :=
    nearestQuotient_mono Nat.one_pos hden (by simpa using h)
  rwa [nearestQuotient_mul Nat.one_pos] at hle

/-- A quotient that is scaled to a place is divided by the place. -/
theorem scaled_quotient (num den : Nat) (p : Int) :
    ((num * Nat.pow 2 (-p).toNat : Nat) : ℚ) / (den * Nat.pow 2 p.toNat : Nat) =
      num / den / 2 ^ p := by
  rw [zpow_eq_div 2 p, Nat.pow_eq, Nat.pow_eq]
  push_cast
  rw [div_div_div_eq]

/-- The digits of a quotient down to a place. -/
def digitsAt (place : Int) (num den : Nat) : Nat :=
  nearestQuotient (num * Nat.pow 2 (-place).toNat) (den * Nat.pow 2 place.toNat)

theorem nearestMagnitude_digitsAt (num den : Nat) : nearestMagnitude num den =
    (lastPlace num den + 1074).toNat * 2 ^ 52 + digitsAt (lastPlace num den) num den := rfl

theorem digitsAt_mono (place : Int) (hden : 0 < den) (hden' : 0 < den')
    (h : (num / den : ℚ) ≤ num' / den') : digitsAt place num den ≤ digitsAt place num' den' := by
  refine nearestQuotient_mono (Nat.mul_pos hden (Nat.two_pow_pos _))
    (Nat.mul_pos hden' (Nat.two_pow_pos _)) ?_
  rw [scaled_quotient, scaled_quotient]
  gcongr

/-- Fifty-three digits are kept, or fewer, and rounding carries no further. -/
theorem digitsAt_le (hnum : 0 < num) (hden : 0 < den) :
    digitsAt (lastPlace num den) num den ≤ 2 ^ 53 := by
  refine nearestQuotient_le (Nat.mul_pos hden (Nat.two_pow_pos _)) ?_
  have hplace : floorLog2 num den + 1 ≤ 53 + lastPlace num den := by
    rw [lastPlace]
    omega
  rw [scaled_quotient, div_le_iff₀ (by positivity)]
  exact (floorLog2_spec hnum hden).2.le.trans (two_zpow_le_mul le_rfl hplace)

/-- Above the last place of all, the leading one of the digits is the fifty-third. -/
theorem le_digitsAt (hnum : 0 < num) (hden : 0 < den) (hplace : -1074 < lastPlace num den) :
    2 ^ 52 ≤ digitsAt (lastPlace num den) num den := by
  refine le_nearestQuotient (Nat.mul_pos hden (Nat.two_pow_pos _)) ?_
  have hlog : 52 + lastPlace num den = floorLog2 num den := by
    rw [lastPlace] at hplace ⊢
    omega
  rw [scaled_quotient, le_div_iff₀ (by positivity)]
  refine le_trans (le_of_eq ?_) (floorLog2_spec hnum hden).1
  rw [← hlog, zpow_add₀ two_ne_zero]
  norm_num

theorem lastPlace_mono (hnum : 0 < num) (hden : 0 < den) (hnum' : 0 < num') (hden' : 0 < den')
    (h : (num / den : ℚ) ≤ num' / den') : lastPlace num den ≤ lastPlace num' den' := by
  have hlt : (2 : ℚ) ^ floorLog2 num den < 2 ^ (floorLog2 num' den' + 1) :=
    ((floorLog2_spec hnum hden).1.trans h).trans_lt (floorLog2_spec hnum' hden').2
  have hlog := (zpow_lt_zpow_iff_right₀ one_lt_two).1 hlt
  rw [lastPlace, lastPlace]
  omega

theorem nearestMagnitude_mono (hnum : 0 < num) (hden : 0 < den) (hnum' : 0 < num')
    (hden' : 0 < den') (h : (num / den : ℚ) ≤ num' / den') :
    nearestMagnitude num den ≤ nearestMagnitude num' den' := by
  rw [nearestMagnitude_digitsAt, nearestMagnitude_digitsAt]
  rcases (lastPlace_mono hnum hden hnum' hden' h).eq_or_lt with heq | hlt
  · rw [heq]
    exact Nat.add_le_add_left (digitsAt_mono _ hden hden' h) _
  · have hleast : -1074 ≤ lastPlace num den := le_sup_right
    have hdigits := digitsAt_le hnum hden
    have hlead := le_digitsAt hnum' hden' (hleast.trans_lt hlt)
    omega

theorem ofQuotient_mono (hden : 0 < den) (hden' : 0 < den') (h : (num / den : ℚ) ≤ num' / den') :
    (ofQuotient false num den).bits.toNat ≤ (ofQuotient false num' den').bits.toNat := by
  rw [ofQuotient, ofQuotient, toNat_ofMagnitude, toNat_ofMagnitude]
  refine min_le_min_right _ ?_
  rcases Nat.eq_zero_or_pos num with rfl | hnum
  · exact Nat.zero_le _
  · have hnum' : 0 < num' := by
      have hpos : (0 : ℚ) < num' / den' := lt_of_lt_of_le (by positivity) h
      exact_mod_cast (div_pos_iff_of_pos_right (by exact_mod_cast hden')).1 hpos
    rw [if_neg hnum.ne', if_neg hnum'.ne']
    exact nearestMagnitude_mono hnum hden hnum' hden' h

/-! ## Products -/

theorem isNegative_ofMagnitude (bits : Nat) : (ofMagnitude false bits).isNegative = false := by
  have hinfinity : infinityBits < Nat.pow 2 63 := by decide
  rw [isNegative, toNat_ofMagnitude, decide_eq_false_iff_not]
  omega

theorem isNegative_ofQuotient (num den : Nat) : (ofQuotient false num den).isNegative = false :=
  isNegative_ofMagnitude _

theorem isNumber_of_finite (hfinite : x.isFinite = true) (hpositive : x.isNegative = false) :
    x.IsNumber x.value := ⟨hfinite, hpositive, rfl⟩

/-- What is no larger than a number is a number. -/
theorem IsNumber.of_bits_le (hy : y.IsNumber r) (h : x.bits.toNat ≤ y.bits.toNat) :
    x.IsNumber x.value := by
  have hbits := hy.bits_eq
  have hfinite := hy.finite
  have hexponent := y.exponentField_lt
  have hfraction := y.fractionField_lt
  simp only [isFinite, bne_iff_ne] at hfinite
  refine isNumber_of_finite ?_ ?_
  · simp only [isFinite, bne_iff_ne, exponentField, Nat.pow_eq]
    omega
  · simp only [isNegative, Nat.pow_eq, decide_eq_false_iff_not]
    omega

theorem value_nonneg (x : Double) : 0 ≤ x.value := by
  rw [value]
  positivity

theorem IsNumber.mul_mono (hx : x.IsNumber q) (hy : y.IsNumber r) (hz : z.IsNumber s)
    (hw : w.IsNumber t) (hleft : q ≤ r) (hright : s ≤ t) :
    (x * z).bits.toNat ≤ (y * w).bits.toNat := by
  obtain ⟨num, den, hden, hproduct, hvalue⟩ := hx.mul_eq hz
  obtain ⟨num', den', hden', hproduct', hvalue'⟩ := hy.mul_eq hw
  have hr : 0 ≤ r := hy.value_eq ▸ y.value_nonneg
  have hs : 0 ≤ s := hz.value_eq ▸ z.value_nonneg
  rw [hproduct, hproduct']
  refine ofQuotient_mono hden hden' ?_
  rw [hvalue, hvalue']
  gcongr

theorem ofNat_mono {m : Nat} (h : m ≤ n) : (ofNat m).bits.toNat ≤ (ofNat n).bits.toNat := by
  refine ofQuotient_mono Nat.one_pos Nat.one_pos ?_
  gcongr

/-- If the product of two whole numbers is finite, so is that of smaller ones. -/
theorem isInfinite_mul_of_le {k l m : Nat} (hleft : m ≤ n) (hright : k ≤ l)
    (hn : (ofNat n).isFinite = true) (hl : (ofNat l).isFinite = true)
    (hproduct : (ofNat n * ofNat l).isFinite = true) : (ofNat m * ofNat k).isInfinite = false := by
  have hlarge := isNumber_of_finite hn (isNegative_ofQuotient n 1)
  have hlarge' := isNumber_of_finite hl (isNegative_ofQuotient l 1)
  have hsmall := hlarge.of_bits_le (ofNat_mono hleft)
  have hsmall' := hlarge'.of_bits_le (ofNat_mono hright)
  obtain ⟨num, den, -, heq, -⟩ := hlarge.mul_eq hlarge'
  have hnumber : (ofNat n * ofNat l).IsNumber (ofNat n * ofNat l).value :=
    isNumber_of_finite hproduct (heq ▸ isNegative_ofQuotient num den)
  have hmono := hsmall.mul_mono hlarge hsmall' hlarge'
    (hsmall.le_of_bits hlarge (ofNat_mono hleft)) (hsmall'.le_of_bits hlarge' (ofNat_mono hright))
  exact (hnumber.of_bits_le hmono).not_infinite

end ProgramQueue.Double
