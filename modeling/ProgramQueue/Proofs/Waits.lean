import ProgramQueue.Proofs.Doubles
import ProgramQueue.Push.Backoff

/-!
# How waits grow

If the multiplier is a power of two, the factor of a wait is exact or infinite, and so is the
wait before it is capped.  The wait after an attempt is then the first one, multiplied as many
times as attempts came before, up to the longest.  This goes on up to attempt `2 ^ 31`.  The
factors are counted by a signed number of thirty-two bits, so that later attempts count
backwards and divide the first wait instead.
-/

namespace ProgramQueue.Push.RetryPolicy

/-- The first wait and the longest have at most fifty-three bits, and the multiplier is a power
of two. -/
structure IsBinary (policy : RetryPolicy) (k : Nat) : Prop where
  initialDelay_lt : policy.initialDelay < 2 ^ 53
  maxDelay_lt : policy.maxDelay < 2 ^ 53
  multiplier : policy.multiplier.IsNumber (2 ^ k)

/-- An attempt counts backwards, and the first wait is divided so often that less is left of it
than the least wait, which is the first or the longest. -/
def FallsBack (policy : RetryPolicy) (k attempt : Nat) : Prop :=
  2 ^ 31 < attempt ∧
    policy.initialDelay / (2 ^ k) ^ (2 ^ 32 + 1 - attempt) <
      min policy.initialDelay policy.maxDelay

variable {base total : Double} {policy : RetryPolicy} {a b attempt bits i k n t : Nat}

/-! ## Factors -/

/-- Repeated squaring multiplies by the power of the base. -/
theorem holds_powerFrom (hbase : base.Holds (2 ^ i)) (htotal : total.Holds (2 ^ t))
    (hn : n < 2 ^ bits) : (powerFrom base total bits n).Holds (2 ^ (t + i * n)) := by
  induction bits generalizing base total i t n with
  | zero =>
      obtain rfl : n = 0 := by omega
      simpa [powerFrom] using htotal
  | succ bits ih =>
      -- The last bit of the exponent is in the total before the base is squared.
      have hlast : (if n % 2 = 1 then total * base else total).Holds (2 ^ (t + i * (n % 2))) := by
        rcases Nat.mod_two_eq_zero_or_one n with heven | hodd
        · simpa [heven] using htotal
        · simpa [hodd] using htotal.mul_two_pow hbase
      have hsum : t + i * n = t + i * (n % 2) + (i + i) * (n / 2) := by
        conv_lhs => rw [← Nat.mod_add_div n 2]
        ring
      rw [powerFrom, hsum]
      split
      · simpa [‹n / 2 = 0›] using hlast
      · exact ih (hbase.mul_two_pow hbase) hlast (by omega)

/-- The multiplier is not less than one, so it counts as it is. -/
theorem IsBinary.holds_factor (h : policy.IsBinary k) (hn : n < 2 ^ 32) :
    (powerFrom (policy.multiplier.max .one) .one 32 n).Holds (2 ^ (k * n)) := by
  have hbase : (policy.multiplier.max .one).IsNumber (2 ^ k) := by
    have hmax := h.multiplier.max Double.isNumber_one
    rwa [sup_eq_left.2 (one_le_pow₀ one_le_two)] at hmax
  have hone : Double.one.Holds (2 ^ 0) := .inl (by simpa using Double.isNumber_one)
  simpa using holds_powerFrom (.inl hbase) hone hn

/-! ## One wait -/

theorem delayAfter_le (policy : RetryPolicy) (attempt : Nat) :
    policy.delayAfter attempt ≤ policy.maxDelay :=
  Nat.min_le_right _ _

/-- The longest wait is shorter than what sixty-four bits can say. -/
theorem IsBinary.min_cut (h : policy.IsBinary k) (n : Nat) :
    min (min n (2 ^ 64 - 1)) policy.maxDelay = min n policy.maxDelay := by
  have := h.maxDelay_lt
  omega

/-- The first wait is multiplied once for each attempt before. -/
theorem IsBinary.delayAfter_of_le (h : policy.IsBinary k) (hattempt : attempt ≤ 2 ^ 31) :
    policy.delayAfter attempt =
      min (policy.initialDelay * (2 ^ k) ^ (attempt - 1)) policy.maxDelay := by
  have hsigned : signed32 (attempt - 1) = .ofNat (attempt - 1) := by
    rw [signed32, if_pos (by rw [Nat.pow_eq]; omega)]
    rfl
  have hfactor := h.holds_factor (n := attempt - 1) (by omega)
  rw [delayAfter, hsigned, power, Nat.pow_eq,
    Double.toNatBelow_mul hfactor h.initialDelay_lt (by decide), h.min_cut, pow_mul]

/-- After attempt `2 ^ 31` the first wait is divided once for each attempt up to `2 ^ 32`. -/
theorem IsBinary.delayAfter_of_lt (h : policy.IsBinary k) (hattempt : 2 ^ 31 < attempt)
    (hlast : attempt < 2 ^ 32) :
    policy.delayAfter attempt =
      min (policy.initialDelay / (2 ^ k) ^ (2 ^ 32 + 1 - attempt)) policy.maxDelay := by
  have hsigned : signed32 (attempt - 1) = .negSucc (2 ^ 32 - attempt) := by
    rw [signed32, if_neg (by rw [Nat.pow_eq]; omega), Nat.pow_eq]
    omega
  have hfactor := h.holds_factor (n := 2 ^ 32 - attempt + 1) (by omega)
  have hcount : 2 ^ 32 - attempt + 1 = 2 ^ 32 + 1 - attempt := by omega
  rw [delayAfter, hsigned, power, Nat.pow_eq,
    Double.toNatBelow_mul_inverse hfactor h.initialDelay_lt (by decide), h.min_cut, pow_mul,
    hcount]

/-- An attempt falls back if the wait after it is less than the least one. -/
theorem IsBinary.fallsBack_iff (h : policy.IsBinary k) (hlast : attempt < 2 ^ 32) :
    policy.FallsBack k attempt ↔
      policy.delayAfter attempt < min policy.initialDelay policy.maxDelay := by
  rcases le_or_gt attempt (2 ^ 31) with hle | hlt
  · have hgrown : policy.initialDelay ≤ policy.initialDelay * (2 ^ k) ^ (attempt - 1) :=
      Nat.le_mul_of_pos_right _ (by positivity)
    rw [h.delayAfter_of_le hle, FallsBack]
    omega
  · rw [h.delayAfter_of_lt hlt hlast, FallsBack]
    omega

/-! ## All waits -/

theorem IsBinary.delayAfter_mono_of_le (h : policy.IsBinary k) (hab : a ≤ b) (hb : b ≤ 2 ^ 31) :
    policy.delayAfter a ≤ policy.delayAfter b := by
  rw [h.delayAfter_of_le (hab.trans hb), h.delayAfter_of_le hb]
  gcongr
  exact Nat.one_le_two_pow

theorem IsBinary.delayAfter_mono_of_lt (h : policy.IsBinary k) (ha : 2 ^ 31 < a) (hab : a ≤ b)
    (hb : b < 2 ^ 32) : policy.delayAfter a ≤ policy.delayAfter b := by
  rw [h.delayAfter_of_lt ha (hab.trans_lt hb), h.delayAfter_of_lt (ha.trans_le hab) hb]
  gcongr
  exact Nat.one_le_two_pow

/-- An attempt that counts backwards and still waits for the least wait is kept up to it by the
longest wait, or by a first wait that the factor does not change. -/
theorem IsBinary.delayAfter_le_of_kept (h : policy.IsBinary k) (ha : a ≤ 2 ^ 31)
    (hb : 2 ^ 31 < b) (hlast : b < 2 ^ 32)
    (hkept : min policy.initialDelay policy.maxDelay ≤ policy.delayAfter b) :
    policy.delayAfter a ≤ policy.delayAfter b := by
  have hwait := h.delayAfter_of_lt hb hlast
  rcases le_or_gt policy.maxDelay (policy.initialDelay / (2 ^ k) ^ (2 ^ 32 + 1 - b)) with
    hlongest | hshorter
  · rw [hwait, Nat.min_eq_right hlongest]
    exact delayAfter_le policy a
  · have hself : policy.initialDelay / (2 ^ k) ^ (2 ^ 32 + 1 - b) = policy.initialDelay := by
      refine Nat.le_antisymm (Nat.div_le_self _ _) ?_
      omega
    have hsame : policy.initialDelay * (2 ^ k) ^ (a - 1) = policy.initialDelay := by
      rcases Nat.div_eq_self.1 hself with hzero | hone
      · rw [hzero, Nat.zero_mul]
      · have hk : 2 ^ k = 1 := (Nat.pow_eq_one.1 hone).resolve_right (by omega)
        rw [hk, one_pow, Nat.mul_one]
    rw [h.delayAfter_of_le ha, hsame]
    exact hkept

/-- From one attempt to a later one the waits lie between the least and the longest, and the
later is not the shorter, exactly if neither attempt falls back. -/
theorem IsBinary.waits_grow_iff (h : policy.IsBinary k) (hab : a ≤ b) (hb : b < 2 ^ 32) :
    (min policy.initialDelay policy.maxDelay ≤ policy.delayAfter a ∧
        policy.delayAfter a ≤ policy.delayAfter b ∧ policy.delayAfter b ≤ policy.maxDelay) ↔
      ¬policy.FallsBack k a ∧ ¬policy.FallsBack k b := by
  rw [h.fallsBack_iff (hab.trans_lt hb), h.fallsBack_iff hb, not_lt, not_lt]
  constructor
  · rintro ⟨hleast, hgrows, -⟩
    exact ⟨hleast, hleast.trans hgrows⟩
  · rintro ⟨hleast, hkept⟩
    refine ⟨hleast, ?_, delayAfter_le policy b⟩
    rcases le_or_gt b (2 ^ 31) with hbforward | hbback
    · exact h.delayAfter_mono_of_le hab hbforward
    · rcases le_or_gt a (2 ^ 31) with haforward | haback
      · exact h.delayAfter_le_of_kept haforward hbback hb hkept
      · exact h.delayAfter_mono_of_lt haback hab hb

/-- Waits of 100 milliseconds and more, doubled up to 300. -/
def doubling : RetryPolicy := ⟨5, 100, 300, .ofNat 2⟩

theorem doubling_isBinary : doubling.IsBinary 1 where
  initialDelay_lt := by decide
  maxDelay_lt := by decide
  multiplier := by
    rw [pow_one, ← Nat.cast_ofNat (n := 2)]
    exact Double.isNumber_ofNat (by decide)

/-- The doubled waits grow from the third attempt up to the last one that counts forwards. -/
theorem doubling_grows :
    doubling.IsBinary 1 ∧ 100 ≤ doubling.delayAfter 3 ∧
      doubling.delayAfter 3 ≤ doubling.delayAfter (2 ^ 31) ∧
      doubling.delayAfter (2 ^ 31) ≤ 300 :=
  ⟨doubling_isBinary, (doubling_isBinary.waits_grow_iff (by decide) (by decide)).2
    ⟨fun hback => absurd hback.1 (by decide), fun hback => absurd hback.1 (by decide)⟩⟩

/-- The doubled waits have reached the longest, and one attempt after `2 ^ 31` there is none. -/
theorem doubling_breaks_off :
    doubling.IsBinary 1 ∧ doubling.delayAfter 4 = 300 ∧ doubling.delayAfter (2 ^ 31 + 1) = 0 ∧
      ¬(min doubling.initialDelay doubling.maxDelay ≤ doubling.delayAfter 4 ∧
        doubling.delayAfter 4 ≤ doubling.delayAfter (2 ^ 31 + 1) ∧
        doubling.delayAfter (2 ^ 31 + 1) ≤ doubling.maxDelay) :=
  ⟨doubling_isBinary, by decide +kernel⟩

end ProgramQueue.Push.RetryPolicy
