import ProgramQueue.Double

/-!
# Waiting between attempts

The wait grows by a factor with each attempt and never exceeds a cap.  The factor
is a power of the multiplier, which counts as one if it is less.
-/

namespace ProgramQueue.Push

structure RetryPolicy where
  maxAttempts : Nat
  /-- The wait after the first attempt, in milliseconds. -/
  initialDelay : Nat
  /-- The longest wait, in milliseconds. -/
  maxDelay : Nat
  multiplier : Double
deriving DecidableEq, Repr

namespace RetryPolicy

/-- Multiplies an accumulator by a power of a base, given the exponent and how
many bits of it to look at: the base is squared from bit to bit. -/
def powerFrom (base total : Double) : (bits exponent : Nat) → Double
  | 0, _ => total
  | bits + 1, exponent =>
      let total := if exponent % 2 = 1 then total * base else total
      if exponent / 2 = 0 then total
      else powerFrom (base * base) total bits (exponent / 2)

/-- A base to a signed 32-bit power, by repeated squaring. -/
def power (base : Double) : Int → Double
  | .ofNat n => powerFrom base .one 32 n
  | .negSucc n => .one / powerFrom base .one 32 (n + 1)

/-- A number below `2 ^ 32` as a signed 32-bit integer; the upper half is
negative. -/
def signed32 (n : Nat) : Int := if n < Nat.pow 2 31 then n else n - (Nat.pow 2 32 : Nat)

/-- The wait in milliseconds after an attempt, the first being number one. -/
def delayAfter (policy : RetryPolicy) (attempt : Nat) : Nat :=
  let factor := power (policy.multiplier.max .one) (signed32 (attempt - 1))
  let grown := Double.ofNat policy.initialDelay * factor
  min (grown.toNatBelow (Nat.pow 2 64)) policy.maxDelay

end RetryPolicy

end ProgramQueue.Push
