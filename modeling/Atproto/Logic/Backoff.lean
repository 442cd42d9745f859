import Mathlib.Algebra.Order.Ring.Nat

/-!
# Exponential backoff

A task is tried until an attempt succeeds or until a number of attempts have failed.  After each
failure it waits twice as long as after the one before.
-/

namespace Logic.Backoff

/-- The wait after a number of failures. -/
def wait (initial failures : Nat) : Nat := initial * 2 ^ failures

/-- The wait, by machine arithmetic that saturates. -/
def saturatedWait (bound initial failures : Nat) : Nat :=
  min (initial * min (2 ^ failures) bound) bound

variable {bound initial failures : Nat}

theorem wait_le_wait_succ :
  wait initial failures ≤ wait initial (failures + 1)
  := by
  rw [wait, wait, pow_succ]
  apply Nat.mul_le_mul_left
  omega

/-- Machine arithmetic is exact for waits that fit. -/
theorem saturatedWait_eq (h : wait initial failures ≤ bound) :
  saturatedWait bound initial failures = wait initial failures
  := by
  rw [wait] at h
  rw [saturatedWait, wait]
  rcases Nat.eq_zero_or_pos initial with rfl | hpos
  · rw [Nat.zero_mul, Nat.zero_mul, Nat.zero_min]
  · have hpow : 2 ^ failures ≤ bound := Nat.le_trans (Nat.le_mul_of_pos_left _ hpos) h
    rw [Nat.min_eq_left hpow, Nat.min_eq_left h]

end Logic.Backoff
