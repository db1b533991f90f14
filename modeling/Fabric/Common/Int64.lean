import Mathlib.Algebra.Order.Ring.Int
import Mathlib.Data.Nat.Bitwise

/-!
# Signed machine integers

Values of `int64` are integers between −2⁶³ and 2⁶³ − 1. The result of an operation, and of a
conversion, is the value in this range that agrees with it modulo 2⁶⁴.
-/

namespace Fabric.Common

/-- The value of an `int64` that is computed as `n`. -/
@[irreducible] def int64 (n : ℤ) : ℤ := n.bmod (2 ^ 64)

variable {n : ℤ}

theorem int64_of_range (hle : -2 ^ 63 ≤ n) (hlt : n < 2 ^ 63) : int64 n = n := by
  rw [int64, Int.bmod_def]
  split <;> omega

theorem int64_range (n : ℤ) : -2 ^ 63 ≤ int64 n ∧ int64 n < 2 ^ 63 := by
  rw [int64, Int.bmod_def]
  split <;> omega

/-- A value that wraps only becomes smaller if it was not below the range. -/
theorem int64_le (hle : -2 ^ 63 ≤ n) : int64 n ≤ n := by
  rw [int64, Int.bmod_def]
  split <;> omega

/-- The value agrees with the integer as a number of 64 bits. -/
theorem int64_emod (n : ℤ) : int64 n % 2 ^ 64 = n % 2 ^ 64 := by
  rw [int64, Int.bmod_def]
  split <;> omega

/-- Wrapping a part of a sum wraps with the sum. -/
theorem int64_add_left (a b : ℤ) : int64 (int64 a + b) = int64 (a + b) := by
  rw [int64, int64, int64]
  exact Int.bmod_add_bmod

end Fabric.Common
