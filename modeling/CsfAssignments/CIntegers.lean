import Mathlib.Algebra.Order.Ring.Int
import Mathlib.Data.Int.Notation
import Mathlib.Data.Nat.Notation

/-!
# Conversions between C integer types

An `int` has 32 bits, and `size_t` and `uint64_t` have 64.
-/

namespace CsfAssignments.CIntegers

/-- Conversion to `int`. -/
def toInt (n : ℤ) : ℤ := (n + 2 ^ 31) % 2 ^ 32 - 2 ^ 31

/-- Conversion to `uint32_t`. -/
def toUInt32 (n : ℤ) : ℕ := (n % 2 ^ 32).toNat

/-- Conversion to `uint64_t`. -/
def toUInt64 (n : ℤ) : ℕ := (n % 2 ^ 64).toNat

theorem toInt_eq {n : ℤ} (hlow : -2 ^ 31 ≤ n) (hhigh : n < 2 ^ 31) : toInt n = n := by
  rw [toInt]
  omega

theorem toInt_natCast {n : ℕ} (hn : n < 2 ^ 31) : toInt n = n :=
  toInt_eq (by omega) (by omega)

theorem toUInt32_natCast {n : ℕ} (hn : n < 2 ^ 32) : toUInt32 n = n := by
  rw [toUInt32]
  omega

theorem toUInt64_natCast {n : ℕ} (hn : n < 2 ^ 64) : toUInt64 n = n := by
  rw [toUInt64]
  omega

end CsfAssignments.CIntegers
