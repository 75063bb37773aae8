import Mathlib.Data.Int.Notation
import Mathlib.Tactic.NormNum

/-! Conversions between the integer types of a 64-bit C++ implementation.
Integer values are mathematical integers; a conversion reduces modulo the target's width.
-/

namespace CachingFileSystem.Containers

/-- Conversion to `int`: reduction modulo `2^32` into the two's complement range. -/
def toInt (value : ℤ) : ℤ := Int.bmod value (2 ^ 32)

/-- Conversion to `size_t`: reduction modulo `2^64`. -/
def toSize (value : ℤ) : ℤ := value % 2 ^ 64

/-- An `int` value is below `2^31`. -/
theorem toInt_lt (value : ℤ) : toInt value < 2 ^ 31 := by
  have bound := @Int.bmod_lt value (2 ^ 32) (by decide)
  simpa [toInt] using bound

/-- An `int` value is at least `-2^31`. -/
theorem le_toInt (value : ℤ) : -2 ^ 31 ≤ toInt value := by
  have bound := @Int.le_bmod value (2 ^ 32) (by decide)
  simpa [toInt] using bound

/-- Values in the `int` range convert to themselves. -/
theorem toInt_eq_self {value : ℤ} (low : -2 ^ 31 ≤ value) (high : value < 2 ^ 31)
    : toInt value = value := by
  apply Int.bmod_eq_of_le_mul_two <;> omega

/-- A nonnegative value that converts to a nonnegative `int` never grows. -/
theorem toInt_le {value : ℤ} (nonneg : 0 ≤ value) : toInt value ≤ value := by
  simp only [toInt, Int.bmod_def]
  push_cast
  split <;> omega

/-- Values in the `size_t` range convert to themselves. -/
theorem toSize_eq_self {value : ℤ} (low : 0 ≤ value) (high : value < 2 ^ 64)
    : toSize value = value :=
  Int.emod_eq_of_lt low high

end CachingFileSystem.Containers
