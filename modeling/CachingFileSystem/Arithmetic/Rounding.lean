import Mathlib.Data.Int.Log
import Mathlib.Data.Rat.Floor
import Mathlib.Tactic.Linarith
import Mathlib.Tactic.Positivity
import Mathlib.Tactic.Ring

/-! Rounding of rationals to a binary floating-point format: to nearest, ties to even. Numbers of
the format are fixed, and rounding never passes one of them.
-/

namespace CachingFileSystem.Arithmetic

-----------------------------------------------------------------------------------------
-- Rounding to integers
-----------------------------------------------------------------------------------------

/-- The nearest integer, the even one of two that are equally near. -/
def roundEven (x : ℚ) : ℤ :=
  if x - ⌊x⌋ < 1 / 2 then ⌊x⌋
  else if 1 / 2 < x - ⌊x⌋ then ⌊x⌋ + 1
  else ⌊x⌋ + ⌊x⌋ % 2

/-- Only the two neighbors are candidates. -/
theorem roundEven_bounds (x : ℚ) : ⌊x⌋ ≤ roundEven x ∧ roundEven x ≤ ⌈x⌉ := by
  have below := Int.floor_le x
  unfold roundEven
  split
  · exact ⟨le_refl _, Int.floor_le_ceil x⟩
  next upper =>
    have above : ⌊x⌋ + 1 ≤ ⌈x⌉ := by
      have strict : (⌊x⌋ : ℚ) < x := by linarith
      exact Int.lt_ceil.mpr strict
    split
    · exact ⟨by omega, above⟩
    · exact ⟨by omega, by omega⟩

/-- An integer below stays below. -/
theorem le_roundEven {k : ℤ} {x : ℚ} (le : (k : ℚ) ≤ x) : k ≤ roundEven x :=
  (Int.le_floor.mpr le).trans (roundEven_bounds x).1

theorem roundEven_le {k : ℤ} {x : ℚ} (le : x ≤ k) : roundEven x ≤ k :=
  (roundEven_bounds x).2.trans (Int.ceil_le.mpr le)

@[simp]
theorem roundEven_intCast (k : ℤ) : roundEven k = k :=
  le_antisymm (roundEven_le (le_refl _)) (le_roundEven (le_refl _))

@[simp]
theorem roundEven_zero : roundEven 0 = 0 := by
  exact_mod_cast roundEven_intCast 0

/-- Rounding is symmetric; by the place of the argument between its neighbors. -/
theorem roundEven_neg (x : ℚ) : roundEven (-x) = -roundEven x := by
  by_cases whole : ∃ k : ℤ, x = k
  · obtain ⟨k, rfl⟩ := whole
    rw [← Int.cast_neg, roundEven_intCast, roundEven_intCast]
  · have strict : (⌊x⌋ : ℚ) < x :=
      lt_of_le_of_ne (Int.floor_le x) (fun same => whole ⟨⌊x⌋, same.symm⟩)
    have above := Int.lt_floor_add_one x
    have floor : ⌊-x⌋ = -⌊x⌋ - 1 := by
      refine Int.floor_eq_iff.mpr ⟨?_, ?_⟩
      · push_cast
        linarith
      · push_cast
        linarith
    unfold roundEven
    rw [floor]
    push_cast
    rcases lt_trichotomy (x - ⌊x⌋) (1 / 2) with less | middle | more
    · rw [if_pos less, if_neg (by linarith), if_pos (by linarith)]
      omega
    · rw [if_neg (by linarith), if_neg (by linarith), if_neg (by linarith), if_neg (by linarith)]
      omega
    · rw [if_neg (not_lt.mpr more.le), if_pos more, if_pos (by linarith)]
      omega

-----------------------------------------------------------------------------------------
-- Formats
-----------------------------------------------------------------------------------------

/-- A format with `precision + 1` binary digits; the last one has at least `2 ^ minExponent`. -/
structure Format where
  precision : ℕ
  minExponent : ℤ

/-- The numbers of the format, but for their size: whole multiples of a power of two with no more
digits than the format has.
-/
def Format.Representable (fmt : Format) (x : ℚ) : Prop :=
  ∃ m e : ℤ, x = m * 2 ^ e ∧ |m| ≤ 2 ^ (fmt.precision + 1) ∧ fmt.minExponent ≤ e

/-- The exponent of the last digit next to `x`. -/
def Format.lastDigit (fmt : Format) (x : ℚ) : ℤ :=
  max (Int.log 2 |x| - fmt.precision) fmt.minExponent

/-- Rounding to the nearest number of the format. -/
def Format.round (fmt : Format) (x : ℚ) : ℚ :=
  roundEven (x / 2 ^ fmt.lastDigit x) * 2 ^ fmt.lastDigit x

variable {fmt : Format} {x t : ℚ}

theorem zpow_two_pos (e : ℤ) : (0 : ℚ) < 2 ^ e := zpow_pos (by norm_num) e

theorem Format.Representable.neg (h : fmt.Representable x) : fmt.Representable (-x) := by
  obtain ⟨m, e, rfl, digits, low⟩ := h
  refine ⟨-m, e, ?_, by rwa [abs_neg], low⟩
  push_cast
  ring

theorem Format.lastDigit_neg : fmt.lastDigit (-x) = fmt.lastDigit x := by
  rw [lastDigit, lastDigit, abs_neg]

theorem Format.round_neg : fmt.round (-x) = -fmt.round x := by
  simp only [round, lastDigit_neg, neg_div, roundEven_neg]
  push_cast
  ring

/-- Rounding to the last digit never passes a multiple of it. -/
theorem Format.le_round_of_multiple {k : ℤ} (multiple : t = k * 2 ^ fmt.lastDigit x) (le : t ≤ x)
    : t ≤ fmt.round x := by
  have positive := zpow_two_pos (fmt.lastDigit x)
  rw [multiple] at le ⊢
  have below : k ≤ roundEven (x / 2 ^ fmt.lastDigit x) := by
    apply le_roundEven
    rwa [le_div_iff₀ positive]
  exact mul_le_mul_of_nonneg_right (by exact_mod_cast below) positive.le

/-- A power of two is a multiple of every smaller one. -/
theorem exists_multiple {e e' : ℤ} (le : e' ≤ e) (m : ℤ)
    : ∃ k : ℤ, (m : ℚ) * 2 ^ e = k * 2 ^ e' := by
  obtain ⟨d, rfl⟩ : ∃ d : ℕ, e = e' + d := ⟨(e - e').toNat, by omega⟩
  refine ⟨m * 2 ^ d, ?_⟩
  rw [zpow_add₀ (by norm_num : (2 : ℚ) ≠ 0), zpow_natCast]
  push_cast
  ring

/-- A number of the format can be written with fewer than all values of its digits. -/
theorem Format.Representable.normal (h : fmt.Representable t)
    : ∃ m e : ℤ, t = m * 2 ^ e ∧ |m| < 2 ^ (fmt.precision + 1) ∧ fmt.minExponent ≤ e := by
  obtain ⟨m, e, rfl, digits, low⟩ := h
  rcases lt_or_eq_of_le digits with less | most
  · exact ⟨m, e, rfl, less, low⟩
  -- a power of two has its digits to spare with the next exponent
  have half : (2 : ℤ) ^ (fmt.precision + 1) = 2 * 2 ^ fmt.precision := by ring
  have positive : (0 : ℤ) < 2 ^ fmt.precision := by positivity
  have up : (2 : ℚ) ^ (e + 1) = 2 ^ e * 2 := zpow_add_one₀ (by norm_num) e
  rcases abs_eq (by positivity : (0 : ℤ) ≤ 2 ^ (fmt.precision + 1)) |>.mp most with rfl | rfl
  · refine ⟨2 ^ fmt.precision, e + 1, ?_, ?_, by omega⟩
    · rw [half, up]
      push_cast
      ring
    · rw [abs_of_pos positive, half]
      omega
  · refine ⟨-2 ^ fmt.precision, e + 1, ?_, ?_, by omega⟩
    · rw [half, up]
      push_cast
      ring
    · rw [abs_neg, abs_of_pos positive, half]
      omega

/-- A number of the format is a multiple of the last digit of any number in its binade or below. -/
theorem Format.Representable.multiple (h : fmt.Representable t) (nonzero : t ≠ 0)
    (logs : Int.log 2 |x| ≤ Int.log 2 |t|)
    : ∃ k : ℤ, t = k * 2 ^ fmt.lastDigit x := by
  obtain ⟨m, e, rfl, digits, low⟩ := h.normal
  refine exists_multiple (max_le ?_ low) m
  have bound : |(m : ℚ) * 2 ^ e| < 2 ^ (e + (fmt.precision + 1 : ℕ)) := by
    rw [abs_mul, abs_of_pos (zpow_two_pos e), zpow_add₀ (by norm_num : (2 : ℚ) ≠ 0), mul_comm,
      zpow_natCast]
    refine mul_lt_mul_of_pos_left ?_ (zpow_two_pos e)
    exact_mod_cast digits
  have log := (Int.lt_zpow_iff_log_lt (by norm_num) (abs_pos.mpr nonzero)).mp bound
  push_cast at log
  omega

/-- Rounding never passes a number of the format; by where the smaller number is. -/
theorem Format.le_round (h : fmt.Representable t) (le : t ≤ x) : t ≤ fmt.round x := by
  by_cases zero : x = 0
  · subst zero
    simpa only [round, zero_div, roundEven_zero, Int.cast_zero, zero_mul] using le
  by_cases smaller : |x| ≤ |t|
  · have some : 0 < |x| := abs_pos.mpr zero
    obtain ⟨k, multiple⟩ :=
      h.multiple (abs_pos.mp (some.trans_le smaller)) (Int.log_mono_right some smaller)
    exact le_round_of_multiple multiple le
  have positive : 0 < x := by
    by_contra negative
    rw [abs_of_nonpos (not_lt.mp negative), abs_of_nonpos (le.trans (not_lt.mp negative))]
      at smaller
    linarith
  have power : (2 : ℚ) ^ Int.log 2 x ≤ x := Int.zpow_log_le_self (by norm_num) positive
  rcases le_or_gt (Int.log 2 |x| - fmt.precision) fmt.minExponent with subnormal | normal
  · -- all numbers of the format are multiples of its smallest digit
    obtain ⟨m, e, rfl, _, low⟩ := h
    have digit : fmt.lastDigit x = fmt.minExponent := max_eq_right subnormal
    obtain ⟨k, multiple⟩ := exists_multiple (digit.symm ▸ low) m
    exact le_round_of_multiple multiple le
  · rw [abs_of_pos positive] at normal
    have digit : fmt.lastDigit x ≤ Int.log 2 x := by
      rw [lastDigit, abs_of_pos positive]
      omega
    obtain ⟨k, multiple⟩ := exists_multiple digit 1
    rw [Int.cast_one, one_mul] at multiple
    rcases le_total t (2 ^ Int.log 2 x) with below | above
    · exact below.trans (le_round_of_multiple multiple power)
    · -- both are in the same binade, with the same last digit
      have positive' : 0 < t := (zpow_two_pos _).trans_le above
      obtain ⟨j, multiple'⟩ : ∃ j : ℤ, t = j * 2 ^ fmt.lastDigit x := by
        refine h.multiple positive'.ne' ?_
        rw [abs_of_pos positive, abs_of_pos positive']
        exact (Int.zpow_le_iff_le_log (by norm_num) positive').mp above
      exact le_round_of_multiple multiple' le

theorem Format.round_le (h : fmt.Representable t) (le : x ≤ t) : fmt.round x ≤ t := by
  have mirrored := Format.le_round h.neg (neg_le_neg le)
  rw [round_neg] at mirrored
  exact neg_le_neg_iff.mp mirrored

/-- So the numbers of the format are fixed. -/
theorem Format.round_eq (h : fmt.Representable x) : fmt.round x = x :=
  le_antisymm (round_le h (le_refl x)) (le_round h (le_refl x))

/-- Whole numbers with no more digits than the format has are in the format. -/
theorem Format.representable_int (low : fmt.minExponent ≤ 0) {k : ℤ}
    (digits : |k| ≤ 2 ^ (fmt.precision + 1))
    : fmt.Representable k :=
  ⟨k, 0, by rw [zpow_zero, mul_one], digits, low⟩

/-- What rounding returns is in the format; witness: the argument has no more digits in front of
the last one than the format has.
-/
theorem Format.representable_round (fmt : Format) (x : ℚ) : fmt.Representable (fmt.round x) := by
  refine ⟨roundEven (x / 2 ^ fmt.lastDigit x), fmt.lastDigit x, rfl, ?_, le_max_right _ _⟩
  have positive := zpow_two_pos (fmt.lastDigit x)
  have bound : |x / 2 ^ fmt.lastDigit x| ≤ 2 ^ (fmt.precision + 1) := by
    rw [abs_div, abs_of_pos positive, div_le_iff₀ positive, ← zpow_natCast,
      ← zpow_add₀ (by norm_num : (2 : ℚ) ≠ 0)]
    refine (Int.lt_zpow_succ_log_self (b := 2) (by norm_num) |x|).le.trans ?_
    refine zpow_le_zpow_right₀ (by norm_num) ?_
    have digit : Int.log 2 |x| - fmt.precision ≤ fmt.lastDigit x := le_max_left _ _
    push_cast
    omega
  obtain ⟨low, high⟩ := abs_le.mp bound
  rw [abs_le]
  exact ⟨le_roundEven (by exact_mod_cast low), roundEven_le (by exact_mod_cast high)⟩

end CachingFileSystem.Arithmetic
