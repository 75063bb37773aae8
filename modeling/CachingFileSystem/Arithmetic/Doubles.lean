import CachingFileSystem.Arithmetic.Rounding
import Mathlib.Tactic.FieldSimp

/-! Doubles as values: every operation is the exact one rounded. The two zeros are not told apart,
which only a division by zero could do.
-/

namespace CachingFileSystem.Arithmetic

/-- 53 binary digits, the last of which has at least `2 ^ -1074`. -/
def binary64 : Format := ⟨52, -1074⟩

inductive Double where
  | nan
  | infinity (negative : Bool)
  | finite (value : ℚ) (inFormat : binary64.Representable value ∧ |value| < 2 ^ 1024)

namespace Double

/-- The double nearest to an exact result. -/
def ofRat (x : ℚ) : Double :=
  if small : |binary64.round x| < 2 ^ 1024 then
    .finite (binary64.round x) ⟨binary64.representable_round x, small⟩
  else .infinity (x < 0)

def ofInt (k : ℤ) : Double := ofRat k

def mul : Double → Double → Double
  | .finite x _, .finite y _ => ofRat (x * y)
  | .infinity negative, .finite y _ =>
      if y = 0 then .nan else .infinity (negative != decide (y < 0))
  | .finite x _, .infinity negative =>
      if x = 0 then .nan else .infinity (decide (x < 0) != negative)
  | .infinity negative, .infinity negative' => .infinity (negative != negative')
  | .nan, _ => .nan
  | _, .nan => .nan

def add : Double → Double → Double
  | .finite x _, .finite y _ => ofRat (x + y)
  | .infinity negative, .finite _ _ => .infinity negative
  | .finite _ _, .infinity negative => .infinity negative
  | .infinity negative, .infinity negative' =>
      if negative = negative' then .infinity negative else .nan
  | .nan, _ => .nan
  | _, .nan => .nan

def div : Double → Double → Double
  | .finite x _, .finite y _ =>
      if y = 0 then if x = 0 then .nan else .infinity (x < 0) else ofRat (x / y)
  | .infinity negative, .finite y _ => .infinity (negative != decide (y < 0))
  | .finite _ _, .infinity _ => ofRat 0
  | .infinity _, .infinity _ => .nan
  | .nan, _ => .nan
  | _, .nan => .nan

def floor : Double → Double
  | .finite x _ => ofRat ⌊x⌋
  | other => other

def ceil : Double → Double
  | .finite x _ => ofRat ⌈x⌉
  | other => other

/-- Nothing is ordered with a nan. -/
def lt : Double → Double → Bool
  | .finite x _, .finite y _ => x < y
  | .infinity negative, .finite _ _ => negative
  | .finite _ _, .infinity negative => !negative
  | .infinity negative, .infinity negative' => negative && !negative'
  | .nan, _ => false
  | _, .nan => false

def le : Double → Double → Bool
  | .finite x _, .finite y _ => x ≤ y
  | .infinity negative, .finite _ _ => negative
  | .finite _ _, .infinity negative => !negative
  | .infinity negative, .infinity negative' => negative || !negative'
  | .nan, _ => false
  | _, .nan => false

/-- Conversion to `int`, undefined where the truncated value is none. -/
def toInt? : Double → Option ℤ
  | .finite x _ =>
      let truncated := if x < 0 then ⌈x⌉ else ⌊x⌋
      if -2 ^ 31 ≤ truncated ∧ truncated < 2 ^ 31 then some truncated else none
  | _ => none

/-- The double is finite and has this value. -/
def Is (d : Double) (x : ℚ) : Prop := ∃ inFormat, d = .finite x inFormat

variable {d d' : Double} {x y t : ℚ} {k : ℤ}

theorem ofRat_ne_nan (x : ℚ) : ofRat x ≠ .nan := by
  unfold ofRat
  split
  · intro h
    cases h
  · intro h
    cases h

-----------------------------------------------------------------------------------------
-- Results of moderate size
-----------------------------------------------------------------------------------------

theorem representable_int (digits : |k| ≤ 2 ^ 53) : binary64.Representable k :=
  Format.representable_int (by decide) digits

/-- Up to `2 ^ 53` results stay as small; witness: rounding does not pass that number. -/
theorem abs_round_le (small : |x| ≤ 2 ^ 53) : |binary64.round x| ≤ 2 ^ 53 := by
  obtain ⟨low, high⟩ := abs_le.mp small
  have bound : binary64.Representable ((2 ^ 53 : ℤ) : ℚ) := representable_int (by decide)
  have above : binary64.round x ≤ 2 ^ 53 := by
    exact_mod_cast Format.round_le bound (by exact_mod_cast high)
  have below : -2 ^ 53 ≤ binary64.round x := by
    exact_mod_cast Format.le_round bound.neg (by exact_mod_cast low)
  exact abs_le.mpr ⟨below, above⟩

/-- So they are finite. -/
theorem ofRat_is (small : |x| ≤ 2 ^ 53) : (ofRat x).Is (binary64.round x) := by
  have finite : |binary64.round x| < 2 ^ 1024 :=
    (abs_round_le small).trans_lt (pow_lt_pow_right₀ (by norm_num) (by norm_num))
  exact ⟨⟨binary64.representable_round x, finite⟩, dif_pos finite⟩

/-- There numbers of the format are exact. -/
theorem ofRat_is_self (inFormat : binary64.Representable x) (small : |x| ≤ 2 ^ 53)
    : (ofRat x).Is x := by
  have finite := ofRat_is small
  rwa [Format.round_eq inFormat] at finite

/-- So are integers. -/
theorem ofInt_is (small : |k| ≤ 2 ^ 53) : (ofInt k).Is k :=
  ofRat_is_self (representable_int small) (by exact_mod_cast small)

theorem Is.lt_iff (h : d.Is x) (h' : d'.Is y) : d.lt d' = decide (x < y) := by
  obtain ⟨_, rfl⟩ := h
  obtain ⟨_, rfl⟩ := h'
  rfl

theorem Is.le_iff (h : d.Is x) (h' : d'.Is y) : d.le d' = decide (x ≤ y) := by
  obtain ⟨_, rfl⟩ := h
  obtain ⟨_, rfl⟩ := h'
  rfl

/-- The next integers are exact as well. -/
theorem Is.floor (h : d.Is x) (small : |x| ≤ 2 ^ 53) : d.floor.Is ⌊x⌋ := by
  obtain ⟨_, rfl⟩ := h
  obtain ⟨low, high⟩ := abs_le.mp small
  refine ofInt_is (abs_le.mpr ⟨Int.le_floor.mpr ?_, ?_⟩)
  · exact_mod_cast low
  · have above := (Int.floor_le x).trans high
    exact_mod_cast above

theorem Is.ceil (h : d.Is x) (small : |x| ≤ 2 ^ 53) : d.ceil.Is ⌈x⌉ := by
  obtain ⟨_, rfl⟩ := h
  obtain ⟨low, high⟩ := abs_le.mp small
  refine ofInt_is (abs_le.mpr ⟨?_, Int.ceil_le.mpr ?_⟩)
  · have below := low.trans (Int.le_ceil x)
    exact_mod_cast below
  · exact_mod_cast high

/-- An integer converts to itself. -/
theorem Is.toInt?_eq (h : d.Is k) (low : -2 ^ 31 ≤ k) (high : k < 2 ^ 31)
    : d.toInt? = some k := by
  obtain ⟨_, rfl⟩ := h
  simp only [toInt?, Int.floor_intCast, Int.ceil_intCast, ite_self, low, high, and_self, if_true]

-----------------------------------------------------------------------------------------
-- Signs and small distances
-----------------------------------------------------------------------------------------

/-- No rounded result of a nonpositive one is positive, not even where it overflows. -/
theorem ofRat_lt (nonpos : x ≤ 0) (h : d.Is y) (positive : 0 < y) : (ofRat x).lt d = true := by
  obtain ⟨_, rfl⟩ := h
  have zero : binary64.Representable ((0 : ℤ) : ℚ) := representable_int (by decide)
  have rounded : binary64.round x ≤ 0 := by
    exact_mod_cast Format.round_le zero (by exact_mod_cast nonpos)
  unfold ofRat
  split
  · exact decide_eq_true (rounded.trans_lt positive)
  next large =>
    have nonzero : x ≠ 0 := by
      intro same
      have vanishes : binary64.round x = 0 := by
        rw [same]
        exact_mod_cast Format.round_eq zero
      exact large (by rw [vanishes]; norm_num)
    exact decide_eq_true (lt_of_le_of_ne nonpos nonzero)

/-- Nor is the integer below it. -/
theorem floor_ofRat_lt (nonpos : x ≤ 0) (h : d.Is y) (positive : 0 < y)
    : (ofRat x).floor.lt d = true := by
  have zero : binary64.Representable ((0 : ℤ) : ℚ) := representable_int (by decide)
  have rounded : binary64.round x ≤ 0 := by
    exact_mod_cast Format.round_le zero (by exact_mod_cast nonpos)
  have less := ofRat_lt nonpos h positive
  unfold ofRat at less ⊢
  split
  · refine ofRat_lt ?_ h positive
    exact_mod_cast (Int.floor_le _).trans rounded
  next large => rwa [dif_neg large] at less

/-- What rounds to one at most is hardly above it. -/
theorem lt_of_round_le_one (rounded : binary64.round x ≤ 1) : x < 1 + 1 / 2 ^ 52 := by
  by_contra above
  have next : binary64.Representable (1 + 1 / 2 ^ 52) :=
    ⟨2 ^ 52 + 1, -52, by norm_num, by decide, by decide⟩
  have passed := (Format.le_round next (not_lt.mp above)).trans rounded
  norm_num at passed

/-- What rounds to an `int` or above it is hardly below it. -/
theorem lt_of_le_round (positive : 0 < k) (fits : k ≤ 2 ^ 31) (rounded : (k : ℚ) ≤ binary64.round x)
    : (k : ℚ) - 1 / 2 ^ 22 < x := by
  by_contra below
  have previous : binary64.Representable ((k : ℚ) - 1 / 2 ^ 22) := by
    refine ⟨k * 2 ^ 22 - 1, -22, ?_, ?_, by decide⟩
    · push_cast
      norm_num
      ring
    · change |k * 2 ^ 22 - 1| ≤ 2 ^ 53
      rw [abs_le]
      constructor <;> linarith
  have passed := rounded.trans (Format.round_le previous (not_lt.mp below))
  have part : (0 : ℚ) < 1 / 2 ^ 22 := by norm_num
  linarith

-----------------------------------------------------------------------------------------
-- Whole quotients
-----------------------------------------------------------------------------------------

/-- A double lies between a quotient of two `int`s and the integer below it; witness: the
distance is at least one over the divisor.
-/
theorem exists_between_quotient {dividend divisor below : ℤ} (small : |dividend| ≤ 2 ^ 31)
    (positive : 0 < divisor) (fits : divisor < 2 ^ 31) (less : below * divisor < dividend)
    (next : dividend ≤ (below + 1) * divisor)
    : ∃ t, binary64.Representable t ∧ (below : ℚ) < t ∧ t ≤ (dividend : ℚ) / divisor := by
  obtain ⟨low, high⟩ := abs_le.mp small
  obtain ⟨digits, enough, short⟩
      : ∃ digits : ℕ, divisor ≤ 2 ^ digits ∧ 2 ^ digits ≤ 2 * divisor := by
    have above := Nat.lt_pow_succ_log_self (b := 2) (by decide) divisor.toNat
    have below := Nat.pow_log_le_self 2 (show divisor.toNat ≠ 0 by omega)
    have aboveCast : (divisor.toNat : ℤ) < 2 ^ (Nat.log 2 divisor.toNat + 1) := by
      exact_mod_cast above
    have belowCast : (2 : ℤ) ^ Nat.log 2 divisor.toNat ≤ divisor.toNat := by exact_mod_cast below
    refine ⟨Nat.log 2 divisor.toNat + 1, by omega, ?_⟩
    rw [pow_succ]
    omega
  have power : (0 : ℚ) < 2 ^ digits := by positivity
  have value : ((below * 2 ^ digits + 1 : ℤ) : ℚ) * 2 ^ (-(digits : ℤ))
      = below + 1 / 2 ^ digits := by
    rw [zpow_neg, zpow_natCast]
    push_cast
    field_simp
  refine ⟨below + 1 / 2 ^ digits, ⟨below * 2 ^ digits + 1, -digits, value.symm, ?_, ?_⟩, ?_, ?_⟩
  · have product : |below * divisor| ≤ 2 ^ 32 := by
      rw [abs_le]
      constructor <;> linarith
    have wide : |below * 2 ^ digits| ≤ 2 * |below * divisor| := by
      rw [abs_mul, abs_mul, abs_of_pos positive, abs_of_pos (by positivity : (0 : ℤ) < 2 ^ digits)]
      nlinarith [abs_nonneg below]
    refine (abs_add_le _ _).trans ?_
    change _ ≤ (2 : ℤ) ^ 53
    rw [abs_one]
    linarith
  · have bound : (2 : ℤ) ^ digits < 2 ^ 32 := by linarith
    have few := (pow_lt_pow_iff_right₀ (by decide : (1 : ℤ) < 2)).mp bound
    change (-1074 : ℤ) ≤ _
    omega
  · have fraction : (0 : ℚ) < 1 / 2 ^ digits := by positivity
    linarith
  · have divisorPositive : (0 : ℚ) < divisor := by exact_mod_cast positive
    rw [le_div_iff₀ divisorPositive, add_mul]
    have whole : (below : ℚ) * divisor + 1 ≤ dividend := by exact_mod_cast less
    have part : 1 / 2 ^ digits * (divisor : ℚ) ≤ 1 := by
      rw [div_mul_eq_mul_div, one_mul, div_le_one power]
      exact_mod_cast enough
    linarith

section Quotients

variable {dividend divisor : ℤ}

/-- No quotient of `int`s is larger than its dividend. -/
theorem abs_quotient_le (small : |dividend| ≤ 2 ^ 31) (positive : 0 < divisor)
    : |(dividend : ℚ) / divisor| ≤ 2 ^ 31 := by
  have divisorPositive : (0 : ℚ) < divisor := by exact_mod_cast positive
  rw [abs_div, abs_of_pos divisorPositive, div_le_iff₀ divisorPositive]
  have one : (1 : ℚ) ≤ divisor := by exact_mod_cast positive
  have cast : |(dividend : ℚ)| ≤ 2 ^ 31 := by exact_mod_cast small
  linarith

/-- Rounded up it is an `int` again. -/
theorem ceil_quotient_bounds (low : -2 ^ 31 ≤ dividend) (high : dividend < 2 ^ 31)
    (positive : 0 < divisor)
    : -2 ^ 31 ≤ ⌈(dividend : ℚ) / divisor⌉ ∧ ⌈(dividend : ℚ) / divisor⌉ < 2 ^ 31 := by
  have divisorPositive : (0 : ℚ) < divisor := by exact_mod_cast positive
  constructor
  · have bound := (abs_le.mp (abs_quotient_le (abs_le.mpr ⟨low, high.le⟩) positive)).1
    have cast : ((-2 ^ 31 : ℤ) : ℚ) ≤ ⌈(dividend : ℚ) / divisor⌉ := by
      push_cast
      exact bound.trans (Int.le_ceil _)
    exact_mod_cast cast
  · have bound : (dividend : ℚ) / divisor ≤ ((2 ^ 31 - 1 : ℤ) : ℚ) := by
      rw [div_le_iff₀ divisorPositive]
      have le : dividend ≤ (2 ^ 31 - 1) * divisor := by nlinarith
      exact_mod_cast le
    have ceiling := Int.ceil_le.mpr bound
    omega

/-- Rounding the quotient to a double does not take it past the integers around it. -/
theorem ceil_round_quotient (low : -2 ^ 31 ≤ dividend) (high : dividend < 2 ^ 31)
    (positive : 0 < divisor) (fits : divisor < 2 ^ 31)
    : ⌈binary64.round ((dividend : ℚ) / divisor)⌉ = ⌈(dividend : ℚ) / divisor⌉ := by
  have divisorPositive : (0 : ℚ) < divisor := by exact_mod_cast positive
  obtain ⟨lowCeil, highCeil⟩ := ceil_quotient_bounds low high positive
  have above := Int.le_ceil ((dividend : ℚ) / divisor)
  have below := Int.ceil_lt_add_one ((dividend : ℚ) / divisor)
  generalize ⌈(dividend : ℚ) / (divisor : ℚ)⌉ = k at *
  have less : (k - 1) * divisor < dividend := by
    have strict : ((k - 1 : ℤ) : ℚ) < dividend / divisor := by
      push_cast
      linarith
    rw [lt_div_iff₀ divisorPositive] at strict
    exact_mod_cast strict
  have next : dividend ≤ (k - 1 + 1) * divisor := by
    rw [div_le_iff₀ divisorPositive] at above
    rw [sub_add_cancel]
    exact_mod_cast above
  obtain ⟨t, inFormat, beyond, under⟩ :=
    exists_between_quotient (abs_le.mpr ⟨low, high.le⟩) positive fits less next
  have upper : binary64.round (dividend / divisor) ≤ k :=
    Format.round_le (representable_int (abs_le.mpr ⟨by linarith, by linarith⟩)) above
  have lower : ((k - 1 : ℤ) : ℚ) < binary64.round (dividend / divisor) :=
    beyond.trans_le (Format.le_round inFormat under)
  exact Int.ceil_eq_iff.mpr ⟨by exact_mod_cast lower, upper⟩

/-- Dividing `int`s as doubles and rounding up gives the exact result. -/
theorem ceil_div_eq (low : -2 ^ 31 ≤ dividend) (high : dividend < 2 ^ 31)
    (positive : 0 < divisor) (fits : divisor < 2 ^ 31)
    : (ceil (div (ofInt dividend) (ofInt divisor))).toInt?
      = some ⌈(dividend : ℚ) / (divisor : ℚ)⌉ := by
  have small : |dividend| ≤ 2 ^ 31 := abs_le.mpr ⟨low, high.le⟩
  have nonzero : (divisor : ℚ) ≠ 0 := by exact_mod_cast positive.ne'
  obtain ⟨_, same⟩ : (ofInt dividend).Is dividend := ofInt_is (small.trans (by norm_num))
  obtain ⟨_, same'⟩ : (ofInt divisor).Is divisor :=
    ofInt_is (by rw [abs_of_pos positive]; linarith)
  have divided : div (ofInt dividend) (ofInt divisor) = ofRat (dividend / divisor) := by
    rw [same, same', div, if_neg nonzero]
  obtain ⟨lowCeil, highCeil⟩ := ceil_quotient_bounds low high positive
  have rounded := ceil_round_quotient low high positive fits
  have wide : |(dividend : ℚ) / divisor| ≤ 2 ^ 53 :=
    (abs_quotient_le small positive).trans (by norm_num)
  have result := ofRat_is wide
  have final := result.ceil (abs_round_le wide)
  rw [rounded] at final
  rw [divided]
  exact final.toInt?_eq lowCeil highCeil

end Quotients

end Double

end CachingFileSystem.Arithmetic
