import CachingFileSystem.Arithmetic.Doubles
import CachingFileSystem.FileSystem.Ranges

/-! What the program computes in doubles: the number of blocks of a read, the check of the cache
arguments and the section sizes. The results are those of exact arithmetic, for the block count
always and for the sections with fractions that were accepted as well.
-/

namespace CachingFileSystem.FileSystem

open CachingFileSystem.Arithmetic
open CachingFileSystem.BufferCache
open CachingFileSystem.Containers

-----------------------------------------------------------------------------------------
-- Block counts
-----------------------------------------------------------------------------------------

/-- `ceil(((double) remaining_data / (double) block_size))`. -/
def Request.ceilBlocks (r : Request) : Double :=
  (Double.div (.ofInt r.remainingData) (.ofInt r.file.blockSize)).ceil

/-- The double quotient of a read is rounded, its ceiling is exact: the conversion to `int` is
defined for every request and gives the number of blocks.
-/
theorem ceilBlocks_toInt (r : Request) : r.ceilBlocks.toInt? = some r.numberOfBlocks := by
  have data := r.remainingData_bounds
  rw [r.numberOfBlocks_eq]
  exact Double.ceil_div_eq data.1 data.2 r.file.blockSize_pos (toInt_lt r.file.stBlksize)

-----------------------------------------------------------------------------------------
-- Cache arguments
-----------------------------------------------------------------------------------------

/-- The condition on the cache arguments, as `main` evaluates it. -/
def argsValidityDoubles (numberOfBlocks : ℤ) (fOld fNew : Double) : Bool :=
  !((fOld.mul (.ofInt numberOfBlocks)).floor.lt (.ofInt 1)
    || (Double.ofInt 1).le fOld
    || (fNew.mul (.ofInt numberOfBlocks)).floor.lt (.ofInt 1)
    || (Double.ofInt 1).le fNew
    || (Double.ofInt 1).lt (fOld.add fNew)
    || numberOfBlocks ≤ 0)

/-- `(int) floor(fraction * numberOfBlocks)`. -/
def sectionSize (numberOfBlocks : ℤ) (fraction : Double) : Except Halt ℤ :=
  demand (fraction.mul (.ofInt numberOfBlocks)).floor.toInt?

variable {Count Buf : Type} [One Count]

/-- The chain of placeholders, and the bounds at the nodes with these numbers. -/
def filledChain (numberOfBlocks middleAt oldAt : ℤ) : CacheManager Count Buf :=
  let cacheChain := (fun chain : NodeList (CacheBlock Count Buf) =>
    chain.pushFront (.new (-1) (-1) none none))^[numberOfBlocks.toNat] .empty
  let bounds := assignBounds middleAt oldAt cacheChain.addrs 1 (none, none)
  {
    numberOfBlocks := numberOfBlocks
    blocksMap := fun _ => none
    cacheChain := cacheChain
    middleSectionIter := bounds.1
    oldSectionIter := bounds.2
  }

/-- The constructor for at least one block, with the integers it computes. -/
def constructed (numberOfBlocks : ℤ) (fOld fNew : Double)
    : Except Halt (CacheManager Count Buf) := do
  let newSize ← sectionSize numberOfBlocks fNew
  let oldSize ← sectionSize numberOfBlocks fOld
  let notNew ← checkedInt (numberOfBlocks - newSize)
  let middleSize ← checkedInt (notNew - oldSize)
  -- the counters of both loops pass the last block
  let _ ← checkedInt (numberOfBlocks + 1)
  let middleAt ← checkedInt (newSize + 1)
  let notOld ← checkedInt (newSize + middleSize)
  let oldAt ← checkedInt (notOld + 1)
  .ok (filledChain numberOfBlocks middleAt oldAt)

section Accepted

variable {n : ℤ} {fOld fNew d : Double}

/-- An accepted fraction that is a number lies between zero and one, and its share of the blocks
is an `int`; by the kinds of doubles.
-/
theorem fraction_of_accepted (positive : 0 < n) (fits : n < 2 ^ 31) (number : d ≠ .nan)
    (large : (d.mul (.ofInt n)).floor.lt (.ofInt 1) = false)
    (small : (Double.ofInt 1).le d = false)
    : ∃ x,
        d.Is x
        ∧ 0 < x
        ∧ x < 1
        ∧ 1 ≤ ⌊binary64.round (x * n)⌋
        ∧ ⌊binary64.round (x * n)⌋ ≤ n
        ∧ sectionSize n d = .ok ⌊binary64.round (x * n)⌋ := by
  have one : (Double.ofInt 1).Is ((1 : ℤ) : ℚ) := Double.ofInt_is (by decide)
  have blocks : (Double.ofInt n).Is n :=
    Double.ofInt_is (by rw [abs_of_pos positive]; linarith)
  have blocksPositive : (0 : ℚ) < n := by exact_mod_cast positive
  obtain ⟨_, sameBlocks⟩ := blocks
  obtain ⟨_, sameOne⟩ := id one
  cases d with
  | nan => exact absurd rfl number
  | infinity negative =>
      rw [sameOne] at small
      rw [sameBlocks, sameOne, Double.mul, if_neg blocksPositive.ne'] at large
      simp only [Double.floor, Double.lt, Double.le, not_lt.mpr blocksPositive.le, decide_false,
        Bool.bne_false] at large small
      rw [large] at small
      cases small
  | finite x inFormat =>
      have isX : (Double.finite x inFormat).Is x := ⟨inFormat, rfl⟩
      have less : x < 1 := by
        rw [one.le_iff isX, decide_eq_false_iff_not, not_le] at small
        exact_mod_cast small
      have product : (Double.finite x inFormat).mul (.ofInt n) = .ofRat (x * n) := by
        rw [sameBlocks]
        rfl
      rw [product] at large
      have above : 0 < x := by
        by_contra nonpos
        have rejected := Double.floor_ofRat_lt (x := x * n)
          (mul_nonpos_of_nonpos_of_nonneg (not_lt.mp nonpos) blocksPositive.le) one (by norm_num)
        rw [large] at rejected
        cases rejected
      have low : 0 < x * n := mul_pos above blocksPositive
      have below : x * n ≤ n := by nlinarith
      have high : (n : ℚ) < 2 ^ 31 := by exact_mod_cast fits
      have wide : |x * n| ≤ 2 ^ 53 := by
        rw [abs_of_pos low]
        linarith
      have floor := (Double.ofRat_is wide).floor (Double.abs_round_le wide)
      rw [floor.lt_iff one, decide_eq_false_iff_not, not_lt] at large
      have atLeast : 1 ≤ ⌊binary64.round (x * n)⌋ := by exact_mod_cast large
      have rounded : binary64.round (x * n) ≤ n :=
        Format.round_le (Double.representable_int (by rw [abs_of_pos positive]; linarith)) below
      have atMost : ⌊binary64.round (x * n)⌋ ≤ n := by
        have le := (Int.floor_le _).trans rounded
        exact_mod_cast le
      refine ⟨x, isX, above, less, atLeast, atMost, ?_⟩
      rw [sectionSize, product, floor.toInt?_eq (by linarith) (by linarith)]
      rfl

/-- The sizes of both sections fit into the cache together; witness: rounding moves neither the
sum of the fractions nor the shares by as much as a block.
-/
theorem shares_fit {x y : ℚ} (positive : 0 < n) (fits : n < 2 ^ 31)
    (below : binary64.round (x + y) ≤ 1)
    (first : 1 ≤ ⌊binary64.round (x * n)⌋) (second : 1 ≤ ⌊binary64.round (y * n)⌋)
    (firstFits : ⌊binary64.round (x * n)⌋ ≤ n) (secondFits : ⌊binary64.round (y * n)⌋ ≤ n)
    : ⌊binary64.round (x * n)⌋ + ⌊binary64.round (y * n)⌋ ≤ n := by
  have sum := Double.lt_of_round_le_one below
  have left :=
    Double.lt_of_le_round (by linarith) (by linarith) (Int.floor_le (binary64.round (x * n)))
  have right :=
    Double.lt_of_le_round (by linarith) (by linarith) (Int.floor_le (binary64.round (y * n)))
  have blocksPositive : (0 : ℚ) < n := by exact_mod_cast positive
  have high : (n : ℚ) < 2 ^ 31 := by exact_mod_cast fits
  have total : (x + y) * n < n + 1 / 2 ^ 21 := by
    have scaled := mul_lt_mul_of_pos_right sum blocksPositive
    linarith
  have less : ((⌊binary64.round (x * n)⌋ + ⌊binary64.round (y * n)⌋ : ℤ) : ℚ)
      < ((n + 1 : ℤ) : ℚ) := by
    push_cast
    linarith
  have less' : ⌊binary64.round (x * n)⌋ + ⌊binary64.round (y * n)⌋ < n + 1 := by exact_mod_cast less
  omega

/-- Sizes that fit are those of exact fractions, which `main` accepts as well. -/
theorem exists_exact_args {oldSize newSize : ℤ} (someOld : 1 ≤ oldSize) (someNew : 1 ≤ newSize)
    (fits : oldSize + newSize ≤ n)
    : ∃ args : CacheArgs,
        args.numberOfBlocks = n
        ∧ oldSectionSize n args.fOld = oldSize
        ∧ newSectionSize n args.fNew = newSize := by
  have positive : (0 : ℚ) < n := by
    have blocks : 0 < n := by omega
    exact_mod_cast blocks
  have share (size : ℤ) : ⌊(size : ℚ) / n * n⌋ = size := by
    rw [div_mul_cancel₀ _ positive.ne', Int.floor_intCast]
  have part {size : ℤ} (less : size < n) : (size : ℚ) / n < 1 := by
    rw [div_lt_one positive]
    exact_mod_cast less
  have total : (oldSize : ℚ) / n + newSize / n ≤ 1 := by
    rw [← add_div, div_le_one positive]
    exact_mod_cast fits
  refine ⟨⟨n, oldSize / n, newSize / n, ?_⟩, rfl, share oldSize, share newSize⟩
  simp only [argsValidity, share, Bool.not_eq_true', Bool.or_eq_false_iff, decide_eq_false_iff_not,
    not_lt, not_le, ge_iff_le, gt_iff_lt]
  exact ⟨⟨⟨⟨⟨someOld, part (by omega)⟩, someNew⟩, part (by omega)⟩, total⟩, by omega⟩

theorem sectionSize_nan : sectionSize n .nan = .error .undefinedBehavior := by
  unfold sectionSize
  cases Double.ofInt n <;> rfl

theorem checkedInt_of_fits {k : ℤ} (low : -2 ^ 31 ≤ k) (high : k < 2 ^ 31)
    : checkedInt k = .ok k :=
  if_pos (toInt_eq_self low high)

/-- The number of a size that `floor` of a rounded product has: the exact one, unless rounding
reached the next integer.
-/
theorem floor_round_bounds {x : ℚ} (low : 0 ≤ x * n) (high : x * n ≤ 2 ^ 53)
    : ⌊x * n⌋ ≤ ⌊binary64.round (x * n)⌋ ∧ ⌊binary64.round (x * n)⌋ ≤ ⌈x * n⌉ := by
  have bottom : 0 ≤ ⌊x * n⌋ := Int.floor_nonneg.mpr low
  have top : ⌈x * n⌉ ≤ 2 ^ 53 := Int.ceil_le.mpr (by exact_mod_cast high)
  have order := Int.floor_le_ceil (x * n)
  constructor
  · refine Int.le_floor.mpr (Format.le_round (Double.representable_int ?_) (Int.floor_le _))
    rw [abs_of_nonneg bottom]
    linarith
  · have rounded : binary64.round (x * n) ≤ ⌈x * n⌉ := by
      refine Format.round_le (Double.representable_int ?_) (Int.le_ceil _)
      rw [abs_of_nonneg (bottom.trans order)]
      exact top
    have le := (Int.floor_le _).trans rounded
    exact_mod_cast le

/-- What a section of the constructed cache has of an accepted fraction. -/
def ShareOf (n : ℤ) (fraction : Double) (size : ℤ) : Prop :=
  ∃ x, fraction.Is x ∧ 0 < x ∧ x < 1 ∧ ⌊x * n⌋ ≤ size ∧ size ≤ ⌈x * n⌉

/-- Accepted fractions that are numbers have sizes that fit. -/
theorem sizes_of_accepted (fits : n < 2 ^ 31) (accepted : argsValidityDoubles n fOld fNew = true)
    (oldNumber : fOld ≠ .nan) (newNumber : fNew ≠ .nan)
    : ∃ oldSize newSize,
        sectionSize n fOld = .ok oldSize
        ∧ sectionSize n fNew = .ok newSize
        ∧ ShareOf n fOld oldSize
        ∧ ShareOf n fNew newSize
        ∧ 1 ≤ oldSize
        ∧ 1 ≤ newSize
        ∧ oldSize + newSize ≤ n := by
  simp only [argsValidityDoubles, Bool.not_eq_true', Bool.or_eq_false_iff,
    decide_eq_false_iff_not, not_le] at accepted
  obtain ⟨⟨⟨⟨⟨oldLarge, oldSmall⟩, newLarge⟩, newSmall⟩, sum⟩, positive⟩ := accepted
  obtain ⟨x, isX, overX, lessX, someOld, oldFits, oldShare⟩ :=
    fraction_of_accepted positive fits oldNumber oldLarge oldSmall
  obtain ⟨y, isY, overY, lessY, someNew, newFits, newShare⟩ :=
    fraction_of_accepted positive fits newNumber newLarge newSmall
  have blocksPositive : (0 : ℚ) < n := by exact_mod_cast positive
  have high : (n : ℚ) < 2 ^ 31 := by exact_mod_cast fits
  have rounded : binary64.round (x + y) ≤ 1 := by
    have added : fOld.add fNew = .ofRat (x + y) := by
      obtain ⟨_, rfl⟩ := isX
      obtain ⟨_, rfl⟩ := isY
      rfl
    have one : (Double.ofInt 1).Is ((1 : ℤ) : ℚ) := Double.ofInt_is (by decide)
    have wide : |x + y| ≤ 2 ^ 53 := by
      rw [abs_of_pos (add_pos overX overY)]
      linarith
    rw [added, one.lt_iff (Double.ofRat_is wide), decide_eq_false_iff_not, not_lt] at sum
    exact_mod_cast sum
  have share {z : ℚ} (above : 0 < z) (less : z < 1)
      : ⌊z * n⌋ ≤ ⌊binary64.round (z * n)⌋ ∧ ⌊binary64.round (z * n)⌋ ≤ ⌈z * n⌉ := by
    refine floor_round_bounds (mul_pos above blocksPositive).le ?_
    nlinarith
  exact ⟨_, _, oldShare, newShare, ⟨x, isX, overX, lessX, share overX lessX⟩,
    ⟨y, isY, overY, lessY, share overY lessY⟩, someOld, someNew,
    shares_fit positive fits rounded someOld someNew oldFits newFits⟩

/-- From such sizes the constructor builds the chain, or its loops overflow at the end. -/
theorem constructed_of_sizes (Count Buf : Type) [One Count] {oldSize newSize : ℤ}
    (fits : n < 2 ^ 31)
    (old : sectionSize n fOld = .ok oldSize) (new : sectionSize n fNew = .ok newSize)
    (someOld : 1 ≤ oldSize) (someNew : 1 ≤ newSize) (total : oldSize + newSize ≤ n)
    : (constructed n fOld fNew : Except Halt (CacheManager Count Buf))
      = if n + 1 < 2 ^ 31 then
          .ok (filledChain n (newSize + 1) (newSize + (n - newSize - oldSize) + 1))
        else .error .undefinedBehavior := by
  unfold constructed
  rw [new, old]
  simp only [ok_bind]
  rw [checkedInt_of_fits (by linarith) (by linarith : n - newSize < 2 ^ 31)]
  simp only [ok_bind]
  rw [checkedInt_of_fits (by linarith) (by linarith : n - newSize - oldSize < 2 ^ 31)]
  simp only [ok_bind]
  split
  next small =>
    rw [checkedInt_of_fits (by linarith) small,
      checkedInt_of_fits (by linarith) (by linarith : newSize + 1 < 2 ^ 31),
      checkedInt_of_fits (by linarith) (by linarith : newSize + (n - newSize - oldSize) < 2 ^ 31)]
    simp only [ok_bind]
    rw [checkedInt_of_fits (by linarith)
      (by linarith : newSize + (n - newSize - oldSize) + 1 < 2 ^ 31)]
    rfl
  next large =>
    obtain rfl : n = 2 ^ 31 - 1 := by omega
    rfl

/-- Without a number for a fraction there are no sizes. -/
theorem constructed_nan (missing : fOld = .nan ∨ fNew = .nan)
    : (constructed n fOld fNew : Except Halt (CacheManager Count Buf))
      = .error .undefinedBehavior := by
  unfold constructed
  rcases missing with rfl | rfl
  · rw [sectionSize_nan]
    unfold sectionSize
    cases (fNew.mul (.ofInt n)).floor.toInt? <;> rfl
  · rw [sectionSize_nan]
    rfl

/-- The constructor after accepted arguments: it builds the cache of exact fractions that were
accepted as well, unless a fraction is no number or the loops count past the last `int`.
-/
theorem constructed_cases (Count Buf : Type) [One Count] (fits : n < 2 ^ 31)
    (accepted : argsValidityDoubles n fOld fNew = true)
    : (fOld ≠ .nan
        ∧ fNew ≠ .nan
        ∧ n + 1 < 2 ^ 31
        ∧ ∃ args : CacheArgs,
            args.numberOfBlocks = n
            ∧ ShareOf n fOld (oldSectionSize n args.fOld)
            ∧ ShareOf n fNew (newSectionSize n args.fNew)
            ∧ (constructed n fOld fNew : Except Halt (CacheManager Count Buf))
                = .ok (.new n args.fOld args.fNew))
      ∨ ((fOld = .nan ∨ fNew = .nan ∨ n + 1 = 2 ^ 31)
          ∧ (constructed n fOld fNew : Except Halt (CacheManager Count Buf))
              = .error .undefinedBehavior) := by
  by_cases missing : fOld = .nan ∨ fNew = .nan
  · refine Or.inr ⟨?_, constructed_nan missing⟩
    exact missing.imp_right Or.inl
  · obtain ⟨oldNumber, newNumber⟩ := not_or.mp missing
    obtain ⟨oldSize, newSize, old, new, oldShare, newShare, someOld, someNew, total⟩ :=
      sizes_of_accepted fits accepted oldNumber newNumber
    have built := constructed_of_sizes Count Buf fits old new someOld someNew
      total
    by_cases small : n + 1 < 2 ^ 31
    · obtain ⟨args, blocks, rfl, rfl⟩ := exists_exact_args someOld someNew total
      refine Or.inl ⟨oldNumber, newNumber, small, args, blocks, oldShare, newShare, ?_⟩
      rw [built, if_pos small]
      rfl
    · refine Or.inr ⟨Or.inr (Or.inr (by omega)), ?_⟩
      rw [built, if_neg small]

end Accepted

end CachingFileSystem.FileSystem
