import CachingFileSystem.FileSystem.Operations
import Mathlib.Algebra.Order.Field.Rat
import Mathlib.Tactic.Linarith

/-! What the conversions before the block loop compute: the loop visits blocks inside the
file only, and no signed computation on their numbers overflows.
-/

namespace CachingFileSystem.FileSystem

open CachingFileSystem.BufferCache
open CachingFileSystem.Containers

theorem File.blockSize_eq (file : File) : file.blockSize = file.stBlksize :=
  toInt_eq_self (by have positive := file.blksizePositive; omega) file.blksizeFits

theorem File.blockSize_pos (file : File) : 0 < file.blockSize :=
  file.blockSize_eq ▸ file.blksizePositive

theorem File.fileSize_lt (file : File) : file.fileSize < 2 ^ 31 := toInt_lt _

/-- Narrowing never makes a file look longer. -/
theorem File.fileSize_le (file : File) : file.fileSize ≤ file.stSize := toInt_le (by
  simp only [stSize]
  omega)

theorem File.fileSize_eq {file : File} (measured : file.stSize < 2 ^ 31)
    : file.fileSize = file.stSize :=
  toInt_eq_self (by simp only [stSize]; omega) measured

theorem checkedInt_eq {value : ℤ} (low : -2 ^ 31 ≤ value) (high : value < 2 ^ 31)
    : checkedInt value = .ok value := by
  simp only [checkedInt, toInt_eq_self low high, if_true]

namespace Request

variable {r : Request}

/-- The offsets that pass the check before the loop. -/
structure Inside (r : Request) : Prop where
  nonneg : 0 ≤ r.offset
  before : r.offset < r.file.fileSize

theorem remainingData_bounds (r : Request)
    : -2 ^ 31 ≤ r.remainingData ∧ r.remainingData < 2 ^ 31 := by
  unfold remainingData
  split
  · exact ⟨le_toInt _, toInt_lt _⟩
  · exact ⟨le_toInt _, toInt_lt _⟩

/-- Without overflow the request is cut at the end of the file. -/
theorem remainingData_of_fits (inside : r.Inside) (fits : r.size.toNat + r.offset < 2 ^ 64)
    : r.remainingData = min (r.size.toNat : ℤ) (r.file.fileSize - r.offset) := by
  obtain ⟨nonneg, before⟩ := inside
  have bound := r.file.fileSize_lt
  simp only [remainingData]
  rw [toSize_eq_self (by omega) (by omega), toSize_eq_self (by omega) fits,
    toSize_eq_self (by omega) (by omega)]
  split
  · rw [toInt_eq_self (by omega) (by omega)]
    omega
  · rw [toInt_eq_self (by omega) (by omega)]
    omega

/-- A sum that wraps around is found smaller than the file, and the size it was computed
from converts to a negative `int`.
-/
theorem remainingData_of_wraps (inside : r.Inside) (wraps : 2 ^ 64 ≤ r.size.toNat + r.offset)
    : r.remainingData < 0 := by
  obtain ⟨nonneg, before⟩ := inside
  have bound := r.file.fileSize_lt
  have size := r.size.toNat_lt
  have sum : toSize (r.size.toNat + r.offset) = r.size.toNat + r.offset - 2 ^ 64 := by
    simp only [toSize]
    omega
  have small : toInt r.size.toNat = (r.size.toNat : ℤ) - 2 ^ 64 := by
    simp only [toInt, Int.bmod_def]
    omega
  have large : ¬ r.file.fileSize < (r.size.toNat : ℤ) + r.offset - 2 ^ 64 := by omega
  simp only [remainingData, toSize_eq_self (by omega : 0 ≤ r.file.fileSize) (by omega), sum, large,
    if_false, small]
  omega

theorem remainingData_le (inside : r.Inside)
    : r.remainingData ≤ r.file.fileSize - r.offset := by
  rcases Int.lt_or_le (r.size.toNat + r.offset) (2 ^ 64) with fits | wraps
  · rw [remainingData_of_fits inside fits]
    exact min_le_right _ _
  · have negative := remainingData_of_wraps inside wraps
    have before := inside.before
    omega

theorem firstBlock_eq (inside : r.Inside) : r.firstBlock = r.offset / r.file.blockSize := by
  have positive := r.file.blockSize_pos
  have nonneg : 0 ≤ r.offset / r.file.blockSize := Int.ediv_nonneg inside.nonneg positive.le
  have small : r.offset / r.file.blockSize ≤ r.offset := Int.ediv_le_self _ inside.nonneg
  have before := inside.before
  have bound := r.file.fileSize_lt
  rw [firstBlock, Int.tdiv_eq_ediv_of_nonneg inside.nonneg]
  exact toInt_eq_self (by omega) (by omega)

theorem firstBlock_nonneg (inside : r.Inside) : 0 ≤ r.firstBlock := by
  rw [firstBlock_eq inside]
  exact Int.ediv_nonneg inside.nonneg r.file.blockSize_pos.le

/-- The offset of the request in its first block. -/
def blockOffset (r : Request) : ℤ := r.offset % r.file.blockSize

theorem blockOffset_nonneg : 0 ≤ r.blockOffset := Int.emod_nonneg _ r.file.blockSize_pos.ne'

theorem blockOffset_lt : r.blockOffset < r.file.blockSize :=
  Int.emod_lt_of_pos _ r.file.blockSize_pos

theorem blockOffset_eq (inside : r.Inside)
    : toInt (r.offset.tmod r.file.blockSize) = r.blockOffset := by
  have nonneg := r.blockOffset_nonneg
  have below := r.blockOffset_lt
  have small := toInt_lt r.file.stBlksize
  rw [Int.tmod_eq_emod_of_nonneg inside.nonneg]
  exact toInt_eq_self (by simp only [blockOffset] at nonneg; omega)
    (below.trans small)

theorem firstBlock_mul (inside : r.Inside)
    : r.firstBlock * r.file.blockSize = r.offset - r.blockOffset := by
  have division := Int.mul_ediv_add_emod r.offset r.file.blockSize
  rw [firstBlock_eq inside, blockOffset, Int.mul_comm]
  omega

/-- The ceiling of the exact quotient, as bounds on products. -/
theorem ceil_bounds (r : Request)
    : (⌈(r.remainingData : ℚ) / (r.file.blockSize : ℚ)⌉ - 1) * r.file.blockSize < r.remainingData
      ∧ r.remainingData
        ≤ ⌈(r.remainingData : ℚ) / (r.file.blockSize : ℚ)⌉ * r.file.blockSize := by
  have blockPositive := r.file.blockSize_pos
  have positive : (0 : ℚ) < r.file.blockSize := by exact_mod_cast blockPositive
  constructor
  · have quotient := Int.ceil_lt_add_one ((r.remainingData : ℚ) / (r.file.blockSize : ℚ))
    rw [← sub_lt_iff_lt_add, lt_div_iff₀ positive] at quotient
    exact_mod_cast quotient
  · have quotient := Int.le_ceil ((r.remainingData : ℚ) / (r.file.blockSize : ℚ))
    rw [div_le_iff₀ positive] at quotient
    exact_mod_cast quotient

/-- The number of blocks is the ceiling of an exact division. -/
theorem numberOfBlocks_eq (r : Request)
    : r.numberOfBlocks = ⌈(r.remainingData : ℚ) / (r.file.blockSize : ℚ)⌉ := by
  obtain ⟨below, above⟩ := r.ceil_bounds
  have blockPositive := r.file.blockSize_pos
  have data := r.remainingData_bounds
  exact toInt_eq_self (by nlinarith) (by nlinarith)

theorem numberOfBlocks_bounds (r : Request)
    : (r.numberOfBlocks - 1) * r.file.blockSize < r.remainingData
      ∧ r.remainingData ≤ r.numberOfBlocks * r.file.blockSize
      ∧ -2 ^ 31 ≤ r.numberOfBlocks := by
  obtain ⟨below, above⟩ := r.ceil_bounds
  rw [← r.numberOfBlocks_eq] at below above
  exact ⟨below, above, le_toInt _⟩

theorem numberOfBlocks_pos (positive : 0 < r.remainingData) : 0 < r.numberOfBlocks := by
  have bounds := r.numberOfBlocks_bounds
  have block := r.file.blockSize_pos
  nlinarith

theorem numberOfBlocks_nonpos (nonpos : r.remainingData ≤ 0) : r.numberOfBlocks ≤ 0 := by
  have bounds := r.numberOfBlocks_bounds
  have block := r.file.blockSize_pos
  by_contra positive
  have nonneg : 0 ≤ (r.numberOfBlocks - 1) * r.file.blockSize :=
    Int.mul_nonneg (by omega) block.le
  omega

/-- More than one block is needed exactly for more bytes than a block has. -/
theorem one_lt_numberOfBlocks_iff : 1 < r.numberOfBlocks ↔ r.file.blockSize < r.remainingData := by
  obtain ⟨below, above, _⟩ := r.numberOfBlocks_bounds
  have positive := r.file.blockSize_pos
  constructor
  · intro several
    nlinarith
  · intro long
    by_contra few
    nlinarith

/-- Every block the loop visits begins inside the file as the call sees it. -/
theorem visited_inside (inside : r.Inside) {block : ℤ} (low : r.firstBlock ≤ block)
    (high : block < r.lastBlock)
    : 0 ≤ block ∧ block * r.file.blockSize < r.file.fileSize := by
  have block' := r.file.blockSize_pos
  obtain ⟨below, _, _⟩ := r.numberOfBlocks_bounds
  have first := firstBlock_mul inside
  have offset := r.blockOffset_nonneg
  have data := remainingData_le inside
  have start := firstBlock_nonneg inside
  simp only [lastBlock] at high
  refine ⟨start.trans low, ?_⟩
  have last : block * r.file.blockSize
      ≤ (r.firstBlock + (r.numberOfBlocks - 1)) * r.file.blockSize :=
    Int.mul_le_mul_of_nonneg_right (by omega) block'.le
  rw [Int.add_mul] at last
  linarith

/-- No computation on block numbers overflows. -/
theorem checkedInt_block (inside : r.Inside) {block : ℤ} (low : r.firstBlock ≤ block)
    (high : block < r.lastBlock)
    : checkedInt (block * r.file.blockSize) = .ok (block * r.file.blockSize) := by
  have bound := r.file.fileSize_lt
  have positive := r.file.blockSize_pos
  obtain ⟨nonneg, before⟩ := visited_inside inside low high
  have product := Int.mul_nonneg nonneg positive.le
  exact checkedInt_eq (by omega) (by omega)

theorem checkedInt_lastBlock (inside : r.Inside) : checkedInt r.lastBlock = .ok r.lastBlock := by
  have bound := r.file.fileSize_lt
  have positive := r.file.blockSize_pos
  have bounds := r.numberOfBlocks_bounds
  have start := firstBlock_nonneg inside
  have small : r.firstBlock < 2 ^ 31 := toInt_lt _
  rcases Int.lt_or_le 0 r.numberOfBlocks with some | none
  · obtain ⟨nonneg, before⟩ := @visited_inside r inside (r.lastBlock - 1)
      (by simp only [lastBlock]; omega) (by omega)
    have shrink : r.lastBlock - 1 ≤ (r.lastBlock - 1) * r.file.blockSize := by nlinarith
    exact checkedInt_eq (by omega) (by omega)
  · exact checkedInt_eq (by simp only [lastBlock]; omega) (by simp only [lastBlock]; omega)

end Request

end CachingFileSystem.FileSystem
