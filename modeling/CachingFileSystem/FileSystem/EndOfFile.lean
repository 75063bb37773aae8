import CachingFileSystem.FileSystem.ReadCounts

/-! When a read that returns nothing, or less than it was asked for, means the end of the file:
`(int) st.st_size` has to be the size of the file.
-/

namespace CachingFileSystem.FileSystem

open CachingFileSystem.BufferCache
open CachingFileSystem.Containers

variable {Count : Type} {r : Request}

/-- Nothing is returned only for an offset that is no place in the file. -/
def ZeroOnlyAtEnd (r : Request) (ret : ℤ) : Prop :=
  ret = 0 → r.offset < 0 ∨ r.file.stSize ≤ r.offset

/-- Less than was asked for is returned only where the file ends before. -/
def ShortOnlyAtEnd (r : Request) (ret : ℤ) : Prop :=
  ret < r.size.toNat → r.file.stSize < r.offset + r.size.toNat

/-- The conversions to `int` that the call makes keep their values. -/
structure ConversionsExact (r : Request) : Prop where
  fileSize : r.file.fileSize = r.file.stSize
  firstBlock : r.Inside → r.firstBlock = r.offset / r.file.stBlksize
  blockBegin
    : ∀ block,
        r.Inside
        → r.firstBlock ≤ block
        → block < r.lastBlock
        → toInt (block * r.file.blockSize) = block * r.file.stBlksize

theorem conversionsExact_iff : ConversionsExact r ↔ r.file.stSize < 2 ^ 31 := by
  constructor
  · intro exact'
    rw [← exact'.fileSize]
    exact r.file.fileSize_lt
  · intro measured
    have blockSize := r.file.blockSize_eq
    refine ⟨File.fileSize_eq measured, ?_, ?_⟩
    · intro inside
      rw [Request.firstBlock_eq inside, blockSize]
    · intro block inside low high
      obtain ⟨nonneg, within⟩ := Request.visited_inside inside low high
      have bound := r.file.fileSize_lt
      have product := Int.mul_nonneg nonneg r.file.blockSize_pos.le
      rw [← blockSize]
      exact toInt_eq_self (by omega) (within.trans bound)

section Calls

variable [LinearOrder Count] [OrderTop Count] [One Count] [Add Count] {args : CacheArgs}
  {cfs : CfsState} {files : Set File} {s : CacheManager Count BlockBuf} {pread : Pread}

/-- What a call returns whose blocks can all be read: nothing outside the file as it sees it,
else what there is up to its end.
-/
theorem FsCall.returns (call : FsCall args cfs files s pread r) (positive : 0 < r.size.toNat)
    (asked : (r.size.toNat : ℤ) < 2 ^ 31)
    : (r.Inside
        → ∃ last,
            cachingRead cfs pread s r
              = .ok (min (r.size.toNat : ℤ) (r.file.fileSize - r.offset), last))
      ∧ (¬ r.Inside → cachingRead cfs pread s r = .ok (0, .start s r)) := by
  refine ⟨?_, ?_⟩
  · intro inside
    have before := inside.before
    have bound := r.file.fileSize_lt
    have data := Request.remainingData_of_fits inside (by omega)
    obtain ⟨history, c, coherent⟩ := call.coherent
    obtain ⟨last, called, _⟩ :=
      cachingRead_plan coherent call.member call.notLog inside (by omega) call.full
    exact ⟨last, data ▸ called⟩
  · exact cachingRead_rejected call.notLog

/-- A call whose blocks can all be read reports the end of the file only there, and converts
without loss, if and only if the size of the file fits an `int` and the offset is not
negative (or the file ends before what was asked for). Each part has its own condition.
-/
theorem cachingRead_endOfFile_iff (call : FsCall args cfs files s pread r)
    (positive : 0 < r.size.toNat) (asked : (r.size.toNat : ℤ) < 2 ^ 31)
    : ∃ ret last,
        cachingRead cfs pread s r = .ok (ret, last)
        ∧ (ZeroOnlyAtEnd r ret
          ↔ r.offset < 0 ∨ r.file.stSize ≤ r.offset ∨ r.offset < r.file.fileSize)
        ∧ (ShortOnlyAtEnd r ret
          ↔ r.file.stSize < r.offset + r.size.toNat
            ∨ (0 ≤ r.offset ∧ r.offset + r.size.toNat ≤ r.file.fileSize))
        ∧ (ConversionsExact r ↔ r.file.stSize < 2 ^ 31)
        ∧ (ZeroOnlyAtEnd r ret ∧ ShortOnlyAtEnd r ret ∧ ConversionsExact r
          ↔ r.file.stSize < 2 ^ 31
            ∧ (0 ≤ r.offset ∨ r.file.stSize < r.offset + r.size.toNat)) := by
  have shorter := r.file.fileSize_le
  have size (measured : r.file.stSize < 2 ^ 31) := File.fileSize_eq measured
  obtain ⟨returned, rejected⟩ := call.returns positive asked
  rcases Classical.em r.Inside with inside | outside
  · obtain ⟨last, called⟩ := returned inside
    obtain ⟨nonneg, before⟩ := inside
    refine ⟨_, last, called, ?_, ?_, conversionsExact_iff, ?_⟩
    · simp only [ZeroOnlyAtEnd]
      omega
    · simp only [ShortOnlyAtEnd]
      omega
    · simp only [ZeroOnlyAtEnd, ShortOnlyAtEnd, conversionsExact_iff]
      omega
  · have stops : r.offset < 0 ∨ r.file.fileSize ≤ r.offset := by
      by_contra passes
      exact outside ⟨by omega, by omega⟩
    have short : (0 : ℤ) < r.size.toNat := by omega
    refine ⟨0, _, rejected outside, ?_, ?_, conversionsExact_iff, ?_⟩
    · simp only [ZeroOnlyAtEnd, forall_const]
      omega
    · simp only [ShortOnlyAtEnd, short, forall_const]
      omega
    · simp only [ZeroOnlyAtEnd, ShortOnlyAtEnd, conversionsExact_iff, short, forall_const]
      omega

end Calls

theorem zeroRequest_endOfFile
    : ∃ ret last,
        cachingRead (.below []) wholePread (.new 4 (1 / 2) (1 / 4) : CacheManager Int32 BlockBuf)
          (zeroRequest 5000 100) = .ok (ret, last)
        ∧ ShortOnlyAtEnd (zeroRequest 5000 100) ret := by
  have initially := @fsReaches_new Int32 _ _ _ _ twoOldArgs (.below []) {zeroFile} BlockOf
  obtain ⟨ret, last, called, _, short, _⟩ :=
    cachingRead_endOfFile_iff (zeroFile_call initially 5000 100) (by decide) (by decide)
  have fits : (100 : ℤ) + 5000 ≤ zeroFile.fileSize := by
    rw [zeroFile_fileSize]
    decide
  exact ⟨ret, last, called, short.mpr (Or.inr ⟨by decide, fits⟩)⟩

/-- A file of `2^32` zeros. -/
def hugeFile : File := .ofData 1 7 (List.replicate (2 ^ 32) 0)

theorem hugeFile_stSize : hugeFile.stSize = 2 ^ 32 :=
  congrArg Nat.cast (List.length_replicate : (List.replicate (2 ^ 32) (0 : UInt8)).length = 2 ^ 32)

/-- Such a file reads as empty. -/
theorem hugeFile_reads_empty
    : ∃ last,
        cachingRead (.below []) wholePread (.new 4 (1 / 2) (1 / 4) : CacheManager Int32 BlockBuf)
          ⟨['/', 'a'], hugeFile, 1, 0⟩ = .ok (0, last)
        ∧ ¬ ZeroOnlyAtEnd ⟨['/', 'a'], hugeFile, 1, 0⟩ 0 := by
  have size : hugeFile.fileSize = 0 := by
    rw [File.fileSize, hugeFile_stSize]
    decide
  have notLog : NotLog (.below []) ⟨['/', 'a'], hugeFile, 1, 0⟩ := by
    change ([] : Path) ++ ['/', 'a'].take pathMax ≠ _
    decide
  refine ⟨_, cachingRead_rejected notLog ?_, ?_⟩
  · intro inside
    have before : (0 : ℤ) < hugeFile.fileSize := inside.before
    rw [size] at before
    exact lt_irrefl 0 before
  · intro zero
    have outside : (0 : ℤ) < 0 ∨ hugeFile.stSize ≤ 0 := zero rfl
    rw [hugeFile_stSize] at outside
    revert outside
    decide

end CachingFileSystem.FileSystem
