import CachingFileSystem.FileSystem.DefinedReads

/-! How many bytes a read returns and where its copies go, when no block read fails. -/

namespace CachingFileSystem.FileSystem

open CachingFileSystem.BufferCache
open CachingFileSystem.Containers

variable {Count : Type}

/-- The number of bytes between the offset and the end of the file that were asked for. -/
def Request.available (r : Request) : ℤ := min (r.size.toNat : ℤ) (r.file.stSize - r.offset)

/-- The exact number of blocks that many bytes take. -/
def Request.blocksNeeded (r : Request) : ℕ :=
  ⌈(r.available : ℚ) / (r.file.stBlksize : ℚ)⌉.toNat

/-- The `int` variables before and in the block loop hold the exact values. -/
structure ExactInts (r : Request) : Prop where
  fileSize : r.file.fileSize = r.file.stSize
  blockSize : r.file.blockSize = r.file.stBlksize
  remainingData : r.remainingData = r.available
  firstBlock : r.firstBlock = r.offset / r.file.stBlksize
  numberOfBlocks : r.numberOfBlocks = ⌈(r.available : ℚ) / (r.file.stBlksize : ℚ)⌉
  lastBlock : 0 ≤ r.lastBlock ∧ r.lastBlock < 2 ^ 31
  blockBegin
    : ∀ block,
        r.firstBlock ≤ block
        → block < r.lastBlock
        → 0 ≤ block * r.file.blockSize ∧ block * r.file.blockSize < 2 ^ 31
  blockOffset : toInt (r.offset.tmod r.file.blockSize) = r.offset % r.file.stBlksize
  firstShare
    : 0 < r.file.blockSize - r.offset % r.file.stBlksize
      ∧ r.file.blockSize - r.offset % r.file.stBlksize < 2 ^ 31
  preadRet : ∀ block, toInt (r.file.blockBytes block).length = (r.file.blockBytes block).length

/-- The states of the block loop: each iteration copies a positive number of bytes to where the
last one stopped, and all of them together the whole count. `buf_prog` is always the end of
what is stored.
-/
structure TilesBuffer (pread : Pread) (r : Request) (total : ℤ) (blocks : ℕ)
    (states : ℕ → ReadState Count) [LinearOrder Count] [OrderTop Count] [One Count] [Add Count]
    : Prop where
  iterates
    : ∀ t < blocks,
        readBlock pread r (r.firstBlock + t) (states t) = .ok (none, states (t + 1))
  copies
    : ∀ t < blocks,
        ∃ blockOffset sizeToCopy,
          (states (t + 1)).copies.map Copy.part
            = (states t).copies.map Copy.part ++ [(r.firstBlock + t, blockOffset, sizeToCopy)]
          ∧ 0 < sizeToCopy
          ∧ (states (t + 1)).bufProg = (states t).bufProg + sizeToCopy
          ∧ (states (t + 1)).remainingData = (states t).remainingData - sizeToCopy
  within
    : ∀ t ≤ blocks,
        0 ≤ (states t).bufProg
        ∧ 0 ≤ (states t).remainingData
        ∧ (states t).bufProg + (states t).remainingData = total
  stored : ∀ t ≤ blocks, ((states t).buf.length : ℤ) = (states t).bufProg
  begins : (states 0).bufProg = 0 ∧ (states 0).copies = []
  ends : (states blocks).bufProg = total ∧ (states blocks).remainingData = 0

section Conversions

variable {r : Request}

theorem length_blockBytes_lt (file : File) (block : ℤ)
    : ((file.blockBytes block).length : ℤ) < 2 ^ 31 := by
  have short : (file.blockBytes block).length ≤ file.blockSize.toNat := List.length_take_le _ _
  have small := toInt_lt file.stBlksize
  have positive := file.blockSize_pos
  have size : file.blockSize < 2 ^ 31 := small
  omega

/-- Below `2^31` no conversion changes a value and no computation overflows. -/
theorem exactInts (measured : r.file.stSize < 2 ^ 31) (asked : (r.size.toNat : ℤ) < 2 ^ 31)
    (nonneg : 0 ≤ r.offset) (before : r.offset < r.file.stSize)
    : ExactInts r := by
  have fileSize := File.fileSize_eq measured
  have inside : r.Inside := ⟨nonneg, fileSize ▸ before⟩
  have remainingData : r.remainingData = r.available := by
    rw [Request.remainingData_of_fits inside (by omega), fileSize]
    rfl
  have blockSize := r.file.blockSize_eq
  have last : r.lastBlock < 2 ^ 31 ∧ 0 ≤ r.lastBlock := by
    have bounds := Request.checkedInt_lastBlock inside
    have first := Request.firstBlock_nonneg inside
    have some : 0 ≤ r.numberOfBlocks := by
      have above := (Request.numberOfBlocks_bounds r).2.1
      have positive := r.file.blockSize_pos
      have data : 0 ≤ r.remainingData := by
        rw [remainingData, Request.available]
        omega
      nlinarith
    refine ⟨?_, by simp only [Request.lastBlock]; omega⟩
    unfold checkedInt at bounds
    split at bounds
    · next same => exact same ▸ toInt_lt _
    · cases bounds
  have offset := Request.blockOffset_eq inside
  have low := r.blockOffset_nonneg
  have high := r.blockOffset_lt
  simp only [Request.blockOffset, blockSize] at offset low high
  refine ⟨fileSize, blockSize, remainingData, ?_, ?_, ⟨last.2, last.1⟩, ?_, ?_, ?_, ?_⟩
  · rw [Request.firstBlock_eq inside, blockSize]
  · rw [Request.numberOfBlocks_eq, remainingData, blockSize]
  · intro block atLeast less
    obtain ⟨nonneg, within⟩ := Request.visited_inside inside atLeast less
    have bound := r.file.fileSize_lt
    exact ⟨Int.mul_nonneg nonneg r.file.blockSize_pos.le, within.trans bound⟩
  · rw [blockSize]
    exact offset
  · have small := r.file.blksizeFits
    rw [blockSize]
    omega
  · intro block
    have short := length_blockBytes_lt r.file block
    exact toInt_eq_self (by omega) short

/-- Where nothing overflows, the loop makes one iteration for every block needed. -/
theorem ExactInts.blocks (h : ExactInts r) : r.numberOfBlocks.toNat = r.blocksNeeded := by
  rw [Request.blocksNeeded, h.numberOfBlocks]

end Conversions

section Calls

variable [LinearOrder Count] [OrderTop Count] [One Count] [Add Count] {args : CacheArgs}
  {cfs : CfsState} {files : Set File} {s : CacheManager Count BlockBuf} {pread : Pread}
  {r : Request}

/-- The planned states tile the buffer; witness: the number of bytes copied grows with every
iteration up to the whole count.
-/
theorem tilesBuffer_of_reached {history : List (BlockID × Bool)}
    {states : ℕ → ReadState Count} (positive : 0 < r.remainingData)
    (start : states 0 = .start s r)
    (steps
      : ∀ t < r.numberOfBlocks.toNat,
          readBlock pread r (r.firstBlock + t) (states t) = .ok (none, states (t + 1)))
    (reached
      : ∀ t ≤ r.numberOfBlocks.toNat, Reached files args.sections r s history t (states t))
    : TilesBuffer pread r r.remainingData r.numberOfBlocks.toNat states := by
  refine ⟨steps, ?_, ?_, fun t within => (reached t within).length_buf positive, ?_, ?_⟩
  · intro t more
    have now := reached t (Nat.le_of_lt more)
    have later := reached (t + 1) more
    refine ⟨r.planOffset t, r.planSize (Cached s (r.blockID r.firstBlock)) t, ?_, ?_, ?_, ?_⟩
    · rw [later.copies, now.copies, List.range_succ, List.map_append]
      rfl
    · have grows := @Request.progress_lt r (Cached s (r.blockID r.firstBlock)) positive t
        (by omega)
      simp only [Request.planSize]
      omega
    · rw [later.bufProg, now.bufProg, Request.planSize]
      omega
    · rw [later.remaining, now.remaining, Request.planSize]
      omega
  · intro t within
    obtain ⟨low, high, _⟩ := @Request.progress_bounds r
      (Cached s (r.blockID r.firstBlock)) positive t
    rw [(reached t within).bufProg, (reached t within).remaining]
    omega
  · rw [start]
    exact ⟨rfl, rfl⟩
  · have last := reached _ (Nat.le_refl _)
    rw [last.bufProg, last.remaining, Request.progress_last positive]
    omega

/-- A read that needs no block at all tiles the empty range. -/
theorem tilesBuffer_nothing (nothing : r.remainingData = 0)
    : TilesBuffer pread r 0 0 (fun _ => ReadState.start s r) where
  iterates := fun _ none => absurd none (Nat.not_lt_zero _)
  copies := fun _ none => absurd none (Nat.not_lt_zero _)
  within := by
    intro t _
    simp only [ReadState.start, nothing]
    omega
  stored := fun _ _ => rfl
  begins := ⟨rfl, rfl⟩
  ends := ⟨rfl, nothing⟩

/-- The call makes one iteration for every block needed, tiles the first part of the buffer with its
copies and returns the count of what is available; outside the file it returns zero. None of its
steps is undefined.
-/
structure TilesRequest (cfs : CfsState) (pread : Pread) (s : CacheManager Count BlockBuf)
    (r : Request)
    : Prop where
  defined : ReadDefined cfs pread s r
  outside
    : r.offset < 0 ∨ r.file.stSize ≤ r.offset → cachingRead cfs pread s r = .ok (0, .start s r)
  tiles
    : 0 ≤ r.offset
      → r.offset < r.file.stSize
      → ExactInts r
        ∧ r.available ≤ r.size.toNat
        ∧ ∃ states : ℕ → ReadState Count,
            cachingRead cfs pread s r = .ok (r.available, states r.blocksNeeded)
            ∧ TilesBuffer pread r r.available r.blocksNeeded states

/-- A read of a file and a size below `2^31` tiles the buffer whenever its blocks can be read and
the path is not that of the log; witness: the states of its plan.
-/
theorem cachingRead_tiles (call : FsRead args cfs files s pread r) (notLog : NotLog cfs r)
    (measured : r.file.stSize < 2 ^ 31) (asked : (r.size.toNat : ℤ) < 2 ^ 31)
    (nonneg : 0 ≤ r.offset) (before : r.offset < r.file.stSize)
    : ∃ states : ℕ → ReadState Count,
        cachingRead cfs pread s r = .ok (r.available, states r.blocksNeeded)
        ∧ TilesBuffer pread r r.available r.blocksNeeded states := by
  have inside : r.Inside := ⟨nonneg, (File.fileSize_eq measured).symm ▸ before⟩
  have ints := exactInts measured asked nonneg before
  rw [← ints.blocks, ← ints.remainingData]
  rcases Int.lt_or_le 0 r.remainingData with positive | none
  · obtain ⟨history, c, coherent⟩ := call.coherent
    obtain ⟨states, start, steps, reached, called⟩ :=
      cachingRead_trace coherent call.member notLog inside positive call.full
    exact ⟨states, called, tilesBuffer_of_reached positive start steps reached⟩
  · have nothing : r.remainingData = 0 := by
      have available := ints.remainingData
      simp only [Request.available] at available
      omega
    have blocks := Int.toNat_of_nonpos (Request.numberOfBlocks_nonpos none)
    refine ⟨fun _ => .start s r, ?_, ?_⟩
    · rw [nothing]
      exact cachingRead_nothing notLog inside none
    · rw [nothing, blocks]
      exact tilesBuffer_nothing nothing

/-- The count of the bytes available is no errno, so a call for the log file does not return it. -/
theorem TilesRequest.notLog (h : TilesRequest cfs pread s r) : NotLog cfs r := by
  by_contra log
  have called := @cachingRead_log Count _ _ _ _ pread r s cfs log
  rcases Classical.em (0 ≤ r.offset ∧ r.offset < r.file.stSize) with ⟨nonneg, before⟩ | outside
  · obtain ⟨_, _, _, again, _⟩ := h.tiles nonneg before
    have returned : r.available = -enoent :=
      (Prod.mk.inj (Except.ok.inj (again.symm.trans called))).1
    simp only [Request.available, enoent] at returned
    omega
  · have returned : (0 : ℤ) = -enoent :=
      (Prod.mk.inj (Except.ok.inj ((h.outside (by omega)).symm.trans called))).1
    exact absurd returned (by decide)

/-- In every run of defined reads and renames, a call whose blocks can be read tiles its request
exactly when it is not for the log file and, inside the file, no insertion for it removes the
first block of the old section.
-/
theorem cachingRead_tiles_iff (call : FsRead args cfs files s pread r)
    (measured : r.file.stSize < 2 ^ 31) (asked : (r.size.toNat : ℤ) < 2 ^ 31)
    : TilesRequest cfs pread s r
      ↔ NotLog cfs r
        ∧ (0 ≤ r.offset
            → r.offset < r.file.stSize
            → r.SparesBoundaries (oldBoundary args) s) := by
  have size := File.fileSize_eq measured
  constructor
  · intro tiles
    have notLog := tiles.notLog
    refine ⟨notLog, fun nonneg before => ?_⟩
    exact (call.readDefined_iff notLog ⟨nonneg, size.symm ▸ before⟩).mp tiles.defined
  · rintro ⟨notLog, spares⟩
    refine ⟨fun _ inside => ?_, fun outside => ?_, fun nonneg before => ?_⟩
    · exact (call.readDefined_iff notLog inside).mpr
        (spares inside.nonneg (size ▸ inside.before)) notLog inside
    · refine cachingRead_rejected notLog (fun inside => ?_)
      have before := inside.before
      have nonneg := inside.nonneg
      omega
    · exact ⟨exactInts measured asked nonneg before, min_le_left _ _,
        cachingRead_tiles call notLog measured asked nonneg before⟩

end Calls

theorem cachingRead_tiles_zeros
    : TilesRequest (.below []) wholePread
        (.new 4 (1 / 2) (1 / 4) : CacheManager Int32 BlockBuf) (zeroRequest 5000 100) := by
  have call := zeroFile_read (@definedReaches_new Int32 _ _ _ _ twoOldArgs (.below []) {zeroFile})
    5000 100
  refine (cachingRead_tiles_iff call zeroFile_measured (by decide)).mpr
    ⟨zeroRequest_notLog 5000 100, fun nonneg before => ?_⟩
  exact zeroRequest_spares (new_represents twoOldArgs) (Nat.zero_le 1)
    ⟨nonneg, (File.fileSize_eq zeroFile_measured).symm ▸ before⟩

/-- With a single old place the first insertion removes the node of the boundary. -/
theorem first_read_undefined
    : FsRead singleOldArgs (.below []) {zeroFile}
        (.new 4 (1 / 4) (1 / 4) : CacheManager Int32 BlockBuf) wholePread (zeroRequest 1 0)
      ∧ ¬ TilesRequest (.below []) wholePread
          (.new 4 (1 / 4) (1 / 4) : CacheManager Int32 BlockBuf) (zeroRequest 1 0) := by
  have call : FsRead singleOldArgs (.below []) {zeroFile}
      (.new 4 (1 / 4) (1 / 4) : CacheManager Int32 BlockBuf) wholePread (zeroRequest 1 0) :=
    ⟨definedReaches_new singleOldArgs _ _, Set.mem_singleton zeroFile, wholePread_full _⟩
  have before : 0 < zeroFile.fileSize := zeroFile_fileSize ▸ by decide
  refine ⟨call, fun tiles => ?_⟩
  exact call.not_sparesBoundaries (by decide +kernel)
    (@byteRequest_single zeroFile ['/', 'a'] 0 (le_refl 0) before).1
    ((call.readDefined_iff (zeroRequest_notLog 1 0) ⟨le_refl 0, before⟩).mp tiles.defined)

end CachingFileSystem.FileSystem
