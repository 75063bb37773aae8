import CachingFileSystem.BufferCache.Runs
import CachingFileSystem.FileSystem.CopyPlan

/-! Runs that read single bytes: each puts one block into the cache, or is served from it. -/

namespace CachingFileSystem.FileSystem

open CachingFileSystem.BufferCache
open CachingFileSystem.Containers
open CachingFileSystem.ReplacementPolicy

/-- A file with blocks of 4096 bytes. -/
def File.ofData (stDev stIno : UInt64) (data : List UInt8) : File :=
  ⟨stDev, stIno, 4096, data, by decide, by decide⟩

/-- `pread` of a regular file without errors. -/
def wholePread : Pread :=
  fun file count offset => .ok ((file.data.drop offset.toNat).take count.toNat)

theorem wholePread_block (file : File) (k : ℤ)
    : wholePread file (toSize file.blockSize) (k * file.blockSize) = .ok (file.blockBytes k) := by
  have positive := file.blockSize_pos
  have small := toInt_lt file.stBlksize
  have size : toSize file.blockSize = file.blockSize :=
    toSize_eq_self positive.le (small.trans (by norm_num))
  simp only [wholePread, size, File.blockBytes]

theorem wholePread_full (r : Request) : FullReads wholePread r :=
  fun block _ _ => wholePread_block r.file block

theorem wholePread_sound (files : Set File) : PreadSound files BlockOf wholePread := by
  intro file _ k bytes _ _ read
  exact Except.ok.inj (read.symm.trans (wholePread_block file k))

/-- `pread` of a disk that only fails, with `EIO`. -/
def brokenPread : Pread := fun _ _ _ => .error 5

theorem brokenPread_block (file : File) (k : ℤ)
    : brokenPread file (toSize file.blockSize) (k * file.blockSize) = .error 5 := rfl

-----------------------------------------------------------------------------------------
-- Requests for one byte
-----------------------------------------------------------------------------------------

def File.byteRequest (file : File) (path : Path) (offset : ℤ) : Request := ⟨path, file, 1, offset⟩

section Requests

variable {file : File} {path : Path} {offset : ℤ}

theorem byteRequest_inside (nonneg : 0 ≤ offset) (before : offset < file.fileSize)
    : (file.byteRequest path offset).Inside :=
  ⟨nonneg, before⟩

theorem byteRequest_remainingData (nonneg : 0 ≤ offset) (before : offset < file.fileSize)
    : (file.byteRequest path offset).remainingData = 1 := by
  have one : ((1 : UInt64).toNat : ℤ) = 1 := rfl
  have bound := file.fileSize_lt
  have fits : ((1 : UInt64).toNat : ℤ) + offset < 2 ^ 64 := by
    rw [one]
    linarith
  have data :=
    Request.remainingData_of_fits (@byteRequest_inside file path offset nonneg before) fits
  change _ = min ((1 : UInt64).toNat : ℤ) (file.fileSize - offset) at data
  rw [data, one]
  exact min_eq_left (Int.sub_pos_of_lt before)

/-- Such a request is for a part of one block. -/
theorem byteRequest_single (nonneg : 0 ≤ offset) (before : offset < file.fileSize)
    : 0 < (file.byteRequest path offset).remainingData
      ∧ (file.byteRequest path offset).remainingData
        ≤ (file.byteRequest path offset).file.blockSize := by
  rw [byteRequest_remainingData nonneg before]
  exact ⟨Int.one_pos, file.blockSize_pos⟩

theorem byteRequest_numberOfBlocks (nonneg : 0 ≤ offset) (before : offset < file.fileSize)
    : (file.byteRequest path offset).numberOfBlocks.toNat = 1 := by
  obtain ⟨positive, short⟩ := @byteRequest_single file path offset nonneg before
  have blocks := Request.numberOfBlocks_pos positive
  have several := @Request.one_lt_numberOfBlocks_iff (file.byteRequest path offset)
  omega

theorem byteRequest_firstBlock (nonneg : 0 ≤ offset) (before : offset < file.fileSize)
    : (file.byteRequest path offset).firstBlock = offset / file.blockSize :=
  Request.firstBlock_eq (byteRequest_inside nonneg before)

theorem byteRequest_blockID (nonneg : 0 ≤ offset) (before : offset < file.fileSize)
    : (file.byteRequest path offset).blockID (file.byteRequest path offset).firstBlock
      = (file.fileId, offset / file.blockSize) := by
  rw [Request.blockID, byteRequest_firstBlock nonneg before]
  rfl

theorem byteRequest_visited (nonneg : 0 ≤ offset) (before : offset < file.fileSize)
    : Visited (file.byteRequest path offset) (file.byteRequest path offset).firstBlock :=
  (byteRequest_inside nonneg before).visited (byteRequest_single nonneg before).1

end Requests

/-- Some path is not that of the log file; witness: two paths that name different files. -/
theorem exists_notLog (cfs : CfsState) (file : File) (offset : ℤ)
    : ∃ path, NotLog cfs (file.byteRequest path offset) := by
  by_contra none
  simp only [not_exists, NotLog, not_not, File.byteRequest, cachingFullPath] at none
  have same := (none []).trans (none ['/']).symm
  simp [pathMax] at same

-----------------------------------------------------------------------------------------
-- Runs
-----------------------------------------------------------------------------------------

section Runs

variable {cfg : Sections} {Count : Type} {files only : Set File} [LinearOrder Count]
  [OrderTop Count] [One Count] [Add Count] {args : CacheArgs} {cfs : CfsState}
  {Sound Sound' : File → ℤ → BlockBuf → Prop} {s : CacheManager Count BlockBuf}
  {preads history : List (BlockID × Bool)}
  {c : FrequencyCache cfg BlockID (Payload BlockBuf) Count} {file : File} {path : Path}
  {offset : ℤ}

/-- Reading a byte of an uncached block puts this block into the cache. -/
theorem Coherent.readUncached (h : Coherent files Sound s history c) (member : file ∈ files)
    (sound
      : Sound file (offset / file.blockSize)
          ⟨file.identity, file.blockBytes (offset / file.blockSize)⟩)
    (notLog : NotLog cfs (file.byteRequest path offset)) (nonneg : 0 ≤ offset)
    (before : offset < file.fileSize) (absent : (file.fileId, offset / file.blockSize) ∉ c.keys)
    : ∃ (st : ReadState Count) (c' : FrequencyCache cfg BlockID (Payload BlockBuf) Count),
        cachingRead cfs wholePread s (file.byteRequest path offset) = .ok (1, st)
        ∧ st.preads = [((file.fileId, offset / file.blockSize), true)]
        ∧ Coherent files Sound st.cacheManager
            (((file.fileId, offset / file.blockSize), true) :: history) c'
        ∧ (file.fileId, offset / file.blockSize) ∈ c'.keys := by
  obtain ⟨positive, short⟩ := @byteRequest_single file path offset nonneg before
  have id := @byteRequest_blockID file path offset nonneg before
  have first := @byteRequest_firstBlock file path offset nonneg before
  have one := @byteRequest_remainingData file path offset nonneg before
  obtain ⟨st, c', called, reads, coherent, present⟩ :=
    h.read_single member notLog (byteRequest_inside nonneg before) positive short
      (id ▸ absent) (wholePread_block file _) (first ▸ sound)
  rw [one] at called
  rw [id] at reads coherent present
  exact ⟨st, c', called, reads, coherent, present⟩

/-- Reading a byte of a cached block copies what is cached for it. -/
theorem Coherent.readByte (h : Coherent only Sound s history c) (pread : Pread)
    (notLog : NotLog cfs (file.byteRequest path offset)) (nonneg : 0 ≤ offset)
    (before : offset < file.fileSize)
    (present : (file.fileId, offset / file.blockSize) ∈ c.keys)
    : ∃ (st : ReadState Count) (source : BlockBuf),
        cachingRead cfs pread s (file.byteRequest path offset) = .ok (1, st)
        ∧ st.copies = [⟨offset / file.blockSize, source, offset % file.blockSize, 1⟩]
        ∧ st.buf = slice source.bytes (offset % file.blockSize) 1
        ∧ ServedFrom only Sound (file.byteRequest path offset) (offset / file.blockSize)
            source := by
  obtain ⟨positive, short⟩ := @byteRequest_single file path offset nonneg before
  have id := @byteRequest_blockID file path offset nonneg before
  have first := @byteRequest_firstBlock file path offset nonneg before
  have one := @byteRequest_remainingData file path offset nonneg before
  obtain ⟨st, source, called, copies, bytes, served⟩ :=
    h.read_cached pread notLog (byteRequest_inside nonneg before) positive short (id ▸ present)
  rw [one] at called copies bytes
  rw [first] at copies served
  exact ⟨st, source, called, copies, bytes, served⟩

variable (Count) in
/-- A file is served the bytes of another one that has its id, once a byte of the other one has
been read.
-/
theorem exists_served_byte (args : CacheArgs) (cfs : CfsState) {other : File}
    (same : file.fileId = other.fileId) {k p : ℤ} (nonneg : 0 ≤ k)
    (otherInside : k * other.blockSize < other.fileSize) (low : 0 ≤ p) (high : p < file.blockSize)
    (inside : k * file.blockSize + p < file.fileSize)
    : ∃ (path : Path) (first : ReadState Count),
        NotLog cfs (other.byteRequest path (k * other.blockSize))
        ∧ cachingRead cfs wholePread (.new args.numberOfBlocks args.fOld args.fNew)
            (other.byteRequest path (k * other.blockSize))
          = .ok (1, first)
        ∧ first.preads = [((other.fileId, k), true)]
        ∧ Cached first.cacheManager (other.fileId, k) = true
        ∧ ∀ path,
            NotLog cfs (file.byteRequest path (k * file.blockSize + p))
            → ∃ st,
                cachingRead cfs wholePread first.cacheManager
                    (file.byteRequest path (k * file.blockSize + p))
                  = .ok (1, st)
                ∧ st.copies = [⟨k, ⟨other.identity, other.blockBytes k⟩, p, 1⟩]
                ∧ st.buf = slice (other.blockBytes k) p 1 := by
  have block (file : File) {p : ℤ} (low : 0 ≤ p) (high : p < file.blockSize)
      : (k * file.blockSize + p) / file.blockSize = k
        ∧ (k * file.blockSize + p) % file.blockSize = p := by
    rw [Int.add_comm, Int.add_mul_ediv_right _ _ file.blockSize_pos.ne',
      Int.add_mul_emod_self_right]
    exact ⟨by rw [Int.ediv_eq_zero_of_lt low high, Int.zero_add], Int.emod_eq_of_lt low high⟩
  have start (file : File) : 0 ≤ k * file.blockSize := Int.mul_nonneg nonneg file.blockSize_pos.le
  have first : k * other.blockSize / other.blockSize = k :=
    Int.mul_ediv_cancel _ other.blockSize_pos.ne'
  have initially := @coherent_new Count {other}
    (fun file k buf => buf = ⟨file.identity, file.blockBytes k⟩) _ args
  obtain ⟨path, notLog⟩ := exists_notLog cfs other (k * other.blockSize)
  obtain ⟨st, c, called, preads, coherent, present⟩ :=
    initially.readUncached (Set.mem_singleton other) rfl notLog (start other) otherInside
      List.not_mem_nil
  rw [first] at preads coherent present
  refine ⟨path, st, notLog, called, preads, (cached_iff coherent.represents _).mpr present,
    fun path notLog => ?_⟩
  obtain ⟨quotient, remainder⟩ := block file low high
  obtain ⟨st, source, again, copies, bytes, _, _, rfl, _, _, rfl⟩ :=
    coherent.readByte wholePread notLog (Int.add_nonneg (start file) low) inside
      (by rw [quotient, same]; exact present)
  rw [quotient, remainder] at copies
  rw [quotient, remainder] at bytes
  exact ⟨st, again, copies, bytes⟩

end Runs

theorem slice_one (bytes : List UInt8) (p : ℕ) : slice bytes p 1 = [bytes[p]?] := rfl

/-- Files agree when each byte of one is also found in the blocks of the other. -/
theorem agreeingBlocks_of_bytes {files : Set File}
    (measured : ∀ file ∈ files, file.stSize < 2 ^ 31)
    (bytes
      : ∀ file ∈ files, ∀ other ∈ files,
          file.fileId = other.fileId
          → ∀ k p : ℤ,
              0 ≤ k
              → k * other.blockSize < other.fileSize
              → 0 ≤ p
              → p < file.blockSize
              → k * file.blockSize + p < file.fileSize
              → slice (other.blockBytes k) p 1 = slice (file.blockBytes k) p 1)
    : AgreeingBlocks files := by
  have half (file : File) (member : file ∈ files) (other : File) (otherMember : other ∈ files)
      (same : file.fileId = other.fileId) (k : ℤ) (nonneg : 0 ≤ k)
      (inside : k * file.blockSize < file.fileSize)
      (otherInside : k * other.blockSize < other.fileSize) (p : ℕ)
      (before : p < (file.blockBytes k).length)
      : (other.blockBytes k)[p]? = (file.blockBytes k)[p]? := by
    have size := File.fileSize_eq (measured file member)
    have length := file.length_blockBytes nonneg (size ▸ inside.le)
    rw [← size] at length
    have within : (p : ℤ) < min file.blockSize (file.fileSize - k * file.blockSize) :=
      length ▸ Int.ofNat_lt.mpr before
    have found := bytes file member other otherMember same k p nonneg otherInside
      (Int.natCast_nonneg p) (lt_min_iff.mp within).1 (by linarith [(lt_min_iff.mp within).2])
    rw [slice_one, slice_one] at found
    exact List.head_eq_of_cons_eq found
  intro file member other otherMember same k nonneg inside otherInside
  apply List.ext_getElem?
  intro p
  rcases Nat.lt_or_ge p (file.blockBytes k).length with before | past
  · exact (half file member other otherMember same k nonneg inside otherInside p before).symm
  rcases Nat.lt_or_ge p (other.blockBytes k).length with otherBefore | otherPast
  · exact half other otherMember file member same.symm k nonneg otherInside inside p otherBefore
  · rw [List.getElem?_eq_none past, List.getElem?_eq_none otherPast]

-----------------------------------------------------------------------------------------
-- A file of zeros
-----------------------------------------------------------------------------------------

/-- A file of two blocks of zeros, the only one below the root directory. -/
def zeroFile : File := .ofData 1 7 (List.replicate 8192 0)

def zeroRequest (size : UInt64) (offset : ℤ) : Request := ⟨['/', 'a'], zeroFile, size, offset⟩

theorem zeroFile_stSize : zeroFile.stSize = 8192 :=
  congrArg Nat.cast (List.length_replicate : (List.replicate 8192 (0 : UInt8)).length = 8192)

theorem zeroFile_measured : zeroFile.stSize < 2 ^ 31 := by
  rw [zeroFile_stSize]
  decide

theorem zeroFiles_measured : ∀ file ∈ ({zeroFile} : Set File), file.stSize < 2 ^ 31 := by
  intro file member
  rw [Set.mem_singleton_iff.mp member]
  exact zeroFile_measured

theorem zeroFile_fileSize : zeroFile.fileSize = 8192 := by
  rw [File.fileSize, zeroFile_stSize]
  decide

theorem zeroFile_blockSize : zeroFile.blockSize = 4096 := zeroFile.blockSize_eq

theorem zeroFile_fileId : zeroFile.fileId = 7 := by decide

theorem zeroFile_oneDevice : OneDevice {zeroFile} where
  identified := by
    intro file member other otherMember _
    exact (Set.mem_singleton_iff.mp member).trans (Set.mem_singleton_iff.mp otherMember).symm
  device := by
    intro file member other otherMember
    rw [Set.mem_singleton_iff.mp member, Set.mem_singleton_iff.mp otherMember]
  inodes := by
    intro file member
    rw [Set.mem_singleton_iff.mp member]
    decide

section Samples

theorem zeroRequest_notLog (size : UInt64) (offset : ℤ)
    : NotLog (.below []) (zeroRequest size offset) := by
  change ([] : Path) ++ ['/', 'a'].take pathMax ≠ _
  decide

variable {s : CacheManager Int32 BlockBuf} {preads : List (BlockID × Bool)}

theorem zeroFile_call
    (reached : FsReaches twoOldArgs (.below []) {zeroFile} BlockOf preads s) (size : UInt64)
    (offset : ℤ)
    : FsCall twoOldArgs (.below []) {zeroFile} s wholePread (zeroRequest size offset) :=
  ⟨⟨preads, reached⟩, Set.mem_singleton zeroFile, zeroRequest_notLog size offset,
    wholePread_full _⟩

/-- Reading the first byte when nothing is cached caches the first block. -/
theorem exists_first_byte_read
    : ∃ st : ReadState Int32,
        cachingRead (.below []) wholePread (.new 4 (1 / 2) (1 / 4)) (zeroRequest 1 0) = .ok (1, st)
        ∧ st.preads = [((7, 0), true)]
        ∧ Cached st.cacheManager (7, 0) = true := by
  have initially := @coherent_new Int32 {zeroFile} BlockOf _ twoOldArgs
  obtain ⟨st, c, called, preads, coherent, present⟩ :=
    initially.readUncached (Set.mem_singleton zeroFile) rfl (zeroRequest_notLog 1 0) (le_refl 0)
      (zeroFile_fileSize ▸ by decide) List.not_mem_nil
  rw [zeroFile_fileId, Int.zero_ediv] at preads present
  exact ⟨st, called, preads, (cached_iff coherent.represents _).mpr present⟩

end Samples

end CachingFileSystem.FileSystem
