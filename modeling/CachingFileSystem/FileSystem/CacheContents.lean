import CachingFileSystem.FileSystem.SingleBytes
import CachingFileSystem.BufferCache.Invariants

/-! What the cache holds on one device, be the block reads successful or not. -/

namespace CachingFileSystem.FileSystem

open CachingFileSystem.BufferCache

variable {Count : Type} {files : Set File} [LinearOrder Count] [OrderTop Count] [One Count]
  [Add Count]

/-- Every state reached by reads and renames on one device, whose block reads may fail, caches
under each id the bytes of that block of the file with this inode, and nothing under an id
whose latest read failed.
-/
theorem fsReaches_blocks {args : CacheArgs} {cfs : CfsState} {preads}
    {s : CacheManager Count BlockBuf} (device : OneDevice files)
    (reached : FsReaches args cfs files BlockOf preads s)
    : (∀ block ∈ s.cacheChain.vals,
        block.blockNumber ≠ nullBlock
        → ∃ file ∈ files,
            block.fileId = file.stIno.toNat
            ∧ (∀ other ∈ files, block.fileId = other.stIno.toNat → other = file)
            ∧ ∃ buf,
                block.buff = some buf ∧ buf.bytes = file.blockBytes block.blockNumber)
      ∧ ∀ id,
          preads.lookup id = some false
          → s.blocksMap id = none
            ∧ ∀ block ∈ s.cacheChain.vals,
                block.blockNumber ≠ nullBlock → block.getBlockId ≠ id := by
  obtain ⟨c, coherent⟩ := reached.coherent
  constructor
  · intro block member real
    obtain ⟨i, here⟩ := List.mem_iff_getElem?.mp member
    have entry := coherent.represents.entry_of_real here real
    obtain ⟨file, fileMember, k, buf, key, _, buff, bytes⟩ :=
      coherent.served _ (List.mem_of_getElem? entry)
    obtain ⟨fileId, number⟩ : block.fileId = file.fileId ∧ block.blockNumber = k :=
      Prod.mk.inj key
    refine ⟨file, fileMember, ?_, ?_, buf, buff, ?_⟩
    · rw [fileId, device.fileId fileMember]
    · intro other otherMember same
      refine device.distinctIds other otherMember file fileMember ?_
      rw [device.fileId otherMember, ← same, fileId]
    · rw [number]
      exact bytes
  · intro id fails
    have absent := coherent.failed id fails
    refine ⟨coherent.represents.not_mapped absent, ?_⟩
    intro block member real same
    subst same
    obtain ⟨i, here⟩ := List.mem_iff_getElem?.mp member
    have entry := coherent.represents.entry_of_real here real
    exact absent (List.mem_map_of_mem (List.mem_of_getElem? entry))

/-- The read of the second block fails, the read of the first one succeeds. -/
theorem blocks_after_failure
    : ∃ s : CacheManager Int32 BlockBuf,
        Cached s (7, 0) = true
        ∧ s.blocksMap (7, 1) = none
        ∧ ∀ block ∈ s.cacheChain.vals,
            block.blockNumber ≠ nullBlock
            → ∃ buf,
                block.buff = some buf ∧ buf.bytes = zeroFile.blockBytes block.blockNumber := by
  have initially := @coherent_new Int32 {zeroFile} BlockOf _ twoOldArgs
  have new := @fsReaches_new Int32 _ _ _ _ twoOldArgs (.below []) {zeroFile} BlockOf
  obtain ⟨path, notLog⟩ := exists_notLog (.below []) zeroFile 4096
  have nonneg : (0 : ℤ) ≤ 4096 := by decide
  have before : 4096 < zeroFile.fileSize := zeroFile_fileSize ▸ by decide
  obtain ⟨positive, short⟩ := @byteRequest_single zeroFile path 4096 nonneg before
  obtain ⟨st, called, reads, unchanged⟩ :=
    initially.read_failed notLog (byteRequest_inside nonneg before) positive short
      List.not_mem_nil (brokenPread_block zeroFile _)
  have failing : PreadSound {zeroFile} BlockOf brokenPread := fun _ _ _ _ _ _ read => nomatch read
  have failed := new.step (.read (Set.mem_singleton zeroFile) failing called)
  rw [unchanged, reads, byteRequest_blockID nonneg before, zeroFile_fileId, zeroFile_blockSize]
    at failed
  obtain ⟨_, read, preads, cached⟩ := exists_first_byte_read
  have reached := failed.step (.read (Set.mem_singleton zeroFile) (wholePread_sound _) read)
  rw [preads] at reached
  obtain ⟨blocks, missing⟩ := fsReaches_blocks zeroFile_oneDevice reached
  refine ⟨_, cached, (missing (7, 1) rfl).1, fun block member real => ?_⟩
  obtain ⟨_, rfl, _, _, buf, buff, bytes⟩ := blocks block member real
  exact ⟨buf, buff, bytes⟩

end CachingFileSystem.FileSystem
