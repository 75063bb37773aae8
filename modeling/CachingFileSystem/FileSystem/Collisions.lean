import CachingFileSystem.FileSystem.SingleBytes

/-! When a read is served from a block of another file. The cached id of a block keeps the
low 32 bits of the inode and leaves out the device.
-/

namespace CachingFileSystem.FileSystem

open CachingFileSystem.BufferCache
open CachingFileSystem.Containers
open CachingFileSystem.ReplacementPolicy

/-- What was read came from this file. -/
def OriginOf (file : File) (_ : ℤ) (buf : BlockBuf) : Prop := buf.origin = file.identity

theorem originOf_sound (files : Set File) (pread : Pread) : PreadSound files OriginOf pread :=
  fun _ _ _ _ _ _ _ => rfl

/-- In every run of reads and renames over these files, a call copies from blocks of its own
file only.
-/
def NoCrossHits (Count : Type) [LinearOrder Count] [OrderTop Count] [One Count] [Add Count]
    (args : CacheArgs) (cfs : CfsState) (files : Set File)
    : Prop :=
  ∀ preads (s : CacheManager Count BlockBuf),
    FsReaches args cfs files OriginOf preads s
    → ∀ pread r ret st,
        r.file ∈ files
        → cachingRead cfs pread s r = .ok (ret, st)
        → ∀ copy ∈ st.copies, copy.source.origin = r.file.identity

/-- The ids under which reads of these files look up their blocks tell them apart. -/
def KeysInjective (files : Set File) : Prop :=
  ∀ r r' : Request,
    r.file ∈ files
    → r'.file ∈ files
    → ∀ block block',
        Visited r block
        → Visited r' block'
        → r.blockID block = r'.blockID block'
        → r.file.identity = r'.file.identity ∧ block = block'

/-- No two of the files that `caching_read` finds nonempty agree in the low 32 bits of their
inodes.
-/
def SeparateInodes (files : Set File) : Prop :=
  ∀ file ∈ files, ∀ other ∈ files,
    0 < file.fileSize
    → 0 < other.fileSize
    → file.stIno.toNat % 2 ^ 32 = other.stIno.toNat % 2 ^ 32
    → file.identity = other.identity

theorem File.fileId_eq_iff {file other : File}
    : file.fileId = other.fileId ↔ file.stIno.toNat % 2 ^ 32 = other.stIno.toNat % 2 ^ 32 := by
  simp only [fileId, toInt]
  constructor
  · intro same
    have remainder := congrArg (· % (2 ^ 32 : ℤ)) same
    simp only [Int.bmod_def] at remainder
    omega
  · intro same
    simp only [Int.bmod_def]
    omega

section Runs

variable {Count : Type} {files : Set File} [LinearOrder Count] [OrderTop Count] [One Count]
  [Add Count]

/-- When two files share an id, the first byte of one is served from the other. -/
theorem exists_crossHit (args : CacheArgs) (cfs : CfsState) {file other : File}
    (member : other ∈ files) (size : 0 < file.fileSize) (otherSize : 0 < other.fileSize)
    (same : file.fileId = other.fileId)
    : ∃ (s : CacheManager Count BlockBuf) (path : Path) (st : ReadState Count),
        FsReaches args cfs files OriginOf [((other.fileId, 0), true)] s
        ∧ cachingRead cfs wholePread s (file.byteRequest path 0) = .ok (1, st)
        ∧ ∃ copy ∈ st.copies, copy.source.origin = other.identity := by
  have otherStart : 0 * other.blockSize < other.fileSize := by
    rw [Int.zero_mul]
    exact otherSize
  have start : 0 * file.blockSize + 0 < file.fileSize := by
    rw [Int.zero_mul]
    exact size
  obtain ⟨_, first, _, read, preads, _, served⟩ :=
    exists_served_byte Count args cfs same (Int.le_refl 0) otherStart (Int.le_refl 0)
      file.blockSize_pos start
  have reached := (fsReaches_new args cfs files OriginOf).step
    (.read member (originOf_sound files wholePread) read)
  rw [preads] at reached
  rw [Int.zero_mul, Int.zero_add] at served
  obtain ⟨path, notLog⟩ := exists_notLog cfs file 0
  obtain ⟨st, called, copies, _⟩ := served path notLog
  refine ⟨_, path, st, reached, called, ⟨0, ⟨other.identity, other.blockBytes 0⟩, 0, 1⟩, ?_, rfl⟩
  rw [copies]
  exact List.mem_singleton_self _

/-- No run is ever served across files, and the ids are injective, exactly when the files have
separate inodes; witness: the first bytes of two files that have not.
-/
theorem noCrossHits_iff (args : CacheArgs) (cfs : CfsState) (files : Set File)
    : (NoCrossHits Count args cfs files ↔ SeparateInodes files)
      ∧ (KeysInjective files ↔ SeparateInodes files) := by
  constructor
  · constructor
    · intro noHits file member other otherMember size otherSize same
      obtain ⟨s, path, st, reached, called, copy, copied, origin⟩ :=
        @exists_crossHit Count files _ _ _ _ args cfs file other otherMember size otherSize
          (File.fileId_eq_iff.mpr same)
      have own := noHits _ s reached wholePread (file.byteRequest path 0) 1 st member called copy
        copied
      exact own.symm.trans origin
    · intro separate preads s reached pread r ret st member called copy copied
      obtain ⟨c, coherent⟩ := reached.coherent
      obtain ⟨within, file, fileMember, same, range, origin⟩ :=
        (coherent.serving member (originOf_sound files pread) called).served copy copied
      have size : 0 < r.file.fileSize :=
        (Int.mul_nonneg range.1 r.file.blockSize_pos.le).trans_lt within
      have fileSize : 0 < file.fileSize :=
        (Int.mul_nonneg range.1 file.blockSize_pos.le).trans_lt range.2
      exact origin.trans
        (separate file fileMember r.file member fileSize size (File.fileId_eq_iff.mp same))
  · constructor
    · intro injective file member other otherMember size otherSize same
      have ids : (file.byteRequest [] 0).blockID (file.byteRequest [] 0).firstBlock
          = (other.byteRequest [] 0).blockID (other.byteRequest [] 0).firstBlock := by
        rw [byteRequest_blockID (le_refl 0) size, byteRequest_blockID (le_refl 0) otherSize,
          File.fileId_eq_iff.mpr same, Int.zero_ediv, Int.zero_ediv]
      exact (injective (file.byteRequest [] 0) (other.byteRequest [] 0) member otherMember _ _
        (byteRequest_visited (le_refl 0) size) (byteRequest_visited (le_refl 0) otherSize) ids).1
    · intro separate r r' member member' block block' visited visited' ids
      obtain ⟨same, blocks⟩ := Prod.mk.inj ids
      exact ⟨separate r.file member r'.file member'
        (visited.inside.nonneg.trans_lt visited.inside.before)
        (visited'.inside.nonneg.trans_lt visited'.inside.before) (File.fileId_eq_iff.mp same),
        blocks⟩

end Runs

/-- Inodes 5 and `2 ^ 32 + 5` of one device. -/
def lowInode : File := .ofData 1 5 [0]
def highInode : File := .ofData 1 4294967301 [1]

/-- The first byte of the one file is served from a block of the other. -/
theorem inodes_collide
    : ∃ (s : CacheManager Int32 BlockBuf) (path : Path) (st : ReadState Int32),
        FsReaches twoOldArgs (.below []) {lowInode, highInode} OriginOf [((5, 0), true)] s
        ∧ cachingRead (.below []) wholePread s (lowInode.byteRequest path 0) = .ok (1, st)
        ∧ ∃ copy ∈ st.copies,
            copy.source.origin = highInode.identity ∧ highInode.identity ≠ lowInode.identity := by
  obtain ⟨s, path, st, reached, called, copy, copied, origin⟩ :=
    @exists_crossHit Int32 {lowInode, highInode} _ _ _ _ twoOldArgs (.below []) lowInode highInode
      (Set.mem_insert_of_mem _ (Set.mem_singleton _)) (by decide) (by decide) (by decide)
  have id : highInode.fileId = 5 := by decide
  rw [id] at reached
  exact ⟨s, path, st, reached, called, copy, copied, origin, by decide⟩

end CachingFileSystem.FileSystem
