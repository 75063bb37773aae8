import CachingFileSystem.Transitions.Runs
import CachingFileSystem.FileSystem.Ranges
import CachingFileSystem.BufferCache.Construction
import Mathlib.Data.Set.Basic

/-! What the cache holds in every run of reads and renames, be the block reads successful or
not: only blocks that were read from files of the run, under the ids of these files.
-/

namespace CachingFileSystem.FileSystem

open CachingFileSystem.BufferCache
open CachingFileSystem.Containers
open CachingFileSystem.ReplacementPolicy
open CachingFileSystem.Transitions

variable {cfg : Sections} {Count : Type}

/-- The entry was read from a block of some file, and `Sound` holds of what was read. -/
def Served (files : Set File) (Sound : File → ℤ → BlockBuf → Prop)
    (entry : Entry BlockID (Payload BlockBuf) Count)
    : Prop :=
  ∃ file ∈ files, ∃ k buf,
    entry.key = (file.fileId, k)
    ∧ (0 ≤ k ∧ k * file.blockSize < file.fileSize)
    ∧ entry.val.buff = some buf
    ∧ Sound file k buf

/-- The manager represents a cache of blocks read from these files, and an id whose latest
read failed is not in it. `preads` lists the reads, latest first, with their success.
-/
structure Coherent (files : Set File) (Sound : File → ℤ → BlockBuf → Prop)
    (s : CacheManager Count BlockBuf) (preads : List (BlockID × Bool))
    (c : FrequencyCache cfg BlockID (Payload BlockBuf) Count)
    : Prop where
  represents : Represents cfg s c
  served : ∀ entry ∈ c.entries, Served files Sound entry
  failed : ∀ id, preads.lookup id = some false → id ∉ c.keys

/-- Successful reads of blocks inside these files are sound. -/
def PreadSound (files : Set File) (Sound : File → ℤ → BlockBuf → Prop) (pread : Pread) : Prop :=
  ∀ file ∈ files, ∀ k bytes,
    0 ≤ k
    → k * file.blockSize < file.fileSize
    → pread file (toSize file.blockSize) (k * file.blockSize) = .ok bytes
    → Sound file k ⟨file.identity, bytes⟩

variable {files : Set File} {Sound : File → ℤ → BlockBuf → Prop}

/-- A block the loop visits. -/
structure Visited (r : Request) (block : ℤ) : Prop where
  inside : r.Inside
  low : r.firstBlock ≤ block
  high : block < r.lastBlock

theorem Request.Inside.visited {r : Request} (inside : r.Inside)
    (positive : 0 < r.remainingData)
    : Visited r r.firstBlock := by
  have blocks := numberOfBlocks_pos positive
  exact ⟨inside, le_refl _, by simp only [lastBlock]; omega⟩

theorem Request.Inside.visited_of_lt {r : Request} {block : ℤ} (inside : r.Inside)
    (low : r.firstBlock ≤ block) (high : block < r.firstBlock + r.numberOfBlocks.toNat)
    : Visited r block := by
  refine ⟨inside, low, ?_⟩
  simp only [lastBlock]
  omega

/-- No file has a block with the number of a placeholder. -/
theorem Visited.real {r : Request} {block : ℤ} (visited : Visited r block)
    : block ≠ nullBlock := by
  intro null
  have range := Request.visited_inside visited.inside visited.low visited.high
  exact absurd (null ▸ range.1) (by decide)

/-- What the call copied from `source` was read from the block of some file with the id of
the requested one.
-/
def ServedFrom (files : Set File) (Sound : File → ℤ → BlockBuf → Prop) (r : Request) (block : ℤ)
    (source : BlockBuf)
    : Prop :=
  block * r.file.blockSize < r.file.fileSize
  ∧ ∃ file ∈ files,
      file.fileId = r.file.fileId
      ∧ (0 ≤ block ∧ block * file.blockSize < file.fileSize)
      ∧ Sound file block source

/-- Copying adds one copy from its source, and touches neither the cache nor the record of
reads.
-/
theorem copyBlock_keeps {r : Request} {block : ℤ} {buf : BlockBuf} {st st' : ReadState Count}
    (copied : copyBlock r block buf st = .ok st')
    : st'.cacheManager = st.cacheManager
      ∧ st'.preads = st.preads
      ∧ ∃ copy, copy.block = block ∧ copy.source = buf ∧ st'.copies = st.copies ++ [copy] := by
  obtain ⟨bytes, _, same⟩ := bind_eq_ok_iff.mp copied
  cases same
  exact ⟨rfl, rfl, _, rfl, rfl, rfl⟩

section Fetching

variable [LinearOrder Count] [OrderTop Count] [One Count] [Add Count]
  {pread : Pread} {r : Request} {block : ℤ} {st : ReadState Count}
  {preads : List (BlockID × Bool)} {c : FrequencyCache cfg BlockID (Payload BlockBuf) Count}

/-- What a call of `caching_read` can do: return at once, or do what its block loop does. -/
inductive ReadResult (pread : Pread) (s : CacheManager Count BlockBuf) (r : Request)
    : Except Halt (ℤ × ReadState Count) → Prop
  | atOnce (ret : ℤ) : ReadResult pread s r (.ok (ret, .start s r))
  | looped {left : Option ℤ} {last : ReadState Count} (ret : ℤ) (inside : r.Inside)
      (loop
        : forRange (readBlock pread r) r.numberOfBlocks.toNat r.firstBlock (.start s r)
          = .ok (left, last))
    : ReadResult pread s r (.ok (ret, last))
  | halted {halt : Halt} (inside : r.Inside)
      (loop
        : forRange (readBlock pread r) r.numberOfBlocks.toNat r.firstBlock (.start s r)
          = .error halt)
    : ReadResult pread s r (.error halt)

theorem cachingRead_result (cfs : CfsState) (pread : Pread) (s : CacheManager Count BlockBuf)
    (r : Request)
    : ReadResult pread s r (cachingRead cfs pread s r) := by
  unfold cachingRead cachingReadAt
  split
  · exact .atOnce _
  split
  · exact .atOnce _
  split
  · exact .atOnce _
  next outside =>
    have inside : r.Inside := ⟨by omega, by omega⟩
    rw [Request.checkedInt_lastBlock inside, ok_bind]
    rcases loop : forRange (readBlock pread r) r.numberOfBlocks.toNat r.firstBlock
        (ReadState.start s r) with halt | ⟨left, last⟩
    · exact .halted inside loop
    · rw [ok_bind]
      cases left with
      | none => exact .looped _ inside loop
      | some errno => exact .looped _ inside loop

omit [LinearOrder Count] [OrderTop Count] in
/-- A lookup returns null exactly when the id is in no map entry, and then leaves the cache
alone.
-/
theorem Coherent.retrieve_none_iff {s : CacheManager Count BlockBuf}
    (h : Coherent files Sound s preads c) (id : BlockID)
    : ∃ buff s',
        s.retrieveBuffer id = .ok (buff, s')
        ∧ (buff = none ↔ s.blocksMap id = none)
        ∧ (buff = none → s' = s) := by
  rcases Classical.em (id ∈ c.keys) with present | absent
  · obtain ⟨s', retrieved, _⟩ := retrieveBuffer_spec h.represents id
    obtain ⟨entry, here, rfl⟩ := FrequencyCache.exists_entry present
    obtain ⟨_, _, _, buf, _, _, buff, _⟩ := h.served entry (List.mem_of_getElem? here)
    rw [(FrequencyCache.retrieve_of_entry here).1, Option.bind_some, buff] at retrieved
    obtain ⟨it, mapped⟩ := (h.represents.mapped_iff _).mpr present
    refine ⟨some buf, s', retrieved, ?_, fun none => nomatch none⟩
    rw [mapped]
    exact iff_of_false (Option.some_ne_none _) (Option.some_ne_none _)
  · exact ⟨none, s, retrieveBuffer_of_not_mem h.represents absent,
      iff_of_true rfl (h.represents.not_mapped absent), fun _ => rfl⟩

/-- A cached block is served from the cache, with what was read under its id. -/
theorem Coherent.fetch_hit (h : Coherent files Sound st.cacheManager preads c) (pread : Pread)
    (visited : Visited r block) (present : r.blockID block ∈ c.keys)
    : ∃ (buf : BlockBuf) (s' : CacheManager Count BlockBuf)
        (c' : FrequencyCache cfg BlockID (Payload BlockBuf) Count),
        fetchBlock pread r block st = .ok (.ok buf, { st with cacheManager := s' })
        ∧ Coherent files Sound s' preads c'
        ∧ ServedFrom files Sound r block buf := by
  obtain ⟨entry, here, key⟩ := FrequencyCache.exists_entry present
  obtain ⟨file, member, k, buf, key', range, buff, sound⟩ :=
    h.served entry (List.mem_of_getElem? here)
  obtain ⟨sameFile, rfl⟩ : file.fileId = r.file.fileId ∧ k = block :=
    Prod.mk.inj (key'.symm.trans key)
  obtain ⟨s', retrieved, represents⟩ := retrieveBuffer_spec h.represents (r.blockID k)
  have returned := (FrequencyCache.retrieve_of_entry here).1
  rw [key] at returned
  rw [returned, Option.bind_some, buff] at retrieved
  have within := (Request.visited_inside visited.inside visited.low visited.high).2
  refine ⟨buf, s', (c.retrieve (r.blockID k)).2, ?_, ⟨represents, ?_, ?_⟩, within, file, member,
    sameFile, range, sound⟩
  · simp only [fetchBlock, Request.checkedInt_block visited.inside visited.low visited.high,
      retrieved, ok_bind]
  · intro next nextMember
    obtain ⟨old, oldMember, oldKey, oldVal⟩ := FrequencyCache.mem_retrieve nextMember
    simpa only [Served, oldKey, oldVal] using h.served old oldMember
  · intro id fails again
    have before := (c.keys_retrieve_perm (r.blockID k)).subset again
    exact h.failed id fails before

/-- A block that is not cached is read, and inserted if the read succeeds. -/
theorem fetchBlock_read (h : Represents cfg st.cacheManager c) (visited : Visited r block)
    (absent : r.blockID block ∉ c.keys) {bytes : List UInt8}
    (read : pread r.file (toSize r.file.blockSize) (block * r.file.blockSize) = .ok bytes)
    : fetchBlock pread r block st
      = st.cacheManager.insertBlock r.file.fileId block (some ⟨r.file.identity, bytes⟩)
          (some r.path) >>=
          fun s' =>
            .ok (.ok ⟨r.file.identity, bytes⟩, {
              st with
              cacheManager := s'
              preadRet := toInt bytes.length
              preads := (r.blockID block, true) :: st.preads
            }) := by
  simp only [fetchBlock, Request.checkedInt_block visited.inside visited.low visited.high,
    retrieveBuffer_of_not_mem h absent, read, ok_bind]

theorem fetchBlock_fail (h : Represents cfg st.cacheManager c) (visited : Visited r block)
    (absent : r.blockID block ∉ c.keys) {errno : ℤ}
    (read : pread r.file (toSize r.file.blockSize) (block * r.file.blockSize) = .error errno)
    : fetchBlock pread r block st
      = .ok (.error errno, {
          st with
          preadRet := -1
          preads := (r.blockID block, false) :: st.preads
        }) := by
  simp only [fetchBlock, Request.checkedInt_block visited.inside visited.low visited.high,
    retrieveBuffer_of_not_mem h absent, read, ok_bind]

/-- An uncached block that is read successfully is inserted under its id. -/
theorem Coherent.fetch_miss (h : Coherent files Sound st.cacheManager preads c)
    (member : r.file ∈ files) (visited : Visited r block) (absent : r.blockID block ∉ c.keys)
    {bytes : List UInt8}
    (read : pread r.file (toSize r.file.blockSize) (block * r.file.blockSize) = .ok bytes)
    (sound : Sound r.file block ⟨r.file.identity, bytes⟩)
    : ∃ (s' : CacheManager Count BlockBuf)
        (c' : FrequencyCache cfg BlockID (Payload BlockBuf) Count),
        fetchBlock pread r block st
          = .ok (.ok ⟨r.file.identity, bytes⟩, {
              st with
              cacheManager := s'
              preadRet := toInt bytes.length
              preads := (r.blockID block, true) :: st.preads
            })
        ∧ Coherent files Sound s' ((r.blockID block, true) :: preads) c'
        ∧ r.blockID block ∈ c'.keys := by
  have range := Request.visited_inside visited.inside visited.low visited.high
  obtain ⟨s', c', inserted, represents, entries⟩ :=
    insertBlock_entries h.represents absent visited.real (some ⟨r.file.identity, bytes⟩)
      (some r.path)
  refine ⟨s', c', ?_, ⟨represents, ?_, ?_⟩, ?_⟩
  · rw [fetchBlock_read h.represents visited absent read, inserted, ok_bind]
  · rw [entries]
    intro entry entryMember
    rcases List.mem_cons.mp entryMember with rfl | later
    · exact ⟨r.file, member, block, _, rfl, range, rfl, sound⟩
    · exact h.served entry ((survivors_sublist c.entries).subset later)
  · intro id fails again
    rw [FrequencyCache.keys, entries] at again
    rcases List.mem_cons.mp again with rfl | later
    · simp [Request.blockID] at fails
    · have old : id ∈ c.keys := ((survivors_sublist c.entries).map Entry.key).subset later
      have other : id ≠ r.blockID block := fun same => absent (same ▸ old)
      rw [List.lookup_cons, beq_eq_false_iff_ne.mpr other] at fails
      exact h.failed id fails old
  · rw [FrequencyCache.keys, entries]
    exact List.mem_cons_self

/-- A block whose read fails ends the call and is not inserted. -/
theorem Coherent.fetch_fail (h : Coherent files Sound st.cacheManager preads c)
    (visited : Visited r block) (absent : r.blockID block ∉ c.keys) {errno : ℤ}
    (read : pread r.file (toSize r.file.blockSize) (block * r.file.blockSize) = .error errno)
    : fetchBlock pread r block st
        = .ok (.error errno, {
            st with
            preadRet := -1
            preads := (r.blockID block, false) :: st.preads
          })
      ∧ Coherent files Sound st.cacheManager ((r.blockID block, false) :: preads) c := by
  refine ⟨fetchBlock_fail h.represents visited absent read, h.represents, h.served, ?_⟩
  intro id fails present
  have other : id ≠ r.blockID block := fun same => absent (same ▸ present)
  rw [List.lookup_cons, beq_eq_false_iff_ne.mpr other] at fails
  exact h.failed id fails present

/-- The cache is coherent, and all copies so far were served from sound blocks. -/
structure Serving (files : Set File) (Sound : File → ℤ → BlockBuf → Prop) (cfg : Sections)
    (r : Request) (history : List (BlockID × Bool)) (st : ReadState Count)
    : Prop where
  coherent
    : ∃ c : FrequencyCache cfg BlockID (Payload BlockBuf) Count,
        Coherent files Sound st.cacheManager (st.preads ++ history) c
  served : ∀ copy ∈ st.copies, ServedFrom files Sound r copy.block copy.source

/-- Copying from a block that was served keeps this up. -/
theorem Serving.copied {history : List (BlockID × Bool)} {s' : CacheManager Count BlockBuf}
    {preadRet : ℤ} {reads : List (BlockID × Bool)} {buf : BlockBuf} {left : Option ℤ}
    {st' : ReadState Count} (h : Serving files Sound cfg r history st)
    (coherent
      : ∃ c : FrequencyCache cfg BlockID (Payload BlockBuf) Count,
          Coherent files Sound s' (reads ++ history) c)
    (served : ServedFrom files Sound r block buf)
    (fetched
      : fetchBlock pread r block st
        = .ok (.ok buf, { st with cacheManager := s', preadRet := preadRet, preads := reads }))
    (completed : FileSystem.readBlock pread r block st = .ok (left, st'))
    : Serving files Sound cfg r history st' := by
  simp only [readBlock, fetched, ok_bind] at completed
  obtain ⟨next, copied, same⟩ := bind_eq_ok_iff.mp completed
  obtain ⟨cache, preads, copy, blockEq, sourceEq, copies⟩ := copyBlock_keeps copied
  cases same
  refine ⟨by rw [cache, preads]; exact coherent, ?_⟩
  rw [copies]
  intro other member
  rcases List.mem_append.mp member with earlier | last
  · exact h.served other earlier
  · obtain rfl := List.mem_singleton.mp last
    rw [blockEq, sourceEq]
    exact served

/-- Every iteration keeps this up, whether its read succeeds or fails. -/
theorem Serving.readBlock {history : List (BlockID × Bool)} {left : Option ℤ}
    {st' : ReadState Count} (h : Serving files Sound cfg r history st) (member : r.file ∈ files)
    (allowed : PreadSound files Sound pread) (visited : Visited r block)
    (completed : readBlock pread r block st = .ok (left, st'))
    : Serving files Sound cfg r history st' := by
  have range := Request.visited_inside visited.inside visited.low visited.high
  obtain ⟨c, coherent⟩ := h.coherent
  rcases Classical.em (r.blockID block ∈ c.keys) with present | absent
  · obtain ⟨buf, s', c', fetched, coherent', served⟩ := coherent.fetch_hit pread visited present
    exact h.copied ⟨c', coherent'⟩ served fetched completed
  · rcases read : pread r.file (toSize r.file.blockSize) (block * r.file.blockSize)
      with errno | bytes
    · obtain ⟨fetched, coherent'⟩ := coherent.fetch_fail visited absent read
      simp only [FileSystem.readBlock, fetched, ok_bind] at completed
      cases completed
      exact ⟨⟨c, coherent'⟩, h.served⟩
    · have sound := allowed r.file member block bytes range.1 range.2 read
      obtain ⟨s', c', fetched, coherent', _⟩ :=
        coherent.fetch_miss member visited absent read sound
      exact h.copied ⟨c', coherent'⟩ ⟨range.2, r.file, member, rfl, range, sound⟩ fetched completed

omit [LinearOrder Count] [OrderTop Count] [One Count] [Add Count] in
/-- A call starts with nothing copied. -/
theorem Coherent.serving_start {s : CacheManager Count BlockBuf} {history : List (BlockID × Bool)}
    (h : Coherent files Sound s history c) (r : Request)
    : Serving files Sound cfg r history (.start s r) :=
  ⟨⟨c, h⟩, fun _ none => nomatch none⟩

/-- The loop keeps this up, however many iterations of it are completed and however it is
left; by the loop rule.
-/
theorem Coherent.serving_loop {s : CacheManager Count BlockBuf}
    {history : List (BlockID × Bool)} {count : ℕ} {left : Option ℤ} {last : ReadState Count}
    (h : Coherent files Sound s history c) (member : r.file ∈ files)
    (allowed : PreadSound files Sound pread) (inside : r.Inside)
    (within : count ≤ r.numberOfBlocks.toNat)
    (completed
      : forRange (FileSystem.readBlock pread r) count r.firstBlock (.start s r)
        = .ok (left, last))
    : Serving files Sound cfg r history last := by
  refine forRange_preserves (Serving files Sound cfg r history)
    (fun block st left st' low high serving completed => ?_) (h.serving_start r) completed
  exact serving.readBlock member allowed (inside.visited_of_lt low (by omega)) completed

/-- Every call of `caching_read`, however it returns, keeps the cache coherent and copies
from sound blocks only.
-/
theorem Coherent.serving {cfs : CfsState} {s : CacheManager Count BlockBuf}
    {history : List (BlockID × Bool)} {ret : ℤ} {last : ReadState Count}
    (h : Coherent files Sound s history c) (member : r.file ∈ files)
    (allowed : PreadSound files Sound pread)
    (called : cachingRead cfs pread s r = .ok (ret, last))
    : Serving files Sound cfg r history last := by
  have result := cachingRead_result cfs pread s r
  rw [called] at result
  cases result with
  | atOnce => exact h.serving_start r
  | looped _ inside loop => exact h.serving_loop member allowed inside (Nat.le_refl _) loop

end Fetching

/-- Renaming keeps the buffers, so the cache stays coherent. -/
theorem Coherent.renamed {cfs : CfsState} {s : CacheManager Count BlockBuf}
    {preads : List (BlockID × Bool)} {c : FrequencyCache cfg BlockID (Payload BlockBuf) Count}
    (h : Coherent files Sound s preads c) (rename : Path → Path → Except ℤ ℤ)
    (path newpath : Path)
    : ∃ c' : FrequencyCache cfg BlockID (Payload BlockBuf) Count,
        Coherent files Sound (cachingRename cfs rename s path newpath).2 preads c' := by
  simp only [cachingRename, cachingRenameAt]
  split
  · exact ⟨c, h⟩
  split
  · exact ⟨c, h⟩
  · refine ⟨_, updatePaths_represents h.represents path newpath, ?_, ?_⟩
    · intro entry member
      obtain ⟨old, oldMember, rfl⟩ := List.mem_map.mp member
      obtain ⟨file, fileMember, k, buf, key, range, buff, sound⟩ := h.served old oldMember
      refine ⟨file, fileMember, k, buf, key, range, ?_, sound⟩
      rw [← buff, Entry.mapVal, renamePayload]
      split <;> rfl
    · intro id fails
      rw [FrequencyCache.keys_mapVals]
      exact h.failed id fails

-----------------------------------------------------------------------------------------
-- Runs of the file system
-----------------------------------------------------------------------------------------

/-- What was read is the block itself. -/
def BlockOf (file : File) (k : ℤ) (buf : BlockBuf) : Prop := buf.bytes = file.blockBytes k

/-- No two of these files are cached under one id. -/
def DistinctIds (files : Set File) : Prop :=
  ∀ file ∈ files, ∀ other ∈ files, file.fileId = other.fileId → file = other

/-- Files that are cached under one id have the same bytes in each block of both. -/
def AgreeingBlocks (files : Set File) : Prop :=
  ∀ file ∈ files, ∀ other ∈ files,
    file.fileId = other.fileId
    → ∀ k,
        0 ≤ k
        → k * file.blockSize < file.fileSize
        → k * other.blockSize < other.fileSize
        → file.blockBytes k = other.blockBytes k

theorem DistinctIds.agreeingBlocks (h : DistinctIds files) : AgreeingBlocks files := by
  intro file member other otherMember same k _ _ _
  rw [h file member other otherMember same]

/-- Where files agree, a call finds the bytes of its own file. -/
theorem ServedFrom.bytes {r : Request} {block : ℤ} {source : BlockBuf}
    (h : ServedFrom files BlockOf r block source) (agreeing : AgreeingBlocks files)
    (member : r.file ∈ files)
    : source.bytes = r.file.blockBytes block := by
  obtain ⟨within, file, fileMember, same, range, bytes⟩ := h
  rw [bytes, agreeing file fileMember r.file member same block range.1 range.2 within]

/-- Files on one device are told apart by their inodes, which fit an `int` here. -/
structure OneDevice (files : Set File) : Prop where
  identified
    : ∀ file ∈ files, ∀ other ∈ files, file.identity = other.identity → file = other
  device : ∀ file ∈ files, ∀ other ∈ files, file.stDev = other.stDev
  inodes : ∀ file ∈ files, file.stIno.toNat < 2 ^ 31

theorem OneDevice.fileId (h : OneDevice files) {file : File} (member : file ∈ files)
    : file.fileId = file.stIno.toNat := by
  have small := h.inodes file member
  exact toInt_eq_self (by omega) (by omega)

theorem OneDevice.distinctIds (h : OneDevice files) : DistinctIds files := by
  intro file member other otherMember same
  rw [h.fileId member, h.fileId otherMember] at same
  have inode : file.stIno = other.stIno := UInt64.toNat_inj.mp (by exact_mod_cast same)
  exact h.identified file member other otherMember
    (Prod.ext (h.device file member other otherMember) inode)

/-- A new manager caches nothing. -/
theorem coherent_new [One Count] (args : CacheArgs)
    : Coherent files Sound
        (.new args.numberOfBlocks args.fOld args.fNew : CacheManager Count BlockBuf) []
        (.empty : FrequencyCache args.sections BlockID (Payload BlockBuf) Count) where
  represents := new_represents args
  served := fun _ none => nomatch none
  failed := fun _ none => nomatch none

section Runs

variable [LinearOrder Count] [OrderTop Count] [One Count] [Add Count]

/-- One call of an operation that uses the cache, with the block reads it made. Every call
has its own outcomes of the system calls.
-/
inductive FsStep (cfs : CfsState) (files : Set File) (Sound : File → ℤ → BlockBuf → Prop)
    (s : CacheManager Count BlockBuf)
    : List (BlockID × Bool) → CacheManager Count BlockBuf → Prop
  | read {pread r ret st} (member : r.file ∈ files) (allowed : PreadSound files Sound pread)
    (called : cachingRead cfs pread s r = .ok (ret, st))
    : FsStep cfs files Sound s st.preads st.cacheManager
  | rename (rename : Path → Path → Except ℤ ℤ) (path newpath : Path)
    : FsStep cfs files Sound s [] (cachingRename cfs rename s path newpath).2

/-- The file system that `main` mounts, over unmodified files. -/
def fsSystem (args : CacheArgs) (cfs : CfsState) (files : Set File)
    (Sound : File → ℤ → BlockBuf → Prop)
    : System (CacheManager Count BlockBuf) (List (BlockID × Bool)) where
  start s := s = .new args.numberOfBlocks args.fOld args.fNew
  step := FsStep cfs files Sound

/-- Some run of reads and renames ends in `s` and made these block reads, latest first. -/
def FsReaches (args : CacheArgs) (cfs : CfsState) (files : Set File)
    (Sound : File → ℤ → BlockBuf → Prop) (preads : List (BlockID × Bool))
    (s : CacheManager Count BlockBuf)
    : Prop :=
  ∃ labels, (fsSystem args cfs files Sound).Run labels s ∧ labels.flatten = preads

theorem fsReaches_new (args : CacheArgs) (cfs : CfsState) (files : Set File)
    (Sound : File → ℤ → BlockBuf → Prop)
    : FsReaches args cfs files Sound []
        (.new args.numberOfBlocks args.fOld args.fNew : CacheManager Count BlockBuf) :=
  ⟨[], .start rfl, rfl⟩

theorem FsReaches.step {args : CacheArgs} {cfs : CfsState} {preads label}
    {s s' : CacheManager Count BlockBuf} (reached : FsReaches args cfs files Sound preads s)
    (next : FsStep cfs files Sound s label s')
    : FsReaches args cfs files Sound (label ++ preads) s' := by
  obtain ⟨labels, run, rfl⟩ := reached
  exact ⟨label :: labels, .step run next, rfl⟩

/-- Every reachable cache is coherent; by induction on the run. -/
theorem FsReaches.coherent {args : CacheArgs} {cfs : CfsState} {preads}
    {s : CacheManager Count BlockBuf} (reached : FsReaches args cfs files Sound preads s)
    : ∃ c : FrequencyCache args.sections BlockID (Payload BlockBuf) Count,
        Coherent files Sound s preads c := by
  obtain ⟨labels, run, rfl⟩ := reached
  refine System.Run.invariant
    (fun labels s =>
      ∃ c : FrequencyCache args.sections BlockID (Payload BlockBuf) Count,
        Coherent files Sound s labels.flatten c) ?_ ?_ run
  · intro s start
    subst start
    exact ⟨.empty, coherent_new args⟩
  · intro labels label s s' before next
    rcases before with ⟨c, coherent⟩
    cases next with
    | read member allowed called => exact (coherent.serving member allowed called).coherent
    | rename rename path newpath => exact coherent.renamed rename path newpath

end Runs

end CachingFileSystem.FileSystem
