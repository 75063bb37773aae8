import CachingFileSystem.BufferCache.Invariants
import CachingFileSystem.FileSystem.SingleBytes

/-! Why `caching_read` never inserts a block that is there: a lookup that returns null has found
nothing, since no stored block has a null buffer.
-/

namespace CachingFileSystem.FileSystem

open CachingFileSystem.BufferCache
open CachingFileSystem.Containers
open CachingFileSystem.ReplacementPolicy
open CachingFileSystem.Transitions

/-- Block reads may fail, or leave anything in their buffers. -/
def AnyBuffer (_ : File) (_ : ℤ) (_ : BlockBuf) : Prop := True

theorem preadSound_any (files : Set File) (pread : Pread) : PreadSound files AnyBuffer pread :=
  fun _ _ _ _ _ _ _ => trivial

variable {cfg : Sections} {Count : Type} {files : Set File} [LinearOrder Count]
  [OrderTop Count] [One Count] [Add Count] {s : CacheManager Count BlockBuf} {pread : Pread}
  {r : Request} {preads history : List (BlockID × Bool)}
  {c : FrequencyCache cfg BlockID (Payload BlockBuf) Count}

omit [LinearOrder Count] [OrderTop Count] [One Count] [Add Count] in
/-- No stored block has a null buffer. -/
theorem Coherent.buffered {Sound : File → ℤ → BlockBuf → Prop}
    (h : Coherent files Sound s preads c) {block : CacheBlock Count BlockBuf}
    (member : block ∈ s.cacheChain.vals) (real : block.blockNumber ≠ nullBlock)
    : block.buff ≠ none := by
  obtain ⟨i, here⟩ := List.mem_iff_getElem?.mp member
  have entry := h.represents.entry_of_real here real
  obtain ⟨_, _, _, buf, _, _, buff, _⟩ := h.served _ (List.mem_of_getElem? entry)
  rw [show block.buff = some buf from buff]
  exact Option.some_ne_none buf

/-- Fetching a block in a coherent cache always answers; by cases on where the block is. -/
theorem Coherent.fetches {block : ℤ} {st : ReadState Count}
    (h : Coherent files AnyBuffer st.cacheManager preads c) (pread : Pread)
    (member : r.file ∈ files) (visited : Visited r block)
    : ∃ result, fetchBlock pread r block st = .ok result := by
  rcases Classical.em (r.blockID block ∈ c.keys) with present | absent
  · obtain ⟨_, _, _, fetched, _⟩ := h.fetch_hit pread visited present
    exact ⟨_, fetched⟩
  · rcases read : pread r.file (toSize r.file.blockSize) (block * r.file.blockSize)
      with errno | bytes
    · exact ⟨_, (h.fetch_fail visited absent read).1⟩
    · obtain ⟨_, _, fetched, _⟩ := h.fetch_miss member visited absent read trivial
      exact ⟨_, fetched⟩

/-- So an iteration never ends the process; witness: only a copy of a negative size is left to
stop it, which is undefined behavior.
-/
theorem Serving.no_exit {block : ℤ} {st : ReadState Count}
    (h : Serving files AnyBuffer cfg r history st) (member : r.file ∈ files)
    (visited : Visited r block)
    : FileSystem.readBlock pread r block st ≠ .error .exitFailure := by
  obtain ⟨c, coherent⟩ := h.coherent
  obtain ⟨⟨fetched, next⟩, fetches⟩ := coherent.fetches pread member visited
  simp only [FileSystem.readBlock, fetches, ok_bind]
  intro stopped
  cases fetched with
  | error errno => cases stopped
  | ok buf =>
      simp only [copyBlock, memcpy] at stopped
      split at stopped
      · cases stopped
      · cases stopped

/-- So no call does; by the iteration that would stop it. -/
theorem Coherent.no_exit {cfs : CfsState} (h : Coherent files AnyBuffer s preads c)
    (member : r.file ∈ files)
    : cachingRead cfs pread s r ≠ .error .exitFailure := by
  intro stopped
  have result := cachingRead_result cfs pread s r
  rw [stopped] at result
  cases result with
  | halted inside loop =>
      obtain ⟨block, st, low, high, serving, failed⟩ :=
        forRange_stopped (Serving files AnyBuffer cfg r preads)
          (fun block st left st' low high serving completed =>
            serving.readBlock member (preadSound_any files pread) (inside.visited_of_lt low high)
              completed)
          (h.serving_start r) loop
      exact serving.no_exit member (inside.visited_of_lt low high) failed

/-- In every state that reads and renames reach, whatever their block reads did, stored blocks
have buffers, and a lookup returns null exactly for an absent key. In the next call every
insertion finds its key absent, so the branch that ends the process is not taken.
-/
theorem fsReaches_no_exit {args : CacheArgs} {cfs : CfsState}
    (reached : FsReaches args cfs files AnyBuffer preads s)
    : (∀ block ∈ s.cacheChain.vals, block.blockNumber ≠ nullBlock → block.buff ≠ none)
      ∧ (∀ id,
          ∃ buff s',
            s.retrieveBuffer id = .ok (buff, s') ∧ (buff = none ↔ s.blocksMap id = none))
      ∧ ∀ pread r,
          r.file ∈ files
          → cachingRead cfs pread s r ≠ .error .exitFailure
            ∧ ∀ (count : ℕ) (st : ReadState Count) (between : CacheManager Count BlockBuf),
                r.Inside
                → count < r.numberOfBlocks.toNat
                → forRange (readBlock pread r) count r.firstBlock (.start s r) = .ok (none, st)
                → st.cacheManager.retrieveBuffer (r.blockID (r.firstBlock + count))
                  = .ok (none, between)
                → between.blocksMap (r.blockID (r.firstBlock + count)) = none := by
  obtain ⟨c, coherent⟩ := reached.coherent
  refine ⟨fun block member real => coherent.buffered member real, ?_, ?_⟩
  · intro id
    obtain ⟨buff, s', retrieved, iff, _⟩ := coherent.retrieve_none_iff id
    exact ⟨buff, s', retrieved, iff⟩
  · intro pread r member
    refine ⟨coherent.no_exit member, ?_⟩
    intro count st between inside more completed missed
    have allowed := preadSound_any files pread
    have serving := coherent.serving_loop member allowed inside more.le completed
    obtain ⟨c', coherent'⟩ := serving.coherent
    obtain ⟨buff, s', retrieved, iff, unchanged⟩ :=
      coherent'.retrieve_none_iff (r.blockID (r.firstBlock + count))
    cases missed.symm.trans retrieved
    rw [unchanged rfl]
    exact iff.mp rfl

theorem no_exit_after_first_byte
    : ∃ s : CacheManager Int32 BlockBuf,
        Cached s (7, 0) = true
        ∧ ∀ pread,
            cachingRead (.below []) pread s (zeroRequest 5000 100) ≠ .error .exitFailure := by
  obtain ⟨_, read, _, cached⟩ := exists_first_byte_read
  have new := @fsReaches_new Int32 _ _ _ _ twoOldArgs (.below []) {zeroFile} AnyBuffer
  have reached := new.step (.read (Set.mem_singleton zeroFile) (preadSound_any _ _) read)
  obtain ⟨_, _, calls⟩ := fsReaches_no_exit reached
  exact ⟨_, cached, fun pread => (calls pread _ (Set.mem_singleton zeroFile)).1⟩

end CachingFileSystem.FileSystem
