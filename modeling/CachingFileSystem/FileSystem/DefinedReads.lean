import CachingFileSystem.BufferCache.BoundaryNodes
import CachingFileSystem.FileSystem.SingleBytes

/-! Calls that step back only iterators whose nodes are in the chain. `insertBlock` erases a node
before it steps the boundaries back; where this was the node of a boundary, the step is undefined.
-/

namespace CachingFileSystem.FileSystem

open CachingFileSystem.BufferCache
open CachingFileSystem.Containers
open CachingFileSystem.ReplacementPolicy
open CachingFileSystem.Transitions

variable {cfg : Sections} {Count : Type} {files : Set File} [LinearOrder Count]
  [OrderTop Count] [One Count] [Add Count]

-----------------------------------------------------------------------------------------
-- Calls
-----------------------------------------------------------------------------------------

/-- Both boundaries are live when the iteration steps them back, if it inserts its block. -/
def StepsLive (pread : Pread) (r : Request) (block : ℤ) (st : ReadState Count) : Prop :=
  ∀ between bytes replaced removed,
    st.cacheManager.retrieveBuffer (r.blockID block) = .ok (none, between)
    → pread r.file (toSize r.file.blockSize) (block * r.file.blockSize) = .ok bytes
    → between.insertAndRemove r.file.fileId block (some ⟨r.file.identity, bytes⟩) (some r.path)
      = .ok (replaced, removed)
    → removed.IteratorsLive

/-- So they are in every iteration of the call, if it gets as far as the block loop. -/
def ReadDefined (cfs : CfsState) (pread : Pread) (s : CacheManager Count BlockBuf) (r : Request)
    : Prop :=
  NotLog cfs r
  → r.Inside
  → EachIteration (readBlock pread r) (StepsLive pread r) r.numberOfBlocks.toNat r.firstBlock
      (.start s r)

/-- What an iteration whose block can be read does to the cache. -/
def accessBlock (r : Request) (block : ℤ) (s : CacheManager Count BlockBuf)
    : Except Halt (Option ℤ × CacheManager Count BlockBuf) := do
  let (found, s) ← s.retrieveBuffer (r.blockID block)
  match found with
  | some _ => .ok (none, s)
  | none => do
      let s ← s.insertBlock r.file.fileId block
        (some ⟨r.file.identity, r.file.blockBytes block⟩) (some r.path)
      .ok (none, s)

/-- When the blocks of the request are accessed one after the other, the old section spares its
first block whenever one of them is not cached.
-/
def Request.SparesBoundaries (r : Request) (oldStart : ℕ) (s : CacheManager Count BlockBuf)
    : Prop :=
  EachIteration (accessBlock r)
    (fun block s => s.blocksMap (r.blockID block) = none → s.SparesBoundary oldStart)
    r.numberOfBlocks.toNat r.firstBlock s

section Calls

variable {cfs : CfsState} {pread : Pread} {r : Request} {block : ℤ} {st st' : ReadState Count}
  {s : CacheManager Count BlockBuf} {history : List (BlockID × Bool)}
  {c : FrequencyCache cfg BlockID (Payload BlockBuf) Count}

/-- An iteration whose block can be read accesses this block, and copies from it. -/
theorem accessBlock_of_readBlock (visited : Visited r block)
    (read
      : pread r.file (toSize r.file.blockSize) (block * r.file.blockSize)
        = .ok (r.file.blockBytes block))
    (completed : readBlock pread r block st = .ok (none, st'))
    : accessBlock r block st.cacheManager = .ok (none, st'.cacheManager) := by
  obtain ⟨⟨fetched, between⟩, fetch, rest⟩ := bind_eq_ok_iff.mp completed
  cases fetched with
  | error errno => cases rest
  | ok buf =>
      obtain ⟨next, copied, same⟩ := bind_eq_ok_iff.mp rest
      cases same
      obtain ⟨cache, _⟩ := copyBlock_keeps copied
      simp only [fetchBlock, Request.checkedInt_block visited.inside visited.low visited.high,
        ok_bind] at fetch
      obtain ⟨⟨found, s'⟩, retrieved, fetch⟩ := bind_eq_ok_iff.mp fetch
      simp only [accessBlock, retrieved, ok_bind]
      cases found with
      | some found =>
          cases fetch
          rw [cache]
      | none =>
          simp only [read] at fetch
          obtain ⟨s'', inserted, same⟩ := bind_eq_ok_iff.mp fetch
          cases same
          simp only [inserted, ok_bind, cache]

/-- An iteration whose block can be read inserts it exactly when it is not cached, and the
boundaries are live when the old section spares its first block.
-/
theorem Coherent.stepsLive_iff {Sound : File → ℤ → BlockBuf → Prop}
    (h : Coherent files Sound st.cacheManager history c) {bytes : List UInt8}
    (read : pread r.file (toSize r.file.blockSize) (block * r.file.blockSize) = .ok bytes)
    : StepsLive pread r block st
      ↔ (st.cacheManager.blocksMap (r.blockID block) = none
          → st.cacheManager.SparesBoundary cfg.oldStart) := by
  obtain ⟨buff, between, retrieved, missing, unchanged⟩ := h.retrieve_none_iff (r.blockID block)
  cases buff with
  | some buf =>
      refine iff_of_true ?_ (fun absent => nomatch missing.mpr absent)
      intro _ _ _ _ again
      cases retrieved.symm.trans again
  | none =>
      obtain rfl := unchanged rfl
      have absent := missing.mp rfl
      obtain ⟨replaced, removed, removal, live⟩ :=
        h.represents.iteratorsLive_iff (h.represents.not_mem absent)
          (some ⟨r.file.identity, bytes⟩) (some r.path)
      constructor
      · intro steps _
        exact live.mp (steps _ bytes replaced removed retrieved read removal)
      · intro spares _ _ _ _ again read' removal'
        cases retrieved.symm.trans again
        cases read.symm.trans read'
        cases removal.symm.trans removal'
        exact live.mpr (spares absent)

/-- From a coherent cache, a call whose blocks can be read is defined exactly when the old section
spares its first block at every insertion; witness: the states of the loop have the caches that
the accesses of its blocks lead to.
-/
theorem Coherent.readDefined_iff (h : Coherent files BlockOf s history c)
    (member : r.file ∈ files) (notLog : NotLog cfs r) (inside : r.Inside)
    (full : FullReads pread r)
    : ReadDefined cfs pread s r ↔ r.SparesBoundaries cfg.oldStart s := by
  have looped : ReadDefined cfs pread s r
      ↔ EachIteration (readBlock pread r) (StepsLive pread r) r.numberOfBlocks.toNat r.firstBlock
          (.start s r) :=
    ⟨fun defined => defined notLog inside, fun each _ _ => each⟩
  rw [looped, Request.SparesBoundaries]
  rcases Int.lt_or_le 0 r.remainingData with positive | nonpos
  · obtain ⟨states, start, steps, reached, _⟩ :=
      cachingRead_trace h member notLog inside positive full
    have visited {t : ℕ} (more : t < r.numberOfBlocks.toNat) : Visited r (r.firstBlock + t) :=
      inside.visited_of_lt (by omega) (by omega)
    have read {t : ℕ} (more : t < r.numberOfBlocks.toNat) :=
      full _ (visited more).low (visited more).high
    have accesses : ∀ t < r.numberOfBlocks.toNat,
        accessBlock r (r.firstBlock + t) (states t).cacheManager
          = .ok (none, (states (t + 1)).cacheManager) :=
      fun t more => accessBlock_of_readBlock (visited more) (read more) (steps t more)
    have live := @eachIteration_iff _ _ _ _ _ _ (StepsLive pread r) states steps
    have spared := @eachIteration_iff _ _ _ _ _ _
      (fun block s => s.blocksMap (r.blockID block) = none → s.SparesBoundary cfg.oldStart)
      (fun t => (states t).cacheManager) accesses
    simp only [start] at live spared
    rw [live]
    refine Iff.trans ?_ spared.symm
    refine forall₂_congr (fun t more => ?_)
    obtain ⟨c', coherent⟩ := (reached t (Nat.le_of_lt more)).coherent
    exact coherent.stepsLive_iff (read more)
  · rw [Int.toNat_of_nonpos (Request.numberOfBlocks_nonpos nonpos)]
    exact Iff.rfl

/-- A request for a part of one block makes one access. -/
theorem Request.sparesBoundaries_single {oldStart : ℕ} (positive : 0 < r.remainingData)
    (short : r.remainingData ≤ r.file.blockSize)
    (spares
      : s.blocksMap (r.blockID r.firstBlock) = none → s.SparesBoundary oldStart)
    : r.SparesBoundaries oldStart s := by
  have blocks := numberOfBlocks_pos positive
  have several := @one_lt_numberOfBlocks_iff r
  have one : r.numberOfBlocks.toNat = 1 := by omega
  rw [SparesBoundaries, one]
  exact ⟨spares, fun _ _ => trivial⟩

/-- An access takes at most one free place. -/
theorem represents_accessed {s' : CacheManager Count BlockBuf} (h : Represents cfg s c)
    (real : block ≠ nullBlock) (accessed : accessBlock r block s = .ok (none, s'))
    : ∃ c' : FrequencyCache cfg BlockID (Payload BlockBuf) Count,
        Represents cfg s' c' ∧ c'.entries.length ≤ c.entries.length + 1 := by
  obtain ⟨⟨found, between⟩, retrieved, rest⟩ := bind_eq_ok_iff.mp accessed
  obtain ⟨_, again, represents⟩ := retrieveBuffer_spec h (r.blockID block)
  obtain rfl := (Prod.mk.inj (Except.ok.inj (retrieved.symm.trans again))).2
  have kept : (c.retrieve (r.blockID block)).2.entries.length = c.entries.length :=
    moveToFront_length c.entries _
  cases found with
  | some buf =>
      cases rest
      exact ⟨_, represents, by omega⟩
  | none =>
      obtain ⟨s'', inserted, same⟩ := bind_eq_ok_iff.mp rest
      cases same
      obtain ⟨c', represents', entries⟩ := represents.inserted real inserted
      have fewer :=
        (@survivors_sublist cfg _ _ _ _ (c.retrieve (r.blockID block)).2.entries).length_le
      refine ⟨c', represents', ?_⟩
      rw [entries, List.length_cons]
      omega

/-- With several old places, a request whose blocks fit the free places spares the boundaries; by
induction on the number of its blocks.
-/
theorem sparesBoundaries_of_room (h : Represents cfg s c) (several : 1 < cfg.oldSize)
    (inside : r.Inside) (room : c.entries.length + r.numberOfBlocks.toNat ≤ cfg.size)
    : r.SparesBoundaries cfg.oldStart s := by
  have nonneg := Request.firstBlock_nonneg inside
  unfold Request.SparesBoundaries
  generalize r.numberOfBlocks.toNat = count at room
  generalize r.firstBlock = first at nonneg
  induction count generalizing first s c with
  | zero => trivial
  | succ count ih =>
      refine ⟨fun _ => h.sparesBoundary_of_free several (by omega), fun s' accessed => ?_⟩
      have real : first ≠ nullBlock := by
        simp only [nullBlock]
        omega
      obtain ⟨c', represents, length⟩ := represents_accessed h real accessed
      exact ih represents (by omega) _ (by omega)

end Calls

-----------------------------------------------------------------------------------------
-- Runs
-----------------------------------------------------------------------------------------

/-- The reads and renames of unmodified files whose steps are all defined. -/
inductive DefinedStep (cfs : CfsState) (files : Set File) (s : CacheManager Count BlockBuf)
    : List (BlockID × Bool) → CacheManager Count BlockBuf → Prop
  | read {pread r ret st} (member : r.file ∈ files) (allowed : PreadSound files BlockOf pread)
    (called : cachingRead cfs pread s r = .ok (ret, st)) (defined : ReadDefined cfs pread s r)
    : DefinedStep cfs files s st.preads st.cacheManager
  | rename (rename : Path → Path → Except ℤ ℤ) (path newpath : Path)
    : DefinedStep cfs files s [] (cachingRename cfs rename s path newpath).2

def definedSystem (args : CacheArgs) (cfs : CfsState) (files : Set File)
    : System (CacheManager Count BlockBuf) (List (BlockID × Bool)) where
  start s := s = .new args.numberOfBlocks args.fOld args.fNew
  step := DefinedStep cfs files

/-- Some run of defined reads and renames ends in `s`. -/
def DefinedReaches (args : CacheArgs) (cfs : CfsState) (files : Set File)
    (s : CacheManager Count BlockBuf)
    : Prop :=
  ∃ labels, (definedSystem args cfs files).Run labels s

section Runs

variable {args : CacheArgs} {cfs : CfsState} {s s' : CacheManager Count BlockBuf}
  {pread : Pread} {r : Request}

theorem definedReaches_new (args : CacheArgs) (cfs : CfsState) (files : Set File)
    : DefinedReaches args cfs files
        (.new args.numberOfBlocks args.fOld args.fNew : CacheManager Count BlockBuf) :=
  ⟨[], .start rfl⟩

theorem DefinedReaches.step {label} (reached : DefinedReaches args cfs files s)
    (next : DefinedStep cfs files s label s')
    : DefinedReaches args cfs files s' := by
  obtain ⟨labels, run⟩ := reached
  exact ⟨label :: labels, .step run next⟩

/-- These are runs of reads and renames. -/
theorem DefinedReaches.reaches (reached : DefinedReaches args cfs files s)
    : ∃ preads, FsReaches args cfs files BlockOf preads s := by
  obtain ⟨labels, run⟩ := reached
  refine System.Run.invariant
    (fun _ s => ∃ preads, FsReaches args cfs files BlockOf preads s) ?_ ?_ run
  · intro s start
    subst start
    exact ⟨[], fsReaches_new args cfs files BlockOf⟩
  · intro labels label s s' before next
    obtain ⟨preads, reached⟩ := before
    cases next with
    | read member allowed called _ => exact ⟨_, reached.step (.read member allowed called)⟩
    | rename rename path newpath => exact ⟨_, reached.step (.rename rename path newpath)⟩

/-- The index of the first block of the old section. -/
def oldBoundary (args : CacheArgs) : ℕ :=
  (args.numberOfBlocks - oldSectionSize args.numberOfBlocks args.fOld).toNat

theorem oldBoundary_eq (args : CacheArgs) : oldBoundary args = args.sections.oldStart := by
  rw [oldBoundary, ← args.oldStart_eq, Int.toNat_natCast]

/-- A call on a file of the run whose blocks can be read, from a state that a run of defined reads
and renames reaches.
-/
structure FsRead (args : CacheArgs) (cfs : CfsState) (files : Set File)
    (s : CacheManager Count BlockBuf) (pread : Pread) (r : Request)
    : Prop where
  reached : DefinedReaches args cfs files s
  member : r.file ∈ files
  full : FullReads pread r

theorem FsRead.coherent (call : FsRead args cfs files s pread r)
    : ∃ (history : List (BlockID × Bool))
        (c : FrequencyCache args.sections BlockID (Payload BlockBuf) Count),
        Coherent files BlockOf s history c := by
  obtain ⟨history, reached⟩ := call.reached.reaches
  exact ⟨history, reached.coherent⟩

/-- Such a call past the checks is defined exactly when it spares the boundaries. -/
theorem FsRead.readDefined_iff (call : FsRead args cfs files s pread r) (notLog : NotLog cfs r)
    (inside : r.Inside)
    : ReadDefined cfs pread s r ↔ r.SparesBoundaries (oldBoundary args) s := by
  obtain ⟨history, c, coherent⟩ := call.coherent
  rw [oldBoundary_eq]
  exact coherent.readDefined_iff call.member notLog inside call.full

/-- With several old places, a first read whose blocks fit the cache is defined. -/
theorem sparesBoundaries_new (several : 1 < args.sections.oldSize) (inside : r.Inside)
    (room : r.numberOfBlocks.toNat ≤ args.sections.size)
    : r.SparesBoundaries (oldBoundary args)
        (.new args.numberOfBlocks args.fOld args.fNew : CacheManager Count BlockBuf) := by
  rw [oldBoundary_eq]
  exact sparesBoundaries_of_room (new_represents args) several inside
    ((Nat.zero_add _).trans_le room)

theorem definedReaches_first (several : 1 < args.sections.oldSize) {ret : ℤ}
    {st : ReadState Count} (member : r.file ∈ files) (notLog : NotLog cfs r)
    (inside : r.Inside) (room : r.numberOfBlocks.toNat ≤ args.sections.size)
    (called
      : cachingRead cfs wholePread (.new args.numberOfBlocks args.fOld args.fNew) r
        = .ok (ret, st))
    : DefinedReaches args cfs files st.cacheManager := by
  have new := @definedReaches_new Count _ _ _ _ args cfs files
  have call : FsRead args cfs files _ wholePread r := ⟨new, member, wholePread_full r⟩
  have defined :=
    (call.readDefined_iff notLog inside).mpr (sparesBoundaries_new several inside room)
  exact new.step (.read member (wholePread_sound files) called defined)

-----------------------------------------------------------------------------------------
-- A single old place
-----------------------------------------------------------------------------------------

/-- With a single old place a defined call caches nothing in an empty cache: none of its iterations
inserts a block.
-/
theorem ReadDefined.represents_empty {ret : ℤ} {st : ReadState Count}
    (single : cfg.oldSize = 1)
    (h : Represents cfg s (.empty : FrequencyCache cfg BlockID (Payload BlockBuf) Count))
    (defined : ReadDefined cfs pread s r) (called : cachingRead cfs pread s r = .ok (ret, st))
    : Represents cfg st.cacheManager
        (.empty : FrequencyCache cfg BlockID (Payload BlockBuf) Count) := by
  by_cases notLog : NotLog cfs r
  · have result := cachingRead_result cfs pread s r
    rw [called] at result
    cases result with
    | atOnce => exact h
    | looped _ inside loop =>
        refine (defined notLog inside).preserves
          (fun st => Represents cfg st.cacheManager
            (.empty : FrequencyCache cfg BlockID (Payload BlockBuf) Count))
          (fun block st left st' low high h live completed => ?_) h loop
        have visited := inside.visited_of_lt low high
        rcases read : pread r.file (toSize r.file.blockSize) (block * r.file.blockSize)
          with errno | bytes
        · have fetched := fetchBlock_fail h visited List.not_mem_nil read
          simp only [readBlock, fetched, ok_bind] at completed
          cases completed
          exact h
        · obtain ⟨replaced, removed, removal, iff⟩ :=
            h.iteratorsLive_iff (List.not_mem_nil : r.blockID block ∉ _)
              (some ⟨r.file.identity, bytes⟩) (some r.path)
          have retrieved := retrieveBuffer_of_not_mem h (List.not_mem_nil : r.blockID block ∉ _)
          exact absurd (iff.mp (live _ _ _ _ retrieved read removal))
            (h.not_sparesBoundary single)
  · cases called.symm.trans (cachingRead_log notLog)
    exact h

/-- So a run of defined reads and renames never caches anything. -/
theorem DefinedReaches.represents_empty (single : args.sections.oldSize = 1)
    (reached : DefinedReaches args cfs files s)
    : Represents args.sections s
        (.empty : FrequencyCache args.sections BlockID (Payload BlockBuf) Count) := by
  obtain ⟨labels, run⟩ := reached
  refine System.Run.invariant
    (fun _ s => Represents args.sections s
      (.empty : FrequencyCache args.sections BlockID (Payload BlockBuf) Count)) ?_ ?_ run
  · intro s start
    subst start
    exact new_represents args
  · intro labels label s s' before next
    cases next with
    | read member allowed called defined => exact defined.represents_empty single before called
    | rename rename path newpath =>
        simp only [cachingRename, cachingRenameAt]
        split
        · exact before
        split
        · exact before
        · exact updatePaths_represents before path newpath

/-- And no request for some bytes is served. -/
theorem FsRead.not_sparesBoundaries (call : FsRead args cfs files s pread r)
    (single : args.sections.oldSize = 1) (positive : 0 < r.remainingData)
    : ¬ r.SparesBoundaries (oldBoundary args) s := by
  have empty := call.reached.represents_empty single
  have blocks := Request.numberOfBlocks_pos positive
  obtain ⟨count, more⟩ : ∃ count, r.numberOfBlocks.toNat = count + 1 :=
    Nat.exists_eq_succ_of_ne_zero (by omega)
  rw [oldBoundary_eq, Request.SparesBoundaries, more]
  intro each
  exact empty.not_sparesBoundary single (each.1 (empty.not_mapped List.not_mem_nil))

end Runs

section Samples

variable {s : CacheManager Int32 BlockBuf}

theorem zeroFile_read (reached : DefinedReaches twoOldArgs (.below []) {zeroFile} s)
    (size : UInt64) (offset : ℤ)
    : FsRead twoOldArgs (.below []) {zeroFile} s wholePread (zeroRequest size offset) :=
  ⟨reached, Set.mem_singleton zeroFile, wholePread_full _⟩

theorem zeroRequest_numberOfBlocks {size : UInt64} {offset : ℤ}
    (inside : (zeroRequest size offset).Inside)
    : (zeroRequest size offset).numberOfBlocks ≤ 2 := by
  have bounds := (zeroRequest size offset).numberOfBlocks_bounds.1
  have data : (zeroRequest size offset).remainingData ≤ zeroFile.fileSize - offset :=
    Request.remainingData_le inside
  have nonneg : 0 ≤ offset := inside.nonneg
  change _ * zeroFile.blockSize < _ at bounds
  rw [zeroFile_blockSize] at bounds
  rw [zeroFile_fileSize] at data
  omega

theorem zeroRequest_spares {size : UInt64} {offset : ℤ}
    {c : FrequencyCache twoOldArgs.sections BlockID (Payload BlockBuf) Int32}
    (h : Represents twoOldArgs.sections s c) (few : c.entries.length ≤ 1)
    (inside : (zeroRequest size offset).Inside)
    : (zeroRequest size offset).SparesBoundaries (oldBoundary twoOldArgs) s := by
  have blocks := zeroRequest_numberOfBlocks inside
  have places : twoOldArgs.sections.size = 4 := rfl
  rw [oldBoundary_eq]
  exact sparesBoundaries_of_room h (by decide +kernel) inside (by omega)

/-- The first byte of the file can be read first, which takes one place. -/
theorem exists_first_byte_defined
    : ∃ (s : CacheManager Int32 BlockBuf)
        (c : FrequencyCache twoOldArgs.sections BlockID (Payload BlockBuf) Int32),
        DefinedReaches twoOldArgs (.below []) {zeroFile} s
        ∧ Cached s (7, 0) = true
        ∧ Represents twoOldArgs.sections s c
        ∧ c.entries.length ≤ 1 := by
  obtain ⟨st, called, _, cached⟩ := exists_first_byte_read
  have before : 0 < zeroFile.fileSize := zeroFile_fileSize ▸ by decide
  have inside : (zeroRequest 1 0).Inside := ⟨le_refl 0, before⟩
  have one : (zeroRequest 1 0).numberOfBlocks.toNat = 1 :=
    @byteRequest_numberOfBlocks zeroFile ['/', 'a'] 0 (le_refl 0) before
  have visited : Visited (zeroRequest 1 0) (zeroRequest 1 0).firstBlock :=
    @byteRequest_visited zeroFile ['/', 'a'] 0 (le_refl 0) before
  have initially := @coherent_new Int32 {zeroFile} BlockOf _ twoOldArgs
  obtain ⟨states, start, steps, _, again⟩ :=
    cachingRead_trace initially (Set.mem_singleton zeroFile) (zeroRequest_notLog 1 0) inside
      (@byteRequest_single zeroFile ['/', 'a'] 0 (le_refl 0) before).1 (wholePread_full _)
  rw [one] at steps again
  have step := steps 0 Nat.one_pos
  rw [start, Int.natCast_zero, Int.add_zero] at step
  obtain ⟨c, represents, length⟩ := represents_accessed initially.represents visited.real
    (accessBlock_of_readBlock visited (wholePread_block zeroFile _) step)
  obtain rfl := (Prod.mk.inj (Except.ok.inj (called.symm.trans again))).2
  exact ⟨_, c, definedReaches_first (by decide +kernel) (Set.mem_singleton zeroFile)
    (zeroRequest_notLog 1 0) inside (one ▸ by decide) called, cached, represents, length⟩

end Samples

end CachingFileSystem.FileSystem
