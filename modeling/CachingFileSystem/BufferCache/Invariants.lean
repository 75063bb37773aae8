import CachingFileSystem.BufferCache.Runs

/-! What holds of the chain, the map and the iterators in every reachable state. -/

namespace CachingFileSystem.BufferCache

open CachingFileSystem.Containers
open CachingFileSystem.ReplacementPolicy

variable {cfg : Sections} {Count Buf : Type}

/-- Placeholders are exactly the blocks behind the abstract entries. -/
theorem Represents.entry_of_real {s : CacheManager Count Buf}
    {c : FrequencyCache cfg BlockID (Payload Buf) Count} (h : Represents cfg s c)
    {i : ℕ} {block} (here : s.cacheChain.vals[i]? = some block)
    (real : block.blockNumber ≠ nullBlock)
    : c.entries[i]? = some block.entry := by
  have read := s.entries_getElem? here
  obtain ⟨nulls, chain, null, _⟩ := h.chain
  rw [chain] at read
  rcases Nat.lt_or_ge i c.entries.length with inside | past
  · rwa [List.getElem?_append_left inside] at read
  · rw [List.getElem?_append_right past] at read
    exact absurd (congrArg Prod.snd (null _ (List.mem_of_getElem? read))) real

-----------------------------------------------------------------------------------------
-- The sections partition the chain
-----------------------------------------------------------------------------------------

/-- Both iterators designate the first index of their section, and the blocks that are no
placeholders carry the label of their index.
-/
structure Partitioned (args : CacheArgs) (s : CacheManager Count Buf) (newSize oldStart : ℕ)
    : Prop where
  newSize_eq : (newSize : ℤ) = ⌊args.fNew * args.numberOfBlocks⌋
  oldStart_eq : (oldStart : ℤ) = args.numberOfBlocks - ⌊args.fOld * args.numberOfBlocks⌋
  newPositive : 1 ≤ newSize
  ordered : newSize ≤ oldStart
  oldPositive : (oldStart : ℤ) ≤ args.numberOfBlocks - 1
  middle : ∃ it, s.middleSectionIter = some it ∧ s.cacheChain.Designates it newSize
  old : ∃ it, s.oldSectionIter = some it ∧ s.cacheChain.Designates it oldStart
  labelled
    : ∀ (i : ℕ) (block : CacheBlock Count Buf),
        s.cacheChain.vals[i]? = some block
        → block.blockNumber ≠ nullBlock
        → block.sectionType
          = if i < newSize then .newSection
            else if i < oldStart then .middleSection
            else .oldSection

theorem Represents.partitioned {args : CacheArgs} {s : CacheManager Count Buf}
    {c : FrequencyCache args.sections BlockID (Payload Buf) Count}
    (h : Represents args.sections s c)
    : Partitioned args s args.sections.newSize args.sections.oldStart where
  newSize_eq := args.newSize_eq
  oldStart_eq := args.oldStart_eq
  newPositive := args.sections.newPositive
  ordered := args.sections.newSize_le_oldStart
  oldPositive := by
    have last := args.sections.oldStart_lt_size
    have size := args.size_eq
    omega
  middle := h.middle
  old := h.old
  labelled := by
    intro i block here real
    have entry := h.entry_of_real here real
    have label := h.labelled i (List.getElem?_eq_some_iff.mp entry).1
    exact Option.some.inj ((s.labels_getElem? here).symm.trans label)

section Reachable

variable [LinearOrder Count] [OrderTop Count] [One Count] [Add Count]

/-- In every reachable state the sections partition the chain, so lookups and insertions of
absent blocks succeed: no decrement steps before the front and a candidate is always found.
-/
theorem reaches_partitioned {args : CacheArgs} {history} {s : CacheManager Count Buf}
    (reached : Reaches args history s)
    : (∃ newSize oldStart, Partitioned args s newSize oldStart)
      ∧ (∀ id, ∃ result, s.retrieveBuffer id = .ok result)
      ∧ ∀ id buff path,
          s.blocksMap id = none
          → id.2 ≠ nullBlock
          → ∃ s', s.insertBlock id.1 id.2 buff path = .ok s' := by
  obtain ⟨c, h, _⟩ := reached.represents
  refine ⟨⟨_, _, h.partitioned⟩, ?_, ?_⟩
  · intro id
    obtain ⟨s', retrieved, _⟩ := retrieveBuffer_spec h id
    exact ⟨_, retrieved⟩
  · intro id buff path absent real
    obtain ⟨s', _, inserted, _, _⟩ := insertBlock_spec h (h.not_mem absent) real buff path
    exact ⟨s', inserted⟩

end Reachable

theorem reaches_partitioned_evictThenHit
    : ∃ s : CacheManager Int32 String,
        Reaches twoOldArgs evictThenHit s
        ∧ (∃ newSize oldStart, Partitioned twoOldArgs s newSize oldStart)
        ∧ (∀ id, ∃ result, s.retrieveBuffer id = .ok result)
        ∧ ∀ id buff path,
            s.blocksMap id = none
            → id.2 ≠ nullBlock
            → ∃ s', s.insertBlock id.1 id.2 buff path = .ok s' := by
  obtain ⟨s, _, reached, _⟩ := reaches_evictThenHit Int32 String twoOldArgs
  exact ⟨s, reached, reaches_partitioned reached⟩

-----------------------------------------------------------------------------------------
-- The map and the chain agree
-----------------------------------------------------------------------------------------

/-- The chain keeps its length, its real blocks have distinct ids, and the map takes each
of these ids to the node of its block and is defined on no other.
-/
structure MapAgrees (args : CacheArgs) (s : CacheManager Count Buf) : Prop where
  length : (s.cacheChain.vals.length : ℤ) = args.numberOfBlocks
  distinct
    : ∀ (i j : ℕ) (block block' : CacheBlock Count Buf),
        s.cacheChain.vals[i]? = some block
        → s.cacheChain.vals[j]? = some block'
        → block.blockNumber ≠ nullBlock
        → block.getBlockId = block'.getBlockId
        → i = j
  mapped
    : ∀ id it,
        s.blocksMap id = some it
        ↔ ∃ (i : ℕ) (block : CacheBlock Count Buf),
            s.cacheChain.Designates it i
            ∧ s.cacheChain.vals[i]? = some block
            ∧ block.blockNumber ≠ nullBlock
            ∧ block.getBlockId = id

theorem Represents.mapAgrees {args : CacheArgs} {s : CacheManager Count Buf}
    {c : FrequencyCache args.sections BlockID (Payload Buf) Count}
    (h : Represents args.sections s c)
    : MapAgrees args s where
  length := by rw [h.length, args.size_eq]
  distinct := by
    intro i j block block' here there real same
    have real' : block'.blockNumber ≠ nullBlock := by
      rwa [← show block.blockNumber = block'.blockNumber from congrArg Prod.snd same]
    have first := FrequencyCache.index_eq (h.entry_of_real here real)
    have second := FrequencyCache.index_eq (h.entry_of_real there real')
    have keys : block.entry.key = block'.entry.key := same
    rw [← first, ← second, keys]
  mapped := by
    intro id it
    refine (h.mapped id it).trans ⟨?_, ?_⟩
    · intro placed
      rcases placed with ⟨i, entry, here, rfl, designates⟩
      obtain ⟨_, block, _, at', rfl, _⟩ := h.block here
      exact ⟨i, block, designates, at', h.real _ (List.mem_of_getElem? here), rfl⟩
    · intro placed
      rcases placed with ⟨i, block, designates, at', real, rfl⟩
      exact ⟨i, block.entry, h.entry_of_real at' real, rfl, designates⟩

/-- Placeholders are never evicted. -/
theorem Represents.victim_real [LinearOrder Count] {s : CacheManager Count Buf}
    {c : FrequencyCache cfg BlockID (Payload Buf) Count} (h : Represents cfg s c) {id : BlockID}
    (evicted : victim cfg c.entries = some id)
    : id.2 ≠ nullBlock := by
  rw [victim_eq] at evicted
  obtain ⟨entry, here, rfl⟩ := Option.map_eq_some_iff.mp evicted
  exact h.real entry (List.mem_of_getElem? here)

section Reachable

variable [LinearOrder Count] [OrderTop Count] [One Count] [Add Count]

/-- In every reachable state map and chain agree. The next insertion leaves an evicted id in
neither, and the next hit leaves the id designated by its new node at the front.
-/
theorem reaches_mapAgrees {args : CacheArgs} {history} {s : CacheManager Count Buf}
    (reached : Reaches args history s)
    : MapAgrees args s
      ∧ (∀ id buff path evicted between s',
          s.blocksMap id = none
          → id.2 ≠ nullBlock
          → s.insertAndRemove id.1 id.2 buff path = .ok (some evicted, between)
          → s.insertBlock id.1 id.2 buff path = .ok s'
          → s'.blocksMap evicted = none
            ∧ ∀ block ∈ s'.cacheChain.vals, block.getBlockId ≠ evicted)
      ∧ ∀ id head s',
          s.findBlock id = .ok (some head, s')
          → s'.blocksMap id = some head ∧ s'.cacheChain.Designates head 0 := by
  obtain ⟨c, h, _⟩ := reached.represents
  refine ⟨h.mapAgrees, ?_, ?_⟩
  · intro id buff path evicted between s' absent real removal inserted
    have unknown := h.not_mem absent
    obtain ⟨between', removal', _⟩ := insertAndRemove_spec h unknown buff path
    obtain ⟨s'', c', inserted', abstract, represents⟩ :=
      insertBlock_spec h unknown real buff path
    cases inserted.symm.trans inserted'
    have chosen := (Prod.mk.inj (Except.ok.inj (removal.symm.trans removal'))).1
    rw [← chosen] at abstract
    have gone := FrequencyCache.victim_not_mem abstract
    refine ⟨represents.not_mapped gone, ?_⟩
    intro block member same
    subst same
    have realBlock : block.blockNumber ≠ nullBlock := h.victim_real chosen.symm
    obtain ⟨i, here⟩ := List.mem_iff_getElem?.mp member
    have entry := represents.entry_of_real here realBlock
    exact gone (List.mem_map_of_mem (List.mem_of_getElem? entry))
  · intro id head s' found
    rcases Classical.em (id ∈ c.keys) with present | absent
    · obtain ⟨entry, here, rfl⟩ := FrequencyCache.exists_entry present
      obtain ⟨head', s'', found', represents, front⟩ := findBlock_of_entry h here
      cases found.symm.trans found'
      have moved := (FrequencyCache.retrieve_of_entry here).2
      refine ⟨(represents.mapped _ _).mpr ⟨0, _, by rw [moved]; rfl, ?_, front⟩, front⟩
      exact Entry.hitAt_key _ _
    · rw [findBlock_of_not_mem h absent] at found
      cases found

end Reachable

theorem reaches_mapAgrees_evictThenHit
    : ∃ s : CacheManager Int32 String,
        Reaches twoOldArgs evictThenHit s ∧ MapAgrees twoOldArgs s := by
  obtain ⟨s, _, reached, _⟩ := reaches_evictThenHit Int32 String twoOldArgs
  exact ⟨s, reached, (reaches_mapAgrees reached).1⟩

end CachingFileSystem.BufferCache
