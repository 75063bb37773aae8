import CachingFileSystem.BufferCache.Invariants

/-! The order of the chain and the number of real blocks in it, in terms of the history. -/

namespace CachingFileSystem.BufferCache

open CachingFileSystem.Containers
open CachingFileSystem.ReplacementPolicy

variable {cfg : Sections} {Count Buf : Type}

/-- The chain splits into real blocks, in the order of the abstract entries, and the
placeholders behind them.
-/
theorem Represents.split {s : CacheManager Count Buf}
    {c : FrequencyCache cfg BlockID (Payload Buf) Count} (h : Represents cfg s c)
    : ∃ blocks nulls,
        s.cacheChain.vals = blocks ++ nulls
        ∧ blocks.map CacheBlock.entry = c.entries
        ∧ ∀ block ∈ nulls, block.getBlockId = (nullBlock, nullBlock) := by
  obtain ⟨nulls, chain, null, _⟩ := h.chain
  obtain ⟨front, back, split, frontEntries, backEntries⟩ := List.map_eq_append_iff.mp chain
  refine ⟨front, back, split, frontEntries, ?_⟩
  intro block member
  exact null block.entry (backEntries ▸ List.mem_map_of_mem member)

/-- The chain has a front of real blocks, each touched later than the blocks behind it,
and placeholders behind this front; there is one real block for every insertion until
there are no placeholders left.
-/
structure InRecencyOrder (args : CacheArgs) (history : List (Touch BlockID))
    (s : CacheManager Count Buf) (blocks nulls : List (CacheBlock Count Buf))
    : Prop where
  chain : s.cacheChain.vals = blocks ++ nulls
  real : ∀ block ∈ blocks, block.blockNumber ≠ nullBlock
  null : ∀ block ∈ nulls, block.getBlockId = (nullBlock, nullBlock)
  ordered
    : blocks.Pairwise (fun newer older =>
        lastTouch older.getBlockId history < lastTouch newer.getBlockId history)
  number : (blocks.length : ℤ) = min args.numberOfBlocks (insertions history)

section Reachable

variable [LinearOrder Count] [OrderTop Count] [One Count] [Add Count]

/-- In every reachable state the real blocks stand in the order of their last touch, in front
of all placeholders. An insertion evicts a block only when there is no placeholder, which
takes at least `n` insertions, and in a run of at most `n` insertions every touched block
is still found.
-/
theorem reaches_recency {args : CacheArgs} {history} {s : CacheManager Count Buf}
    (reached : Reaches args history s)
    : ∃ blocks nulls,
        InRecencyOrder args history s blocks nulls
        ∧ (∀ id buff path evicted s',
            s.blocksMap id = none
            → s.insertAndRemove id.1 id.2 buff path = .ok (some evicted, s')
            → nulls = [] ∧ blocks.length = args.numberOfBlocks)
        ∧ (insertions history ≤ args.numberOfBlocks
            → ∀ touch ∈ history, ∃ block ∈ blocks, block.getBlockId = touch.key) := by
  obtain ⟨c, h, evolves⟩ := reached.evolves
  obtain ⟨blocks, nulls, chain, entries, null⟩ := h.split
  have keys : blocks.map CacheBlock.getBlockId = c.keys := by
    rw [FrequencyCache.keys, ← entries, List.map_map]
    rfl
  have number : blocks.length = c.entries.length := by
    rw [← entries, List.length_map]
  have size := args.size_eq
  have fills := evolves.fills
  refine ⟨blocks, nulls, ⟨chain, ?_, null, ?_, ?_⟩, ?_, ?_⟩
  · intro block member
    exact h.real block.entry (entries ▸ List.mem_map_of_mem member)
  · have pairwise := evolves.tracks.pairwise
    rw [← keys] at pairwise
    exact List.pairwise_map.mp pairwise
  · rw [number, fills.filled]
    omega
  · intro id buff path evicted s' absent removal
    obtain ⟨_, removal', _⟩ := insertAndRemove_spec h (h.not_mem absent) buff path
    have chosen := (Prod.mk.inj (Except.ok.inj (removal.symm.trans removal'))).1
    have full := FrequencyCache.full_of_victim chosen.symm
    have lengths := congrArg List.length chain
    rw [h.length, List.length_append] at lengths
    exact ⟨List.eq_nil_of_length_eq_zero (by omega), by omega⟩
  · intro room touch touched
    have present := fills.kept (by omega) touch touched
    rw [← keys] at present
    obtain ⟨block, member, same⟩ := List.mem_map.mp present
    exact ⟨block, member, same⟩

end Reachable

theorem reaches_recency_evictThenHit
    : ∃ (s : CacheManager Int32 String) (blocks nulls : List (CacheBlock Int32 String)),
        Reaches twoOldArgs evictThenHit s
        ∧ InRecencyOrder twoOldArgs evictThenHit s blocks nulls
        ∧ blocks.length = 4 := by
  obtain ⟨s, _, reached, _⟩ := reaches_evictThenHit Int32 String twoOldArgs
  obtain ⟨blocks, nulls, order, _, _⟩ := reaches_recency reached
  refine ⟨s, blocks, nulls, reached, order, ?_⟩
  have number := order.number
  have full : min twoOldArgs.numberOfBlocks (insertions evictThenHit) = 4 := by decide
  rw [full] at number
  exact_mod_cast number

end CachingFileSystem.BufferCache
