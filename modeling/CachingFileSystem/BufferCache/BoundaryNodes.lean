import CachingFileSystem.BufferCache.Runs

/-! Insertions that remove the node a boundary iterator designates. `findBlock` steps the
boundaries back before it erases a node; `insertBlock` does so afterwards.
-/

namespace CachingFileSystem.BufferCache

open CachingFileSystem.Containers
open CachingFileSystem.ReplacementPolicy

variable {cfg : Sections} {Count Buf : Type}

/-- Both boundary iterators designate nodes that are in the chain. -/
def CacheManager.IteratorsLive (s : CacheManager Count Buf) : Prop :=
  (∃ it ∈ s.cacheChain.addrs, s.middleSectionIter = some it)
  ∧ ∃ it ∈ s.cacheChain.addrs, s.oldSectionIter = some it

instance (s : CacheManager Count Buf) : Decidable s.IteratorsLive :=
  inferInstanceAs (Decidable (_ ∧ _))

/-- The chain still ends in a placeholder. -/
def CacheManager.EndsInPlaceholder (s : CacheManager Count Buf) : Prop :=
  ∃ last, s.cacheChain.back? = some last ∧ last.blockNumber = nullBlock

/-- The old section has a second block, and either a placeholder is left to remove or some
block behind the first is not more referenced than the first.
-/
def CacheManager.SparesBoundary [LinearOrder Count] (s : CacheManager Count Buf) (oldStart : ℕ)
    : Prop :=
  ∃ first rest,
    s.cacheChain.vals.drop oldStart = first :: rest
    ∧ ∃ block ∈ rest, s.EndsInPlaceholder ∨ block.refCount ≤ first.refCount

/-- A chain without placeholders holds exactly the abstract entries. -/
theorem Represents.entries_of_full {s : CacheManager Count Buf}
    {c : FrequencyCache cfg BlockID (Payload Buf) Count} (h : Represents cfg s c)
    (full : c.entries.length = cfg.size)
    : s.entries = c.entries := by
  obtain ⟨nulls, chain, _, total⟩ := h.chain
  have empty : nulls = [] := List.eq_nil_of_length_eq_zero (by omega)
  rw [chain, empty, List.append_nil]

/-- The chain ends in a placeholder exactly while a place is free. -/
theorem Represents.endsInPlaceholder_iff {s : CacheManager Count Buf}
    {c : FrequencyCache cfg BlockID (Payload Buf) Count} (h : Represents cfg s c)
    : s.EndsInPlaceholder ↔ c.entries.length < cfg.size := by
  have start := cfg.oldStart_lt_size
  have nonempty : s.cacheChain.vals ≠ [] := by
    intro empty
    have length := h.length
    rw [empty, List.length_nil] at length
    omega
  obtain ⟨last, back, placeholder⟩ := h.back (s.cacheChain.vals.head nonempty)
  have same : s.cacheChain.back? = some last := by
    have pushed := back
    simp only [CacheManager.putAtTop, NodeList.back?, NodeList.vals_pushFront] at pushed
    rw [NodeList.back?, ← pushed, List.getLast?_cons]
    cases length : s.cacheChain.vals.getLast? with
    | none => exact absurd (List.getLast?_eq_none_iff.mp length) nonempty
    | some _ => rfl
  rw [← placeholder]
  constructor
  · intro ends
    rcases ends with ⟨other, there, null⟩
    cases same.symm.trans there
    exact null
  · exact fun null => ⟨last, same, null⟩

/-- The removal spares the first node of the old section exactly when the old section looks
like this before the insertion; witness: a placeholder is removed at the end of the chain,
and the scan ends at the first block exactly when all others are more referenced.
-/
theorem Represents.sparesBoundary_iff [LinearOrder Count] {s : CacheManager Count Buf}
    {c : FrequencyCache cfg BlockID (Payload Buf) Count} (h : Represents cfg s c)
    : s.SparesBoundary cfg.oldStart ↔ removedIndex cfg c.entries ≠ cfg.oldStart := by
  have start := cfg.oldStart_lt_size
  have bounded := c.bounded
  have length : (s.cacheChain.vals.drop cfg.oldStart).length = cfg.size - cfg.oldStart := by
    rw [List.length_drop, h.length]
  obtain ⟨first, rest, split'⟩ : ∃ first rest,
      s.cacheChain.vals.drop cfg.oldStart = first :: rest := by
    cases split' : s.cacheChain.vals.drop cfg.oldStart with
    | nil =>
        rw [split', List.length_nil] at length
        omega
    | cons first rest => exact ⟨first, rest, rfl⟩
  have spares : s.SparesBoundary cfg.oldStart
      ↔ ∃ block ∈ rest, s.EndsInPlaceholder ∨ block.refCount ≤ first.refCount := by
    simp only [CacheManager.SparesBoundary, split', List.cons.injEq, ↓existsAndEq, true_and]
  rw [split', List.length_cons] at length
  rw [spares, h.endsInPlaceholder_iff]
  rcases Nat.lt_or_ge c.entries.length cfg.size with free | full
  · simp only [free, true_or, and_true, removedIndex, if_true]
    cases rest with
    | nil =>
        refine iff_of_false (fun spare => List.not_mem_nil spare.choose_spec) (fun ne => ne ?_)
        simp only [List.length_nil] at length
        omega
    | cons second rest =>
        refine iff_of_true ⟨second, List.mem_cons_self⟩ ?_
        simp only [List.length_cons] at length
        omega
  · have counts : (c.entries.drop cfg.oldStart).map Entry.count
        = first.refCount :: rest.map CacheBlock.refCount := by
      rw [← h.entries_of_full (Nat.le_antisymm bounded full), CacheManager.entries,
        ← List.map_drop, split', List.map_map, List.map_cons]
      rfl
    obtain ⟨⟨index, least⟩, found⟩ :=
      lastMin?_isSome (List.cons_ne_nil first.refCount (rest.map CacheBlock.refCount))
    have chosen := lastMin?_zero_iff found
    have removed : removedIndex cfg c.entries = cfg.oldStart + index := by
      simp only [removedIndex, Nat.not_lt.mpr full, if_false, victimIndex, counts, found,
        Option.map_some, Option.getD_some]
    have first' : removedIndex cfg c.entries ≠ cfg.oldStart ↔ ¬ index = 0 := by omega
    rw [first', chosen]
    simp only [Nat.not_lt.mpr full, false_or, List.forall_mem_map, not_forall, not_lt,
      exists_prop]

/-- With several old places it does so while a place is free. -/
theorem Represents.sparesBoundary_of_free [LinearOrder Count] {s : CacheManager Count Buf}
    {c : FrequencyCache cfg BlockID (Payload Buf) Count} (h : Represents cfg s c)
    (several : 1 < cfg.oldSize) (free : c.entries.length < cfg.size)
    : s.SparesBoundary cfg.oldStart := by
  have fits := cfg.fits
  rw [h.sparesBoundary_iff, removedIndex, if_pos free, Sections.oldStart]
  omega

/-- With a single old place it never does. -/
theorem Represents.not_sparesBoundary [LinearOrder Count] {s : CacheManager Count Buf}
    {c : FrequencyCache cfg BlockID (Payload Buf) Count} (h : Represents cfg s c)
    (single : cfg.oldSize = 1)
    : ¬ s.SparesBoundary cfg.oldStart := by
  have bounds := removedIndex_bounds c
  rw [Sections.oldStart, single] at bounds
  rw [h.sparesBoundary_iff, Sections.oldStart, single, not_not]
  omega

section Insertion

variable [LinearOrder Count] [OrderTop Count] [One Count] [Add Count]

/-- The removal leaves both iterators live exactly when it spares the first old node: that
is the only node of a boundary that a removal can reach.
-/
theorem Represents.iteratorsLive_iff {s : CacheManager Count Buf}
    {c : FrequencyCache cfg BlockID (Payload Buf) Count} (h : Represents cfg s c)
    {fileId blockNumber : ℤ} (absent : (fileId, blockNumber) ∉ c.keys)
    (buff : Option Buf) (path : Option Path)
    : ∃ replaced s',
        s.insertAndRemove fileId blockNumber buff path = .ok (replaced, s')
        ∧ (s'.IteratorsLive ↔ s.SparesBoundary cfg.oldStart) := by
  have order := cfg.newSize_le_oldStart
  have bounds := removedIndex_bounds c
  obtain ⟨s', removal, removed⟩ := insertAndRemove_spec h absent buff path
  obtain ⟨middle, middleIter, middleAt⟩ := h.middle
  obtain ⟨old, oldIter, oldAt⟩ := h.old
  refine ⟨_, s', removal, ?_⟩
  rw [h.sparesBoundary_iff]
  simp only [CacheManager.IteratorsLive, removed.middle, removed.old, middleIter, oldIter,
    Option.some.injEq, exists_eq_right', removed.live_iff middleAt, removed.live_iff oldAt]
  omega

/-- In every reachable state, the next insertion removes neither boundary node before it
steps the boundaries back exactly when the old section spares its first node.
-/
theorem reaches_iteratorsLive_iff {args : CacheArgs} {history} {s : CacheManager Count Buf}
    (reached : Reaches args history s) (id : BlockID) (absent : s.blocksMap id = none)
    (buff : Option Buf) (path : Option Path)
    : ∃ replaced s',
        s.insertAndRemove id.1 id.2 buff path = .ok (replaced, s')
        ∧ (s'.IteratorsLive
          ↔ s.SparesBoundary
              (args.numberOfBlocks - oldSectionSize args.numberOfBlocks args.fOld).toNat) := by
  obtain ⟨c, h, _⟩ := reached.represents
  rw [← args.oldStart_eq, Int.toNat_natCast]
  exact h.iteratorsLive_iff (h.not_mem absent) buff path

end Insertion

/-- The first insertion into a cache with two old blocks pops the second of them. -/
theorem iteratorsLive_at_first_insertion
    : ∃ replaced s',
        (CacheManager.new 4 (1 / 2) (1 / 4) : CacheManager Int32 String).insertAndRemove 7 0
          (some "data") none = .ok (replaced, s')
        ∧ s'.IteratorsLive := by
  obtain ⟨replaced, s', removal, live⟩ :=
    reaches_iteratorsLive_iff (@reaches_new Int32 String _ _ _ _ twoOldArgs) (7, 0) rfl
      (some "data") none
  refine ⟨replaced, s', removal, live.mpr ?_⟩
  rw [← twoOldArgs.oldStart_eq, Int.toNat_natCast]
  exact (@new_represents Int32 String _ twoOldArgs).sparesBoundary_of_free (by decide +kernel)
    (by decide +kernel)

/-- Two blocks, one in each section. -/
def halfArgs : CacheArgs := ⟨2, 1 / 2, 1 / 2, by decide +kernel⟩

/-- The first insertion into a cache with an old section of one block pops the placeholder
that both iterators designate.
-/
theorem first_insertion_takes_boundary
    : Reaches halfArgs [] (CacheManager.new 2 (1 / 2) (1 / 2) : CacheManager Int32 String)
      ∧ ∃ s',
          (CacheManager.new 2 (1 / 2) (1 / 2) : CacheManager Int32 String).insertAndRemove 7 0
            (some "data") none = .ok (none, s')
          ∧ ¬ s'.IteratorsLive :=
  ⟨reaches_new halfArgs, _, rfl, by decide +kernel⟩

end CachingFileSystem.BufferCache
