import CachingFileSystem.BufferCache.Lookup

/-! Insertions of the manager refine insertions of the abstract cache. -/

namespace CachingFileSystem.BufferCache

open CachingFileSystem.Containers
open CachingFileSystem.ReplacementPolicy

variable {cfg : Sections} {Count Buf : Type}

/-- The index in the chain of the node that the next insertion removes: the last
placeholder while there is one, else the least referenced old block.
-/
def removedIndex [LinearOrder Count] (cfg : Sections)
    (entries : List (Entry BlockID (Payload Buf) Count))
    : ℕ :=
  if entries.length < cfg.size then cfg.size - 1 else victimIndex cfg entries

/-- The removed node is in the old section of the chain. -/
theorem removedIndex_bounds [LinearOrder Count]
    (c : FrequencyCache cfg BlockID (Payload Buf) Count)
    : cfg.oldStart ≤ removedIndex cfg c.entries ∧ removedIndex cfg c.entries < cfg.size := by
  have start := cfg.oldStart_lt_size
  have bounded := c.bounded
  unfold removedIndex
  split
  · omega
  · exact victimIndex_bounds (by omega)

/-- Removing that index from the entries leaves the survivors. -/
theorem eraseIdx_removedIndex [LinearOrder Count]
    (c : FrequencyCache cfg BlockID (Payload Buf) Count)
    : c.entries.eraseIdx (removedIndex cfg c.entries) = survivors cfg c.entries := by
  unfold removedIndex survivors
  split
  · exact List.eraseIdx_of_length_le (by omega)
  · rfl

/-- The replaced key is the key at the removed index. -/
theorem victim_eq [LinearOrder Count]
    (c : FrequencyCache cfg BlockID (Payload Buf) Count)
    : victim cfg c.entries = (c.entries[removedIndex cfg c.entries]?).map Entry.key := by
  unfold removedIndex victim
  split
  · rw [List.getElem?_eq_none (by omega)]
    rfl
  · rfl

-----------------------------------------------------------------------------------------
-- Choosing the node to remove
-----------------------------------------------------------------------------------------

/-- The last block is a placeholder exactly while a place is free. -/
theorem Represents.back {s : CacheManager Count Buf}
    {c : FrequencyCache cfg BlockID (Payload Buf) Count} (h : Represents cfg s c)
    (block : CacheBlock Count Buf)
    : ∃ last,
        (s.putAtTop block).cacheChain.back? = some last
        ∧ (last.blockNumber = nullBlock ↔ c.entries.length < cfg.size) := by
  obtain ⟨final, size⟩ : ∃ final, cfg.size = final + 1 := ⟨cfg.size - 1, by
    have start := cfg.oldStart_lt_size
    omega⟩
  have length := h.length
  have inside : final < s.cacheChain.vals.length := by omega
  refine ⟨s.cacheChain.vals[final], ?_, ?_⟩
  · have pushed : (s.putAtTop block).cacheChain.vals = block :: s.cacheChain.vals := rfl
    rw [NodeList.back?, pushed, List.getLast?_eq_getElem?, List.length_cons, length, size,
      Nat.add_sub_cancel, List.getElem?_cons_succ, List.getElem?_eq_getElem inside]
  · have read := s.entries_getElem? (List.getElem?_eq_getElem inside)
    obtain ⟨nulls, chain, null, total⟩ := h.chain
    rw [chain] at read
    by_cases free : c.entries.length < cfg.size
    · rw [List.getElem?_append_right (by omega)] at read
      have key := null _ (List.mem_of_getElem? read)
      exact iff_of_true (congrArg Prod.snd key) free
    · rw [List.getElem?_append_left (by omega)] at read
      exact iff_of_false (h.real _ (List.mem_of_getElem? read)) free

/-- The scan of the old section ends at the node of the abstract victim; witness: the fold
replaces its candidate exactly when the last minimum does, and every count is below `⊤`.
-/
theorem eraseCandidate_spec [LinearOrder Count] [OrderTop Count] {s : CacheManager Count Buf}
    {c : FrequencyCache cfg BlockID (Payload Buf) Count} (h : Represents cfg s c)
    (full : c.entries.length = cfg.size) (block : CacheBlock Count Buf)
    : ∃ it,
        (s.putAtTop block).eraseCandidateBlockIter = .ok it
        ∧ s.cacheChain.Designates it (victimIndex cfg c.entries) := by
  have start := cfg.oldStart_lt_size
  obtain ⟨old, oldIter, oldAt⟩ := h.old
  have pushedAt := (NodeList.designates_pushFront block).mpr oldAt
  have from' : (s.putAtTop block).cacheChain.from? old
      = some (s.cacheChain.nodes.drop cfg.oldStart) := pushedAt.from
  obtain ⟨nulls, chain, _, total⟩ := h.chain
  have entries : s.entries = c.entries := by
    have empty : nulls = [] := List.eq_nil_of_length_eq_zero (by omega)
    rw [chain, empty, List.append_nil]
  have counts : (s.cacheChain.nodes.drop cfg.oldStart).map (fun node => node.val.refCount)
      = (c.entries.drop cfg.oldStart).map Entry.count := by
    rw [← entries, CacheManager.entries, NodeList.vals]
    simp only [List.map_drop, List.map_map]
    rfl
  have nonempty : (c.entries.drop cfg.oldStart).map Entry.count ≠ [] := by
    intro empty
    have length := congrArg List.length empty
    simp only [List.length_map, List.length_drop, List.length_nil] at length
    omega
  obtain ⟨⟨index, least⟩, found⟩ := lastMin?_isSome nonempty
  have bound := lastMin?_lt found
  simp only [List.length_map, List.length_drop] at bound
  have nodes : s.cacheChain.nodes.length = cfg.size := by
    rw [← h.length, NodeList.length_vals]
  have inside : cfg.oldStart + index < s.cacheChain.nodes.length := by omega
  have chosen : (CacheManager.leastReferenced (s.cacheChain.nodes.drop cfg.oldStart)).2
      = some s.cacheChain.nodes[cfg.oldStart + index] := by
    unfold CacheManager.leastReferenced
    rw [foldl_lastMin (fun node : Node (CacheBlock Count Buf) => node.val.refCount), counts,
      found]
    simp only [le_top, if_true, List.getElem?_drop, List.getElem?_eq_getElem inside]
  refine ⟨s.cacheChain.nodes[cfg.oldStart + index].addr, ?_, ?_⟩
  · have kept : (s.putAtTop block).oldSectionIter = some old := oldIter
    simp only [CacheManager.eraseCandidateBlockIter, kept, from', chosen, demand_some, ok_bind]
  · simp only [victimIndex, found, Option.map_some, Option.getD_some, NodeList.Designates,
      NodeList.addrs, List.getElem?_map, List.getElem?_eq_getElem inside]

-----------------------------------------------------------------------------------------
-- The insertion up to the correction of the boundaries
-----------------------------------------------------------------------------------------

/-- The state between the removal and the correction of the boundaries: one node was pushed
and the node at `i` removed, while both iterators still are where they were.
-/
structure Removed (s s' : CacheManager Count Buf) (i : ℕ) (block : CacheBlock Count Buf)
    (replaced : Option BlockID)
    : Prop where
  numberOfBlocks : s'.numberOfBlocks = s.numberOfBlocks
  middle : s'.middleSectionIter = s.middleSectionIter
  old : s'.oldSectionIter = s.oldSectionIter
  blocksMap
    : s'.blocksMap
      = match replaced with
        | some id =>
            Function.update
              (Function.update s.blocksMap block.getBlockId (some s.cacheChain.next)) id none
        | none => Function.update s.blocksMap block.getBlockId (some s.cacheChain.next)
  chain
    : ∃ it,
        s.cacheChain.Designates it i
        ∧ s'.cacheChain = (s.cacheChain.pushFront block).erase it

/-- The removal takes the abstract victim's node, or a placeholder while a place is free. -/
theorem insertAndRemove_spec [LinearOrder Count] [OrderTop Count] [One Count] [Add Count]
    {s : CacheManager Count Buf} {c : FrequencyCache cfg BlockID (Payload Buf) Count}
    (h : Represents cfg s c) {fileId blockNumber : ℤ} (absent : (fileId, blockNumber) ∉ c.keys)
    (buff : Option Buf) (path : Option Path)
    : ∃ s',
        s.insertAndRemove fileId blockNumber buff path = .ok (victim cfg c.entries, s')
        ∧ Removed s s' (removedIndex cfg c.entries) (.new fileId blockNumber buff path)
            (victim cfg c.entries) := by
  have start := cfg.oldStart_lt_size
  obtain ⟨last, back, placeholder⟩ := h.back (.new fileId blockNumber buff path)
  simp only [CacheManager.insertAndRemove, findBlock_of_not_mem h absent, ok_bind,
    CacheManager.removeBlock, back, demand_some]
  by_cases free : c.entries.length < cfg.size
  · obtain ⟨it, designates⟩ := NodeList.exists_designates
      (show cfg.size - 1 < s.cacheChain.vals.length by
        have length := h.length
        omega)
    have pushed := (NodeList.designates_pushFront (.new fileId blockNumber buff path)).mpr
      designates
    have length : (s.cacheChain.pushFront (.new fileId blockNumber buff path)).vals.length
        = cfg.size - 1 + 1 + 1 := by
      rw [NodeList.vals_pushFront, List.length_cons, h.length]
      omega
    simp only [placeholder.mpr free, if_true, victim, free, removedIndex]
    refine ⟨_, rfl, rfl, rfl, rfl, rfl, it, designates, ?_⟩
    exact NodeList.popBack_eq pushed length
  · have full : c.entries.length = cfg.size := by
      have bounded := c.bounded
      omega
    have notNull : ¬ last.blockNumber = nullBlock := fun null => free (placeholder.mp null)
    obtain ⟨it, chosen, designates⟩ :=
      eraseCandidate_spec h full (.new fileId blockNumber buff path)
    obtain ⟨entry, here⟩ : ∃ entry, c.entries[victimIndex cfg c.entries]? = some entry :=
      ⟨_, List.getElem?_eq_getElem (full.symm ▸ (victimIndex_bounds full).2)⟩
    obtain ⟨it', block, designates', at', rfl, _⟩ := h.block here
    have deref : (s.putAtTop (.new fileId blockNumber buff path)).cacheChain.deref? it
        = some block := by
      have pushed := (NodeList.designates_pushFront (.new fileId blockNumber buff path)).mpr
        designates
      exact pushed.deref.trans at'
    simp only [notNull, if_false, chosen, deref, ok_bind, demand_some, victim, free, here,
      Option.map_some, removedIndex]
    exact ⟨_, rfl, rfl, rfl, rfl, rfl, it, designates, rfl⟩

/-- Inserting a block that is there ends the process, whatever the lookup changed. -/
theorem insertAndRemove_of_mem [LinearOrder Count] [OrderTop Count] [One Count] [Add Count]
    {s : CacheManager Count Buf}
    {c : FrequencyCache cfg BlockID (Payload Buf) Count} (h : Represents cfg s c)
    {fileId blockNumber : ℤ} (present : (fileId, blockNumber) ∈ c.keys)
    (buff : Option Buf) (path : Option Path)
    : s.insertAndRemove fileId blockNumber buff path = .error .exitFailure := by
  obtain ⟨entry, here, same⟩ := FrequencyCache.exists_entry present
  obtain ⟨head, s', found, _, _⟩ := findBlock_of_entry h here
  rw [same] at found
  simp only [CacheManager.insertAndRemove, found, ok_bind]

/-- So does the whole insertion. -/
theorem insertBlock_of_mem [LinearOrder Count] [OrderTop Count] [One Count] [Add Count]
    {s : CacheManager Count Buf}
    {c : FrequencyCache cfg BlockID (Payload Buf) Count} (h : Represents cfg s c)
    {fileId blockNumber : ℤ} (present : (fileId, blockNumber) ∈ c.keys)
    (buff : Option Buf) (path : Option Path)
    : s.insertBlock fileId blockNumber buff path = .error .exitFailure := by
  simp only [CacheManager.insertBlock, insertAndRemove_of_mem h present]
  rfl

variable {s s' : CacheManager Count Buf} {i : ℕ} {block : CacheBlock Count Buf}
  {replaced : Option BlockID}

/-- The removed node sits one place further back in the chain with the pushed node. -/
theorem Removed.exists_erased (h : Removed s s' i block replaced)
    : ∃ it,
        s'.cacheChain = (s.cacheChain.pushFront block).erase it
        ∧ (s.cacheChain.pushFront block).Designates it (i + 1)
        ∧ (s.cacheChain.pushFront block).pos it = i + 1 := by
  obtain ⟨it, designates, chain⟩ := h.chain
  have pushed := (NodeList.designates_pushFront block).mpr designates
  exact ⟨it, chain, pushed, pushed.pos_eq⟩

theorem Removed.addrs (h : Removed s s' i block replaced)
    : s'.cacheChain.addrs = s.cacheChain.next :: s.cacheChain.addrs.eraseIdx i := by
  obtain ⟨it, chain, _, position⟩ := h.exists_erased
  rw [chain, NodeList.addrs_erase, position]
  rfl

theorem Removed.entries (h : Removed s s' i block replaced)
    : s'.entries = block.entry :: s.entries.eraseIdx i := by
  obtain ⟨it, chain, _, position⟩ := h.exists_erased
  rw [CacheManager.entries, chain, NodeList.vals_erase, position, NodeList.vals_pushFront,
    List.eraseIdx_cons_succ, List.map_cons, CacheManager.entries, List.eraseIdx_map]

theorem Removed.labels (h : Removed s s' i block replaced)
    : s'.labels = block.sectionType :: s.labels.eraseIdx i := by
  obtain ⟨it, chain, _, position⟩ := h.exists_erased
  rw [CacheManager.labels, chain, NodeList.vals_erase, position, NodeList.vals_pushFront,
    List.eraseIdx_cons_succ, List.map_cons, CacheManager.labels, List.eraseIdx_map]

/-- An iterator not behind the removed node steps back to its old index, be its own node
the removed one or not.
-/
theorem Removed.prev (h : Removed s s' i block replaced) {it k}
    (designates : s.cacheChain.Designates it k) (within : k ≤ i)
    : ∃ before,
        s'.cacheChain.prev? it = some before ∧ s'.cacheChain.Designates before k := by
  obtain ⟨erased, chain, erasedAt, position⟩ := h.exists_erased
  have pushed := (NodeList.designates_pushFront block).mpr designates
  obtain ⟨before, step, beforeAt⟩ := pushed.prev
  refine ⟨before, ?_, ?_⟩
  · rw [chain, pushed.prev_erase erasedAt.mem (by omega), step]
  · rw [chain]
    exact (NodeList.designates_erase_of_lt (by omega)).mpr beforeAt

/-- An iterator is dangling after the removal exactly when its own node was removed. -/
theorem Removed.live_iff (h : Removed s s' i block replaced) {it k}
    (designates : s.cacheChain.Designates it k)
    : it ∈ s'.cacheChain.addrs ↔ k ≠ i := by
  obtain ⟨erased, chain, erasedAt, position⟩ := h.exists_erased
  have pushed := (NodeList.designates_pushFront block).mpr designates
  rw [chain]
  constructor
  · intro live same
    subst same
    rw [pushed.inj erasedAt] at live
    exact NodeList.not_mem_addrs_erase live
  · intro ne
    refine NodeList.mem_addrs_erase pushed.mem ?_
    intro same
    subst same
    have same := pushed.pos_eq
    omega

-----------------------------------------------------------------------------------------
-- Whole insertions
-----------------------------------------------------------------------------------------

/-- The removal and the slides of both boundaries are one push; witness: the boundaries step back
onto their own indices, since the removed node is not in front of them.
-/
theorem Removed.pushed [LinearOrder Count] [One Count]
    {c : FrequencyCache cfg BlockID (Payload Buf) Count} {slid : CacheManager Count Buf}
    {fileId blockNumber : ℤ} {buff : Option Buf} {path : Option Path}
    (removed
      : Removed s s' (removedIndex cfg c.entries) (.new fileId blockNumber buff path)
          (victim cfg c.entries))
    (absent : (fileId, blockNumber) ∉ c.keys) (nodes : SameNodes s' slid)
    (entries : slid.entries = s'.entries)
    (labels
      : slid.labels = (s'.labels.set cfg.newSize .middleSection).set cfg.oldStart .oldSection)
    (middle : ∃ it, slid.middleSectionIter = some it ∧ s'.cacheChain.Designates it cfg.newSize)
    (old : ∃ it, slid.oldSectionIter = some it ∧ s'.cacheChain.Designates it cfg.oldStart)
    : Pushed cfg s slid c (removedIndex cfg c.entries)
        ⟨(fileId, blockNumber), ⟨buff, path.getD []⟩, 1⟩ := by
  have bounds := removedIndex_bounds c
  have ownKey : (CacheBlock.new fileId blockNumber buff path : CacheBlock Count Buf).entry
      = ⟨(fileId, blockNumber), ⟨buff, path.getD []⟩, 1⟩ := rfl
  have fresh : victim cfg c.entries ≠ some (fileId, blockNumber) := by
    intro same
    rw [victim_eq] at same
    obtain ⟨entry, here, key⟩ := Option.map_eq_some_iff.mp same
    exact absent (key ▸ List.mem_map_of_mem (List.mem_of_getElem? here))
  obtain ⟨middle, middleIter, middleAt⟩ := middle
  obtain ⟨old, oldIter, oldAt⟩ := old
  refine ⟨nodes.numberOfBlocks.trans removed.numberOfBlocks, ?_, ?_, ?_,
    ⟨middle, middleIter, nodes.designates.mpr middleAt⟩,
    ⟨old, oldIter, nodes.designates.mpr oldAt⟩, ?_, ?_, ?_⟩
  · rw [nodes.addrs, removed.addrs]
  · rw [entries, removed.entries, ownKey]
  · rw [labels, removed.labels, slideLabels]
    simp only [bounds.1, if_true]
    rfl
  · rw [nodes.blocksMap, removed.blocksMap]
    cases replaced : victim cfg c.entries with
    | none => exact Function.update_self ..
    | some key =>
        have ne : (fileId, blockNumber) ≠ key := fun same => fresh (same ▸ replaced)
        exact (Function.update_of_ne ne ..).trans (Function.update_self ..)
  · intro id own gone
    rw [← victim_eq] at gone
    rw [nodes.blocksMap, removed.blocksMap, gone]
    exact Function.update_self ..
  · intro id own survives
    rw [← victim_eq] at survives
    rw [nodes.blocksMap, removed.blocksMap]
    cases replaced : victim cfg c.entries with
    | none => exact Function.update_of_ne own ..
    | some key =>
        have ne : id ≠ key := fun same => survives (same ▸ replaced)
        exact (Function.update_of_ne ne ..).trans (Function.update_of_ne own ..)

/-- The insertion of an absent block succeeds and refines the abstract insertion, replacing
the same key.
-/
theorem insertBlock_spec [LinearOrder Count] [OrderTop Count] [One Count] [Add Count]
    {s : CacheManager Count Buf} {c : FrequencyCache cfg BlockID (Payload Buf) Count}
    (h : Represents cfg s c) {fileId blockNumber : ℤ} (absent : (fileId, blockNumber) ∉ c.keys)
    (real : blockNumber ≠ nullBlock) (buff : Option Buf) (path : Option Path)
    : ∃ s' c',
        s.insertBlock fileId blockNumber buff path = .ok s'
        ∧ c.insert (fileId, blockNumber) ⟨buff, path.getD []⟩
          = some (victim cfg c.entries, c')
        ∧ Represents cfg s' c' := by
  have order := cfg.newSize_le_oldStart
  have bounds := removedIndex_bounds c
  obtain ⟨s₁, removal, removed⟩ := insertAndRemove_spec h absent buff path
  obtain ⟨c', inserted, entries'⟩ :=
    FrequencyCache.insert_of_not_mem absent (⟨buff, path.getD []⟩ : Payload Buf)
  obtain ⟨middle, middleIter, middleAt⟩ := h.middle
  obtain ⟨old, oldIter, oldAt⟩ := h.old
  obtain ⟨beforeMiddle, stepMiddle, beforeMiddleAt⟩ := removed.prev middleAt (by omega)
  obtain ⟨beforeOld, stepOld, beforeOldAt⟩ := removed.prev oldAt (by omega)
  obtain ⟨s₂, slid₂, nodes₂, middle₂, old₂, entries₂, labels₂⟩ :=
    slideMiddle_spec (removed.middle.trans middleIter) stepMiddle beforeMiddleAt
  obtain ⟨s₃, slid₃, nodes₃, middle₃, old₃, entries₃, labels₃⟩ :=
    slideOld_spec (old₂.trans (removed.old.trans oldIter)) ((nodes₂.prev old).trans stepOld)
      (nodes₂.designates.mpr beforeOldAt)
  refine ⟨s₃, c', ?_, inserted, ?_⟩
  · simp only [CacheManager.insertBlock, removal, slid₂, slid₃, ok_bind]
  have pushed := removed.pushed absent (nodes₂.trans nodes₃) (entries₃.trans entries₂)
    (labels₃.trans (by rw [labels₂])) ⟨beforeMiddle, middle₃.trans middle₂, beforeMiddleAt⟩
    ⟨beforeOld, old₃, beforeOldAt⟩
  refine h.push pushed bounds.2 real ?_
  rw [eraseIdx_removedIndex]
  exact entries'

section Entries

variable [LinearOrder Count] [OrderTop Count] [One Count] [Add Count]
  {c : FrequencyCache cfg BlockID (Payload Buf) Count} {fileId blockNumber : ℤ}

/-- The entries after an insertion are the new one and the survivors. -/
theorem insertBlock_entries (h : Represents cfg s c) (absent : (fileId, blockNumber) ∉ c.keys)
    (real : blockNumber ≠ nullBlock) (buff : Option Buf) (path : Option Path)
    : ∃ s' c',
        s.insertBlock fileId blockNumber buff path = .ok s'
        ∧ Represents cfg s' c'
        ∧ c'.entries
          = ⟨(fileId, blockNumber), ⟨buff, path.getD []⟩, 1⟩ :: survivors cfg c.entries := by
  obtain ⟨s', c', inserted, abstract, represents⟩ := insertBlock_spec h absent real buff path
  obtain ⟨c'', abstract', entries⟩ :=
    FrequencyCache.insert_of_not_mem absent (⟨buff, path.getD []⟩ : Payload Buf)
  obtain rfl := (Prod.mk.inj (Option.some.inj (abstract.symm.trans abstract'))).2
  exact ⟨s', c', inserted, represents, entries⟩

/-- So they are after any insertion that returns: it found the block absent. -/
theorem Represents.inserted (h : Represents cfg s c) (real : blockNumber ≠ nullBlock)
    {buff : Option Buf} {path : Option Path}
    (insertion : s.insertBlock fileId blockNumber buff path = .ok s')
    : ∃ c',
        Represents cfg s' c'
        ∧ c'.entries
          = ⟨(fileId, blockNumber), ⟨buff, path.getD []⟩, 1⟩ :: survivors cfg c.entries := by
  rcases Classical.em ((fileId, blockNumber) ∈ c.keys) with present | absent
  · cases insertion.symm.trans (insertBlock_of_mem h present buff path)
  · obtain ⟨again, c', inserted, represents, entries⟩ :=
      insertBlock_entries h absent real buff path
    cases insertion.symm.trans inserted
    exact ⟨c', represents, entries⟩

end Entries

end CachingFileSystem.BufferCache
