import CachingFileSystem.BufferCache.Representation

/-! Lookups of the manager refine retrievals of the abstract cache. -/

namespace CachingFileSystem.BufferCache

open CachingFileSystem.Containers
open CachingFileSystem.ReplacementPolicy

variable {cfg : Sections} {Count Buf : Type}

theorem CacheManager.entries_getElem? (s : CacheManager Count Buf) {i : ℕ} {block}
    (here : s.cacheChain.vals[i]? = some block)
    : s.entries[i]? = some block.entry := by
  simp only [entries, List.getElem?_map, here, Option.map_some]

theorem CacheManager.labels_getElem? (s : CacheManager Count Buf) {i : ℕ} {block}
    (here : s.cacheChain.vals[i]? = some block)
    : s.labels[i]? = some block.sectionType := by
  simp only [labels, List.getElem?_map, here, Option.map_some]

/-- Entry and label at one index are those of one block. -/
theorem CacheManager.exists_block (s : CacheManager Count Buf) {i : ℕ} {entry label}
    (entryAt : s.entries[i]? = some entry) (labelAt : s.labels[i]? = some label)
    : ∃ block,
        s.cacheChain.vals[i]? = some block
        ∧ block.entry = entry
        ∧ block.sectionType = label := by
  simp only [entries, labels, List.getElem?_map, Option.map_eq_some_iff] at entryAt labelAt
  obtain ⟨block, here, rfl⟩ := entryAt
  obtain ⟨other, there, rfl⟩ := labelAt
  cases here.symm.trans there
  exact ⟨block, here, rfl, rfl⟩

theorem newSize_le_of_sectionAt {i : ℕ} (label : sectionAt cfg i ≠ .newSection)
    : cfg.newSize ≤ i := by
  by_contra near
  exact label (by simp [sectionAt, Nat.lt_of_not_le near])

/-- A represented entry is the block of some designated node, labelled with its section. -/
theorem Represents.block {s : CacheManager Count Buf}
    {c : FrequencyCache cfg BlockID (Payload Buf) Count} (h : Represents cfg s c)
    {i : ℕ} {entry} (here : c.entries[i]? = some entry)
    : ∃ it block,
        s.cacheChain.Designates it i
        ∧ s.cacheChain.vals[i]? = some block
        ∧ block.entry = entry
        ∧ block.sectionType = sectionAt cfg i := by
  have bound := (List.getElem?_eq_some_iff.mp here).1
  have room := c.bounded
  have inside : i < s.cacheChain.vals.length := by
    rw [h.length]
    omega
  obtain ⟨it, designates⟩ := NodeList.exists_designates inside
  obtain ⟨nulls, chain, _, _⟩ := h.chain
  have entryAt : s.entries[i]? = some entry := by
    rw [chain, List.getElem?_append_left bound, here]
  obtain ⟨block, at', same, label⟩ := s.exists_block entryAt (h.labelled i bound)
  exact ⟨it, block, designates, at', same, label⟩

-----------------------------------------------------------------------------------------
-- The stages of a hit
-----------------------------------------------------------------------------------------

/-- Counting rewrites the entry as the abstract hit does, and nothing else. -/
theorem countHit_spec [One Count] [Add Count] {s : CacheManager Count Buf} {it i block}
    (designates : s.cacheChain.Designates it i)
    (here : s.cacheChain.vals[i]? = some block)
    (label : block.sectionType = sectionAt cfg i)
    : ∃ s',
        s.countHit it = .ok s'
        ∧ SameNodes s s'
        ∧ s'.middleSectionIter = s.middleSectionIter
        ∧ s'.oldSectionIter = s.oldSectionIter
        ∧ s'.entries = s.entries.set i (block.entry.hitAt cfg i)
        ∧ s'.labels = s.labels := by
  simp only [CacheManager.countHit, designates.deref, here, demand_some, ok_bind, label]
  split
  · next counted =>
      have far := newSize_le_of_sectionAt counted
      obtain ⟨chain, modified, vals, addrs, next, stale⟩ :=
        designates.modify CacheBlock.incrementRefCount
      simp only [modified, demand_some, ok_bind]
      refine ⟨_, rfl, ⟨rfl, rfl, addrs, next, stale⟩, rfl, rfl, ?_, ?_⟩
      · simp only [CacheManager.entries, vals, map_modify_of_getElem? _ _ here]
        simp only [Entry.hitAt, far, if_true]
        rfl
      · simp only [CacheManager.labels, vals]
        apply map_modify_of_eq
        exact fun _ => rfl
  · next uncounted =>
      have near : ¬ cfg.newSize ≤ i := by
        intro far
        apply uncounted
        unfold sectionAt
        split
        · omega
        · split <;> exact fun same => by cases same
      refine ⟨s, rfl, .refl s, rfl, rfl, ?_, rfl⟩
      obtain ⟨inside, same⟩ := List.getElem?_eq_some_iff.mp (s.entries_getElem? here)
      simp only [Entry.hitAt, near, if_false, ← same, List.set_getElem_self]

/-- The labels after the boundaries in front of a hit at `i` were stepped back. -/
def correctLabels (cfg : Sections) (i : ℕ) (labels : List Section) : List Section :=
  if cfg.oldStart ≤ i then
    (labels.set (cfg.newSize - 1) .middleSection).set (cfg.oldStart - 1) .oldSection
  else if cfg.newSize ≤ i then labels.set (cfg.newSize - 1) .middleSection
  else labels

/-- The index of a boundary after a hit at `i` stepped it back, before the block is moved. -/
def correctBound (i bound : ℕ) : ℕ := if bound ≤ i then bound - 1 else bound

/-- A hit in the new section moves no boundary, one in the middle section moves the middle
boundary, and one in the old section both; neither ever steps before the front.
-/
theorem correctBounds_spec {s : CacheManager Count Buf} {it i block middle old}
    (designates : s.cacheChain.Designates it i)
    (here : s.cacheChain.vals[i]? = some block)
    (label : block.sectionType = sectionAt cfg i)
    (middleIter : s.middleSectionIter = some middle)
    (middleAt : s.cacheChain.Designates middle cfg.newSize)
    (oldIter : s.oldSectionIter = some old)
    (oldAt : s.cacheChain.Designates old cfg.oldStart)
    : ∃ s' middle' old',
        s.correctBounds it = .ok s'
        ∧ SameNodes s s'
        ∧ s'.middleSectionIter = some middle'
        ∧ s.cacheChain.Designates middle' (correctBound i cfg.newSize)
        ∧ s'.oldSectionIter = some old'
        ∧ s.cacheChain.Designates old' (correctBound i cfg.oldStart)
        ∧ s'.entries = s.entries
        ∧ s'.labels = correctLabels cfg i s.labels := by
  have order := cfg.newSize_le_oldStart
  have positive := cfg.newPositive
  obtain ⟨before, step, beforeAt⟩ :=
    (show s.cacheChain.Designates middle (cfg.newSize - 1 + 1) by
      rwa [Nat.sub_add_cancel positive]).prev
  obtain ⟨first, slid, nodes, firstMiddle, firstOld, entries, labels⟩ :=
    slideMiddle_spec middleIter step beforeAt
  simp only [CacheManager.correctBounds, designates.deref, here, demand_some, ok_bind, label]
  by_cases far : cfg.newSize ≤ i
  · by_cases farther : cfg.oldStart ≤ i
    · have section' : sectionAt cfg i = .oldSection := by
        simp [sectionAt, Nat.not_lt.mpr far, Nat.not_lt.mpr farther]
      obtain ⟨beforeOld, stepOld, beforeOldAt⟩ :=
        (show s.cacheChain.Designates old (cfg.oldStart - 1 + 1) by
          rwa [Nat.sub_add_cancel (positive.trans_le order)]).prev
      obtain ⟨second, slidOld, nodes', secondMiddle, secondOld, entries', labels'⟩ :=
        slideOld_spec (firstOld.trans oldIter) ((nodes.prev old).trans stepOld)
          (nodes.designates.mpr beforeOldAt)
      simp only [section', slid, slidOld, ok_bind]
      refine ⟨second, before, beforeOld, rfl, nodes.trans nodes', secondMiddle.trans firstMiddle,
        ?_, secondOld, ?_, entries'.trans entries, ?_⟩
      · simpa only [correctBound, far, if_true] using beforeAt
      · simpa only [correctBound, farther, if_true] using beforeOldAt
      · simp only [correctLabels, farther, if_true, labels', labels]
    · have section' : sectionAt cfg i = .middleSection := by
        simp [sectionAt, Nat.not_lt.mpr far, Nat.lt_of_not_le farther]
      simp only [section', slid]
      refine ⟨first, before, old, rfl, nodes, firstMiddle, ?_, firstOld.trans oldIter, ?_,
        entries, ?_⟩
      · simpa only [correctBound, far, if_true] using beforeAt
      · simpa only [correctBound, farther, if_false] using oldAt
      · simp only [correctLabels, far, farther, if_true, if_false, labels]
  · have farther : ¬ cfg.oldStart ≤ i := by omega
    have section' : sectionAt cfg i = .newSection := by
      simp [sectionAt, Nat.lt_of_not_le far]
    simp only [section']
    refine ⟨s, middle, old, rfl, .refl s, middleIter, ?_, oldIter, ?_, rfl, ?_⟩
    · simpa only [correctBound, far, if_false] using middleAt
    · simpa only [correctBound, farther, if_false] using oldAt
    · simp only [correctLabels, far, farther, if_false]

/-- Moving a block to the head pushes it with the new label and removes its old node; the
map designates the pushed node.
-/
theorem moveToHead_spec {s : CacheManager Count Buf} {it i block} (id : BlockID)
    (designates : s.cacheChain.Designates it i)
    (here : s.cacheChain.vals[i]? = some block)
    : ∃ s',
        s.moveToHead id it = .ok (s.cacheChain.next, s')
        ∧ s'.numberOfBlocks = s.numberOfBlocks
        ∧ s'.blocksMap = Function.update s.blocksMap id (some s.cacheChain.next)
        ∧ s'.middleSectionIter = s.middleSectionIter
        ∧ s'.oldSectionIter = s.oldSectionIter
        ∧ s'.cacheChain.addrs = s.cacheChain.next :: s.cacheChain.addrs.eraseIdx i
        ∧ s'.entries = block.entry :: s.entries.eraseIdx i
        ∧ s'.labels = .newSection :: s.labels.eraseIdx i := by
  have head : (s.cacheChain.pushFront block).Designates s.cacheChain.next 0 :=
    (NodeList.designates_pushFront_zero block).mpr rfl
  obtain ⟨chain, modified, vals, addrs, next, stale⟩ :=
    head.modify (CacheBlock.setSection .newSection)
  have position : chain.pos it = i + 1 := by
    have pushed := (NodeList.designates_pushFront block).mpr designates
    have same : chain.Designates it (i + 1) := by
      simpa only [NodeList.Designates, addrs] using pushed
    exact same.pos_eq
  have front : (s.cacheChain.pushFront block).begin? = some s.cacheChain.next := rfl
  simp only [CacheManager.moveToHead, designates.deref, here, front, modified, demand_some,
    ok_bind]
  refine ⟨_, rfl, rfl, rfl, rfl, rfl, ?_, ?_, ?_⟩
  · rw [NodeList.addrs_erase, position, addrs]
    rfl
  · simp only [CacheManager.entries, NodeList.vals_erase, position, vals, NodeList.vals_pushFront,
      List.modify_zero_cons, List.eraseIdx_cons_succ, List.map_cons, List.eraseIdx_map]
    rfl
  · simp only [CacheManager.labels, NodeList.vals_erase, position, vals, NodeList.vals_pushFront,
      List.modify_zero_cons, List.eraseIdx_cons_succ, List.map_cons, List.eraseIdx_map]
    rfl

-----------------------------------------------------------------------------------------
-- Whole lookups
-----------------------------------------------------------------------------------------

/-- Labels slid in front of a node are slid labels once that node was moved. -/
theorem correctLabels_eraseIdx (cfg : Sections) (i : ℕ) (labels : List Section)
    : .newSection :: (correctLabels cfg i labels).eraseIdx i = slideLabels cfg i labels := by
  have order := cfg.newSize_le_oldStart
  obtain ⟨a, first⟩ : ∃ a, cfg.newSize = a + 1 := ⟨cfg.newSize - 1, by
    have positive := cfg.newPositive
    omega⟩
  obtain ⟨b, second⟩ : ∃ b, cfg.oldStart = b + 1 := ⟨cfg.oldStart - 1, by omega⟩
  simp only [correctLabels, slideLabels, first, second, Nat.add_sub_cancel]
  split
  · next farther =>
      rw [List.eraseIdx_set_gt (by omega), List.eraseIdx_set_gt (by omega)]
      rfl
  · split
    · next far =>
        rw [List.eraseIdx_set_gt (by omega)]
        rfl
    · rfl

theorem correctBound_ne {i bound : ℕ} (positive : 0 < bound) : correctBound i bound ≠ i := by
  unfold correctBound
  split <;> omega

/-- Moving the block brings a corrected boundary back to its own index. -/
theorem shift_correctBound {i bound : ℕ} (positive : 0 < bound)
    : shift i (correctBound i bound) = bound := by
  unfold shift correctBound
  split <;> split <;> omega

/-- A miss changes nothing. -/
theorem findBlock_of_not_mem [One Count] [Add Count] {s : CacheManager Count Buf}
    {c : FrequencyCache cfg BlockID (Payload Buf) Count} (h : Represents cfg s c)
    {id : BlockID} (absent : id ∉ c.keys)
    : s.findBlock id = .ok (none, s) := by
  simp only [CacheManager.findBlock, h.not_mapped absent]

theorem retrieveBuffer_of_not_mem [One Count] [Add Count] {s : CacheManager Count Buf}
    {c : FrequencyCache cfg BlockID (Payload Buf) Count} (h : Represents cfg s c)
    {id : BlockID} (absent : id ∉ c.keys)
    : s.retrieveBuffer id = .ok (none, s) := by
  simp only [CacheManager.retrieveBuffer, findBlock_of_not_mem h absent, ok_bind]

/-- Before the hit block is moved it is counted and the boundaries in front of it are corrected;
by the two stages in turn.
-/
theorem Represents.corrected_spec [One Count] [Add Count] {s : CacheManager Count Buf}
    {c : FrequencyCache cfg BlockID (Payload Buf) Count} (h : Represents cfg s c)
    {it i block} (designates : s.cacheChain.Designates it i)
    (here : s.cacheChain.vals[i]? = some block) (label : block.sectionType = sectionAt cfg i)
    : ∃ counted corrected middle old,
        s.countHit it = .ok counted
        ∧ counted.correctBounds it = .ok corrected
        ∧ SameNodes s corrected
        ∧ corrected.middleSectionIter = some middle
        ∧ s.cacheChain.Designates middle (correctBound i cfg.newSize)
        ∧ corrected.oldSectionIter = some old
        ∧ s.cacheChain.Designates old (correctBound i cfg.oldStart)
        ∧ corrected.entries = s.entries.set i (block.entry.hitAt cfg i)
        ∧ corrected.labels = correctLabels cfg i s.labels := by
  obtain ⟨middle, middleIter, middleAt⟩ := h.middle
  obtain ⟨old, oldIter, oldAt⟩ := h.old
  obtain ⟨s₁, counted, nodes₁, middle₁, old₁, entries₁, labels₁⟩ :=
    countHit_spec designates here label
  have inside : i < s.entries.length := by simpa [CacheManager.entries] using designates.lt
  obtain ⟨block₁, at₁, entry₁, label₁⟩ := s₁.exists_block
    (by rw [entries₁, List.getElem?_set_self inside])
    (by rw [labels₁, s.labels_getElem? here, label])
  obtain ⟨s₂, middle', old', corrected, nodes₂, middle₂, middleAt₂, old₂, oldAt₂, entries₂,
      labels₂⟩ :=
    correctBounds_spec (nodes₁.designates.mpr designates) at₁ label₁
      (middle₁.trans middleIter) (nodes₁.designates.mpr middleAt)
      (old₁.trans oldIter) (nodes₁.designates.mpr oldAt)
  exact ⟨s₁, s₂, middle', old', counted, corrected, nodes₁.trans nodes₂, middle₂,
    nodes₁.designates.mp middleAt₂, old₂, nodes₁.designates.mp oldAt₂, entries₂.trans entries₁,
    labels₂.trans (by rw [labels₁])⟩

/-- A hit finds the block at the head of a chain that represents the abstract retrieval;
witness: the three stages compose to one push that removes the hit node.
-/
theorem findBlock_of_entry [One Count] [Add Count] {s : CacheManager Count Buf}
    {c : FrequencyCache cfg BlockID (Payload Buf) Count} (h : Represents cfg s c)
    {i : ℕ} {entry} (here : c.entries[i]? = some entry)
    : ∃ head s',
        s.findBlock entry.key = .ok (some head, s')
        ∧ Represents cfg s' (c.retrieve entry.key).2
        ∧ s'.cacheChain.Designates head 0 := by
  obtain ⟨it, block, designates, at', rfl, label⟩ := h.block here
  have found : s.blocksMap block.entry.key = some it :=
    (h.mapped _ _).mpr ⟨i, _, here, rfl, designates⟩
  obtain ⟨s₁, s₂, middle, old, counted, corrected, nodes, middleIter, middleAt, oldIter, oldAt,
      entries, labels⟩ :=
    h.corrected_spec designates at' label
  have inside : i < s.entries.length := by simpa [CacheManager.entries] using designates.lt
  have designates₂ := nodes.designates.mpr designates
  obtain ⟨block₂, at₂⟩ : ∃ block₂, s₂.cacheChain.vals[i]? = some block₂ :=
    ⟨_, List.getElem?_eq_getElem designates₂.lt⟩
  have entry₂ : block₂.entry = block.entry.hitAt cfg i := by
    have read := s₂.entries_getElem? at₂
    rw [entries, List.getElem?_set_self inside] at read
    exact (Option.some.inj read).symm
  obtain ⟨s₃, moved, number₃, map₃, middle₃, old₃, addrs₃, entries₃, labels₃⟩ :=
    moveToHead_spec block.entry.key designates₂ at₂
  have key : (c.entries[i]?).map Entry.key = some block.entry.key := by rw [here]; rfl
  have shifted {it' j} (ne : j ≠ i) (before : s.cacheChain.Designates it' j)
      : s₃.cacheChain.Designates it' (shift i j) := by
    simp only [NodeList.Designates, addrs₃, getElem?_shift _ _ ne]
    exact nodes.designates.mpr before
  have pushed : Pushed cfg s s₃ c i (block.entry.hitAt cfg i) := by
    refine ⟨number₃.trans nodes.numberOfBlocks, ?_, ?_, ?_, ?_, ?_, ?_, ?_, ?_⟩
    · rw [addrs₃, nodes.addrs, nodes.next]
    · rw [entries₃, entry₂, entries, List.eraseIdx_set_eq]
    · rw [labels₃, labels, correctLabels_eraseIdx]
    · refine ⟨middle, middle₃.trans middleIter, ?_⟩
      have after := shifted (correctBound_ne cfg.newPositive) middleAt
      rwa [shift_correctBound cfg.newPositive] at after
    · have positive := cfg.newPositive.trans_le cfg.newSize_le_oldStart
      refine ⟨old, old₃.trans oldIter, ?_⟩
      have after := shifted (correctBound_ne positive) oldAt
      rwa [shift_correctBound positive] at after
    · rw [map₃, Entry.hitAt_key, Function.update_self, nodes.next]
    · intro id own gone
      rw [Entry.hitAt_key] at own
      exact absurd (Option.some.inj (gone.symm.trans key)) own
    · intro id own _
      rw [Entry.hitAt_key] at own
      rw [map₃, Function.update_of_ne own, nodes.blocksMap]
  refine ⟨s.cacheChain.next, s₃, ?_, ?_, pushed.designates_zero.mpr rfl⟩
  · simp only [CacheManager.findBlock, found, counted, corrected, moved, ok_bind, nodes.next]
  · refine h.push pushed (h.length ▸ designates.lt) ?_ (FrequencyCache.retrieve_of_entry here).2
    rw [Entry.hitAt_key]
    exact h.real _ (List.mem_of_getElem? here)

/-- A lookup returns the abstract buffer and refines the abstract retrieval. -/
theorem retrieveBuffer_spec [One Count] [Add Count] {s : CacheManager Count Buf}
    {c : FrequencyCache cfg BlockID (Payload Buf) Count} (h : Represents cfg s c)
    (id : BlockID)
    : ∃ s',
        s.retrieveBuffer id = .ok ((c.retrieve id).1.bind Payload.buff, s')
        ∧ Represents cfg s' (c.retrieve id).2 := by
  by_cases present : id ∈ c.keys
  · obtain ⟨entry, here, rfl⟩ := FrequencyCache.exists_entry present
    obtain ⟨head, s', found, represents, designates⟩ := findBlock_of_entry h here
    obtain ⟨returned, moved⟩ := FrequencyCache.retrieve_of_entry here
    obtain ⟨it, block, headAt, at', entry', _⟩ :=
      represents.block (show (c.retrieve entry.key).2.entries[0]? = some _ by rw [moved]; rfl)
    have buffer : block.buff = entry.val.buff := by
      have same := congrArg (fun e => e.val.buff) entry'
      rwa [Entry.hitAt_val] at same
    refine ⟨s', ?_, represents⟩
    simp only [CacheManager.retrieveBuffer, found, ok_bind, designates.deref, at', demand_some,
      buffer, returned, Option.bind_some]
  · rw [FrequencyCache.retrieve_of_not_mem present]
    exact ⟨s, retrieveBuffer_of_not_mem h present, h⟩

end CachingFileSystem.BufferCache
