import CachingFileSystem.BufferCache.CacheManager
import CachingFileSystem.ReplacementPolicy.FrequencyCache

/-! The abstract cache a manager stands for. Entries and section labels are read off the
chain separately, since sliding a boundary changes labels only.
-/

namespace CachingFileSystem.BufferCache

open CachingFileSystem.Containers
open CachingFileSystem.ReplacementPolicy

/-- What replacement keeps with an id but never looks at. -/
structure Payload (Buf : Type) where
  buff : Option Buf
  path : Path

variable {cfg : Sections} {Count Buf : Type}

def CacheBlock.entry (block : CacheBlock Count Buf) : Entry BlockID (Payload Buf) Count :=
  ⟨block.getBlockId, ⟨block.buff, block.path⟩, block.refCount⟩

/-- The entries of all blocks in the chain, placeholders included. -/
def CacheManager.entries (s : CacheManager Count Buf)
    : List (Entry BlockID (Payload Buf) Count) :=
  s.cacheChain.vals.map CacheBlock.entry

def CacheManager.labels (s : CacheManager Count Buf) : List Section :=
  s.cacheChain.vals.map CacheBlock.sectionType

/-- The section of an index, counted from the front of the chain. -/
def sectionAt (cfg : Sections) (i : ℕ) : Section :=
  if i < cfg.newSize then .newSection
  else if i < cfg.oldStart then .middleSection
  else .oldSection

/-- The chain holds the abstract entries in order and placeholders behind them, each entry
carries the label of its index, both iterators designate the first node of their section,
and the map designates every entry by its own key and nothing else.
-/
structure Represents (cfg : Sections) (s : CacheManager Count Buf)
    (c : FrequencyCache cfg BlockID (Payload Buf) Count)
    : Prop where
  size : s.numberOfBlocks = cfg.size
  chain
    : ∃ nulls,
        s.entries = c.entries ++ nulls
        ∧ (∀ entry ∈ nulls, entry.key = (nullBlock, nullBlock))
        ∧ c.entries.length + nulls.length = cfg.size
  real : ∀ entry ∈ c.entries, entry.key.2 ≠ nullBlock
  labelled : ∀ i < c.entries.length, s.labels[i]? = some (sectionAt cfg i)
  middle
    : ∃ it, s.middleSectionIter = some it ∧ s.cacheChain.Designates it cfg.newSize
  old : ∃ it, s.oldSectionIter = some it ∧ s.cacheChain.Designates it cfg.oldStart
  mapped
    : ∀ id it,
        s.blocksMap id = some it
        ↔ ∃ i entry,
            c.entries[i]? = some entry ∧ entry.key = id ∧ s.cacheChain.Designates it i

/-- The chain has as many nodes as the cache has places. -/
theorem Represents.length {s : CacheManager Count Buf}
    {c : FrequencyCache cfg BlockID (Payload Buf) Count} (h : Represents cfg s c)
    : s.cacheChain.vals.length = cfg.size := by
  obtain ⟨nulls, chain, _, total⟩ := h.chain
  have lengths := congrArg List.length chain
  simp only [CacheManager.entries, List.length_map, List.length_append] at lengths
  omega

/-- An id is in the map exactly when the abstract cache has it. -/
theorem Represents.mapped_iff {s : CacheManager Count Buf}
    {c : FrequencyCache cfg BlockID (Payload Buf) Count} (h : Represents cfg s c)
    (id : BlockID)
    : (∃ it, s.blocksMap id = some it) ↔ id ∈ c.keys := by
  constructor
  · intro mapped
    rcases mapped with ⟨it, found⟩
    obtain ⟨i, entry, here, rfl, _⟩ := (h.mapped id it).mp found
    exact List.mem_map_of_mem (List.mem_of_getElem? here)
  · intro member
    obtain ⟨entry, here, same⟩ := FrequencyCache.exists_entry member
    have bound := (List.getElem?_eq_some_iff.mp here).1
    have fits : c.index id < s.cacheChain.vals.length := by
      have room := c.bounded
      rw [h.length]
      omega
    obtain ⟨it, designates⟩ := NodeList.exists_designates fits
    exact ⟨it, (h.mapped id it).mpr ⟨_, entry, here, same, designates⟩⟩

theorem Represents.not_mapped {s : CacheManager Count Buf}
    {c : FrequencyCache cfg BlockID (Payload Buf) Count} (h : Represents cfg s c)
    {id : BlockID} (absent : id ∉ c.keys)
    : s.blocksMap id = none := by
  by_contra present
  obtain ⟨it, found⟩ := Option.ne_none_iff_exists'.mp present
  exact absent ((h.mapped_iff id).mp ⟨it, found⟩)

theorem Represents.not_mem {s : CacheManager Count Buf}
    {c : FrequencyCache cfg BlockID (Payload Buf) Count} (h : Represents cfg s c)
    {id : BlockID} (absent : s.blocksMap id = none)
    : id ∉ c.keys := by
  intro present
  obtain ⟨it, found⟩ := (h.mapped_iff id).mpr present
  cases absent.symm.trans found

-----------------------------------------------------------------------------------------
-- Sliding a section boundary
-----------------------------------------------------------------------------------------

/-- Both managers have the same nodes at the same addresses; the blocks may differ. -/
structure SameNodes (s s' : CacheManager Count Buf) : Prop where
  numberOfBlocks : s'.numberOfBlocks = s.numberOfBlocks
  blocksMap : s'.blocksMap = s.blocksMap
  addrs : s'.cacheChain.addrs = s.cacheChain.addrs
  next : s'.cacheChain.next = s.cacheChain.next
  stale : s'.cacheChain.stale = s.cacheChain.stale

theorem SameNodes.refl (s : CacheManager Count Buf) : SameNodes s s :=
  ⟨rfl, rfl, rfl, rfl, rfl⟩

theorem SameNodes.trans {s s' s'' : CacheManager Count Buf} (first : SameNodes s s')
    (second : SameNodes s' s'')
    : SameNodes s s'' where
  numberOfBlocks := second.numberOfBlocks.trans first.numberOfBlocks
  blocksMap := second.blocksMap.trans first.blocksMap
  addrs := second.addrs.trans first.addrs
  next := second.next.trans first.next
  stale := second.stale.trans first.stale

theorem SameNodes.designates {s s' : CacheManager Count Buf} (h : SameNodes s s') {it i}
    : s'.cacheChain.Designates it i ↔ s.cacheChain.Designates it i := by
  simp only [NodeList.Designates, h.addrs]

theorem SameNodes.prev {s s' : CacheManager Count Buf} (h : SameNodes s s') (it : Iterator)
    : s'.cacheChain.prev? it = s.cacheChain.prev? it := by
  simp only [NodeList.prev?, NodeList.pos, h.addrs, h.stale]

/-- Setting the section of a designated node succeeds and relabels its index. -/
theorem setSection_spec {s : CacheManager Count Buf} {it k}
    (designates : s.cacheChain.Designates it k) (label : Section)
    : ∃ chain,
        s.cacheChain.modify? it (.setSection label) = some chain
        ∧ chain.addrs = s.cacheChain.addrs
        ∧ chain.next = s.cacheChain.next
        ∧ chain.stale = s.cacheChain.stale
        ∧ chain.vals.map CacheBlock.entry = s.entries
        ∧ chain.vals.map CacheBlock.sectionType = s.labels.set k label := by
  obtain ⟨chain, modified, vals, addrs, next, stale⟩ :=
    designates.modify (CacheBlock.setSection label)
  refine ⟨chain, modified, addrs, next, stale, ?_, ?_⟩
  · rw [vals]
    apply map_modify_of_eq
    exact fun _ => rfl
  · rw [vals]
    exact map_modify_of_getElem? _ _ (List.getElem?_eq_getElem designates.lt)

/-- Stepping the middle boundary back onto index `k` labels that index middle. -/
theorem slideMiddle_spec {s : CacheManager Count Buf} {it before k}
    (middle : s.middleSectionIter = some it) (step : s.cacheChain.prev? it = some before)
    (designates : s.cacheChain.Designates before k)
    : ∃ s',
        s.slideMiddle = .ok s'
        ∧ SameNodes s s'
        ∧ s'.middleSectionIter = some before
        ∧ s'.oldSectionIter = s.oldSectionIter
        ∧ s'.entries = s.entries
        ∧ s'.labels = s.labels.set k .middleSection := by
  obtain ⟨chain, modified, addrs, next, stale, entries, labels⟩ :=
    setSection_spec designates .middleSection
  simp only [CacheManager.slideMiddle, middle, step, modified, demand_some, ok_bind]
  exact ⟨_, rfl, ⟨rfl, rfl, addrs, next, stale⟩, rfl, rfl, entries, labels⟩

/-- Stepping the old boundary back onto index `k` labels that index old. -/
theorem slideOld_spec {s : CacheManager Count Buf} {it before k}
    (old : s.oldSectionIter = some it) (step : s.cacheChain.prev? it = some before)
    (designates : s.cacheChain.Designates before k)
    : ∃ s',
        s.slideOld = .ok s'
        ∧ SameNodes s s'
        ∧ s'.middleSectionIter = s.middleSectionIter
        ∧ s'.oldSectionIter = some before
        ∧ s'.entries = s.entries
        ∧ s'.labels = s.labels.set k .oldSection := by
  obtain ⟨chain, modified, addrs, next, stale, entries, labels⟩ :=
    setSection_spec designates .oldSection
  simp only [CacheManager.slideOld, old, step, modified, demand_some, ok_bind]
  exact ⟨_, rfl, ⟨rfl, rfl, addrs, next, stale⟩, rfl, rfl, entries, labels⟩

-----------------------------------------------------------------------------------------
-- Pushing in front while removing one node
-----------------------------------------------------------------------------------------

/-- Where index `j` goes when the element at `i` is removed and one is pushed in front. -/
def shift (i j : ℕ) : ℕ := if j < i then j + 1 else j

theorem getElem?_shift {α : Type} (x : α) (l : List α) {i j : ℕ} (ne : j ≠ i)
    : (x :: l.eraseIdx i)[shift i j]? = l[j]? := by
  unfold shift
  split
  · next before => simp [List.getElem?_eraseIdx, before]
  · next behind =>
      obtain ⟨k, rfl⟩ : ∃ k, j = k + 1 := ⟨j - 1, by omega⟩
      simp [List.getElem?_eraseIdx, show ¬ k < i by omega]

/-- Every index behind the front comes from one that was not removed. -/
theorem exists_shift (i k : ℕ) : k = 0 ∨ ∃ j, j ≠ i ∧ shift i j = k := by
  by_cases front : k = 0
  · exact Or.inl front
  · refine Or.inr ⟨if k ≤ i then k - 1 else k, ?_, ?_⟩
    · split <;> omega
    · unfold shift
      split <;> split <;> omega

/-- The labels after a push that removes index `i` and slides the boundaries not behind it. -/
def slideLabels (cfg : Sections) (i : ℕ) (labels : List Section) : List Section :=
  let pushed := Section.newSection :: labels.eraseIdx i
  if cfg.oldStart ≤ i then
    (pushed.set cfg.newSize .middleSection).set cfg.oldStart .oldSection
  else if cfg.newSize ≤ i then pushed.set cfg.newSize .middleSection
  else pushed

/-- Correct labels are correct again after the push: a label changes only where a boundary
slides onto it, which is exactly where the index changes its section.
-/
theorem slideLabels_front (cfg : Sections) (i : ℕ) (labels : List Section)
    : (slideLabels cfg i labels)[0]? = some (sectionAt cfg 0) := by
  have positive := cfg.newPositive
  have order := cfg.newSize_le_oldStart
  have label : sectionAt cfg 0 = .newSection := by simp [sectionAt, positive]
  unfold slideLabels
  split
  · rw [List.getElem?_set_ne (by omega), List.getElem?_set_ne (by omega), label]
    rfl
  · split
    · rw [List.getElem?_set_ne (by omega), label]
      rfl
    · rw [label]
      rfl

theorem slideLabels_shift {cfg : Sections} {i j : ℕ} {labels : List Section} (ne : j ≠ i)
    (here : labels[j]? = some (sectionAt cfg j))
    : (slideLabels cfg i labels)[shift i j]? = some (sectionAt cfg (shift i j)) := by
  have order := cfg.newSize_le_oldStart
  have positive := cfg.newPositive
  have pushed : (Section.newSection :: labels.eraseIdx i)[shift i j]?
      = some (sectionAt cfg j) := by
    rw [getElem?_shift _ _ ne, here]
  have inside := (List.getElem?_eq_some_iff.mp pushed).1
  unfold slideLabels
  simp only [sectionAt] at pushed ⊢
  unfold shift at pushed inside ⊢
  grind

/-- A front index is never the image of a kept one. -/
theorem shift_ne_zero {i j : ℕ} (ne : j ≠ i) : shift i j ≠ 0 := by
  unfold shift
  split <;> omega

/-- `s'` pushes a node for `entry` in front of the chain of `s` and removes the node at
index `i`, in the chain, the labels and the map alike.
-/
structure Pushed (cfg : Sections) (s s' : CacheManager Count Buf)
    (c : FrequencyCache cfg BlockID (Payload Buf) Count) (i : ℕ)
    (entry : Entry BlockID (Payload Buf) Count)
    : Prop where
  numberOfBlocks : s'.numberOfBlocks = s.numberOfBlocks
  addrs : s'.cacheChain.addrs = s.cacheChain.next :: s.cacheChain.addrs.eraseIdx i
  entries : s'.entries = entry :: s.entries.eraseIdx i
  labels : s'.labels = slideLabels cfg i s.labels
  middle : ∃ it, s'.middleSectionIter = some it ∧ s'.cacheChain.Designates it cfg.newSize
  old : ∃ it, s'.oldSectionIter = some it ∧ s'.cacheChain.Designates it cfg.oldStart
  entered : s'.blocksMap entry.key = some s.cacheChain.next
  removed
    : ∀ id ≠ entry.key,
        (c.entries[i]?).map Entry.key = some id → s'.blocksMap id = none
  kept
    : ∀ id ≠ entry.key,
        (c.entries[i]?).map Entry.key ≠ some id → s'.blocksMap id = s.blocksMap id

/-- Nodes that were not removed are found at their shifted index. -/
theorem Pushed.designates_shift {s s' : CacheManager Count Buf}
    {c : FrequencyCache cfg BlockID (Payload Buf) Count} {i entry}
    (h : Pushed cfg s s' c i entry) {it j} (ne : j ≠ i)
    : s'.cacheChain.Designates it (shift i j) ↔ s.cacheChain.Designates it j := by
  simp only [NodeList.Designates, h.addrs, getElem?_shift _ _ ne]

theorem Pushed.designates_zero {s s' : CacheManager Count Buf}
    {c : FrequencyCache cfg BlockID (Payload Buf) Count} {i entry}
    (h : Pushed cfg s s' c i entry) {it}
    : s'.cacheChain.Designates it 0 ↔ it = s.cacheChain.next := by
  simp only [NodeList.Designates, h.addrs, List.getElem?_cons_zero, Option.some.injEq,
    eq_comm]

/-- The entries after a push are in order, with the placeholders that are left behind them; by
whether an entry or a placeholder was removed.
-/
theorem Represents.push_chain {s s' : CacheManager Count Buf}
    {c c' : FrequencyCache cfg BlockID (Payload Buf) Count} {i entry}
    (h : Represents cfg s c) (pushed : Pushed cfg s s' c i entry) (inside : i < cfg.size)
    (entries : c'.entries = entry :: c.entries.eraseIdx i)
    : ∃ nulls,
        s'.entries = c'.entries ++ nulls
        ∧ (∀ entry ∈ nulls, entry.key = (nullBlock, nullBlock))
        ∧ c'.entries.length + nulls.length = cfg.size := by
  have room := c'.bounded
  obtain ⟨nulls, chain, null, total⟩ := h.chain
  rw [pushed.entries, chain, entries]
  by_cases early : i < c.entries.length
  · refine ⟨nulls, ?_, null, ?_⟩
    · rw [List.eraseIdx_append_of_lt_length early, List.cons_append]
    · rw [List.length_cons, List.length_eraseIdx_of_lt early]
      omega
  · refine ⟨nulls.eraseIdx (i - c.entries.length), ?_, ?_, ?_⟩
    · rw [List.eraseIdx_append_of_length_le (Nat.not_lt.mp early),
        List.eraseIdx_of_length_le (Nat.not_lt.mp early), List.cons_append]
    · exact fun e member => null e ((List.eraseIdx_sublist _ _).subset member)
    · rw [List.eraseIdx_of_length_le (Nat.not_lt.mp early), List.length_cons,
        List.length_eraseIdx_of_lt (by omega)]
      omega

/-- The map after a push designates the entries at their shifted indices. -/
theorem Represents.push_mapped {s s' : CacheManager Count Buf}
    {c c' : FrequencyCache cfg BlockID (Payload Buf) Count} {i entry}
    (h : Represents cfg s c) (pushed : Pushed cfg s s' c i entry)
    (entries : c'.entries = entry :: c.entries.eraseIdx i) (id : BlockID) (it : ℕ)
    : s'.blocksMap id = some it
      ↔ ∃ i entry,
          c'.entries[i]? = some entry ∧ entry.key = id ∧ s'.cacheChain.Designates it i := by
  constructor
  · intro found
    by_cases own : id = entry.key
    · subst own
      have same := Option.some.inj (found.symm.trans pushed.entered)
      exact ⟨0, entry, by rw [entries]; rfl, rfl, pushed.designates_zero.mpr same⟩
    · have present : (c.entries[i]?).map Entry.key ≠ some id := by
        intro gone
        rw [pushed.removed id own gone] at found
        cases found
      rw [pushed.kept id own present] at found
      obtain ⟨j, e, here, rfl, designates⟩ := (h.mapped id it).mp found
      have ne : j ≠ i := by
        intro same
        subst same
        exact present (by rw [here]; rfl)
      exact ⟨shift i j, e, by rw [entries, getElem?_shift _ _ ne, here], rfl,
        (pushed.designates_shift ne).mpr designates⟩
  · intro placed
    rcases placed with ⟨k, e, here, rfl, designates⟩
    have index := FrequencyCache.index_eq here
    rcases exists_shift i k with rfl | ⟨j, ne, rfl⟩
    · rw [entries] at here
      cases here
      rw [pushed.designates_zero.mp designates]
      exact pushed.entered
    · have own : e.key ≠ entry.key := by
        intro same
        have front : c'.entries[0]? = some entry := by rw [entries]; rfl
        exact shift_ne_zero ne
          (index.symm.trans (same ▸ FrequencyCache.index_eq front))
      rw [entries, getElem?_shift _ _ ne] at here
      have present : (c.entries[i]?).map Entry.key ≠ some e.key := by
        intro gone
        obtain ⟨other, otherHere, same⟩ := Option.map_eq_some_iff.mp gone
        exact ne ((FrequencyCache.index_eq here).symm.trans
          (same ▸ FrequencyCache.index_eq otherHere))
      rw [pushed.kept e.key own present]
      exact (h.mapped e.key it).mpr
        ⟨j, e, here, rfl, (pushed.designates_shift ne).mp designates⟩

/-- Pushing an entry and removing one node of the chain represents the abstract cache that
does the same to its entries; witness: indices, labels and map entries all shift alike.
-/
theorem Represents.push {s s' : CacheManager Count Buf}
    {c c' : FrequencyCache cfg BlockID (Payload Buf) Count} {i entry}
    (h : Represents cfg s c) (pushed : Pushed cfg s s' c i entry)
    (inside : i < cfg.size) (real : entry.key.2 ≠ nullBlock)
    (entries : c'.entries = entry :: c.entries.eraseIdx i)
    : Represents cfg s' c' where
  size := pushed.numberOfBlocks.trans h.size
  chain := h.push_chain pushed inside entries
  real := by
    rw [entries]
    intro e member
    rcases List.mem_cons.mp member with rfl | later
    · exact real
    · exact h.real e ((List.eraseIdx_sublist _ _).subset later)
  labelled := by
    intro k bound
    rw [pushed.labels]
    rcases exists_shift i k with rfl | ⟨j, ne, rfl⟩
    · exact slideLabels_front cfg i _
    · refine slideLabels_shift ne (h.labelled j ?_)
      have read := getElem?_shift entry c.entries ne
      rw [← entries, List.getElem?_eq_getElem bound] at read
      exact (List.getElem?_eq_some_iff.mp read.symm).1
  middle := pushed.middle
  old := pushed.old
  mapped := h.push_mapped pushed entries

end CachingFileSystem.BufferCache
