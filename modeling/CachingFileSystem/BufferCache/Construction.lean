import CachingFileSystem.BufferCache.Insertion
import Mathlib.Tactic.Linarith

/-! A newly constructed manager represents the empty cache, and the operations on whole
chains refine those on whole entry lists.
-/

namespace CachingFileSystem.BufferCache

open CachingFileSystem.Containers
open CachingFileSystem.ReplacementPolicy

variable {cfg : Sections} {Count Buf : Type}

-----------------------------------------------------------------------------------------
-- Section sizes from accepted arguments
-----------------------------------------------------------------------------------------

/-- Accepted arguments leave room for both sections; witness: the floors of two fractions
with sum at most one do not add up to more than the number of blocks.
-/
theorem CacheArgs.sizes (args : CacheArgs)
    : 1 ≤ newSectionSize args.numberOfBlocks args.fNew
      ∧ 1 ≤ oldSectionSize args.numberOfBlocks args.fOld
      ∧ newSectionSize args.numberOfBlocks args.fNew
          + oldSectionSize args.numberOfBlocks args.fOld
        ≤ args.numberOfBlocks := by
  obtain ⟨n, fOld, fNew, valid⟩ := args
  simp only [argsValidity, Bool.not_eq_true', Bool.or_eq_false_iff, decide_eq_false_iff_not,
    not_lt, not_le, ge_iff_le, gt_iff_lt] at valid
  obtain ⟨⟨⟨⟨⟨oldPositive, _⟩, newPositive⟩, _⟩, total⟩, positive⟩ := valid
  refine ⟨newPositive, oldPositive, ?_⟩
  have nonneg : (0 : ℚ) ≤ n := by exact_mod_cast positive.le
  have product : fNew * n + fOld * n ≤ n := by nlinarith
  calc ⌊fNew * n⌋ + ⌊fOld * n⌋ ≤ ⌊fNew * n + fOld * n⌋ := Int.le_floor_add _ _
    _ ≤ ⌊(n : ℚ)⌋ := Int.floor_le_floor product
    _ = n := Int.floor_intCast n

/-- The section sizes the constructor computes from accepted arguments. -/
def CacheArgs.sections (args : CacheArgs) : Sections where
  size := args.numberOfBlocks.toNat
  newSize := (newSectionSize args.numberOfBlocks args.fNew).toNat
  oldSize := (oldSectionSize args.numberOfBlocks args.fOld).toNat
  newPositive := by
    have sizes := args.sizes
    omega
  oldPositive := by
    have sizes := args.sizes
    omega
  fits := by
    have sizes := args.sizes
    omega

theorem CacheArgs.size_eq (args : CacheArgs) : (args.sections.size : ℤ) = args.numberOfBlocks := by
  have sizes := args.sizes
  simp only [sections]
  omega

theorem CacheArgs.newSize_eq (args : CacheArgs)
    : (args.sections.newSize : ℤ) = newSectionSize args.numberOfBlocks args.fNew := by
  have sizes := args.sizes
  simp only [sections]
  omega

theorem CacheArgs.oldSize_eq (args : CacheArgs)
    : (args.sections.oldSize : ℤ) = oldSectionSize args.numberOfBlocks args.fOld := by
  have sizes := args.sizes
  simp only [sections]
  omega

theorem CacheArgs.oldStart_eq (args : CacheArgs)
    : (args.sections.oldStart : ℤ)
      = args.numberOfBlocks - oldSectionSize args.numberOfBlocks args.fOld := by
  have fits := args.sections.fits
  have size := args.size_eq
  have old := args.oldSize_eq
  simp only [Sections.oldStart]
  omega

-----------------------------------------------------------------------------------------
-- The constructor
-----------------------------------------------------------------------------------------

/-- The part of the bounds loop that assigns one iterator. -/
def assignBound (target : ℤ) : List Iterator → ℤ → Option Iterator → Option Iterator
  | [], _, bound => bound
  | it :: rest, i, bound => assignBound target rest (i + 1) (if i = target then some it else bound)

theorem assignBounds_eq (middleAt oldAt : ℤ) (addrs : List Iterator) (i : ℤ)
    (bounds : Option Iterator × Option Iterator)
    : assignBounds middleAt oldAt addrs i bounds
      = (assignBound middleAt addrs i bounds.1, assignBound oldAt addrs i bounds.2) := by
  induction addrs generalizing i bounds with
  | nil => rfl
  | cons it rest ih =>
      obtain ⟨middle, old⟩ := bounds
      exact ih _ _

/-- Once its node is passed, an iterator is not assigned again. -/
theorem assignBound_past {target i : ℤ} (past : target < i) (addrs : List Iterator)
    (bound : Option Iterator)
    : assignBound target addrs i bound = bound := by
  induction addrs generalizing i bound with
  | nil => rfl
  | cons it rest ih =>
      have ne : ¬ i = target := by omega
      simp only [assignBound, ne, if_false]
      exact ih (by omega) bound

/-- The loop leaves the iterator at the node with the target number. -/
theorem assignBound_at {addrs : List Iterator} {k : ℕ} {it : Iterator}
    (here : addrs[k]? = some it) (i : ℤ) (bound : Option Iterator)
    : assignBound (i + k) addrs i bound = some it := by
  induction addrs generalizing k i bound with
  | nil => simp at here
  | cons head rest ih =>
      cases k with
      | zero =>
          obtain rfl : head = it := Option.some.inj here
          simp only [assignBound, Int.natCast_zero, Int.add_zero, if_true]
          exact assignBound_past (by omega) rest _
      | succ k =>
          have ne : ¬ i = i + (k + 1 : ℕ) := by omega
          have next := ih (k := k) here (i + 1) bound
          simp only [assignBound, ne, if_false]
          rwa [show i + (k + 1 : ℕ) = i + 1 + k by omega]

theorem vals_iterate_pushFront {α : Type} (val : α) (count : ℕ)
    : ((fun l : NodeList α => l.pushFront val)^[count] .empty).vals = List.replicate count val := by
  induction count with
  | zero => rfl
  | succ count ih =>
      rw [Function.iterate_succ_apply', NodeList.vals_pushFront, ih, List.replicate_succ]

/-- A new manager represents the empty cache. -/
theorem new_represents [One Count] (args : CacheArgs)
    : Represents args.sections
        (.new args.numberOfBlocks args.fOld args.fNew : CacheManager Count Buf) .empty := by
  have newSize := args.newSize_eq
  have oldStart := args.oldStart_eq
  have order := args.sections.newSize_le_oldStart
  have last := args.sections.oldStart_lt_size
  let chain := (fun l : NodeList (CacheBlock Count Buf) =>
    l.pushFront (.new (-1) (-1) none none))^[args.numberOfBlocks.toNat] .empty
  have vals : chain.vals = List.replicate args.sections.size (.new (-1) (-1) none none) :=
    vals_iterate_pushFront _ _
  have inside {k} (bound : k < args.sections.size) : k < chain.vals.length := by
    simpa only [vals, List.length_replicate] using bound
  obtain ⟨middle, middleAt⟩ := NodeList.exists_designates (inside (order.trans_lt last))
  obtain ⟨old, oldAt⟩ := NodeList.exists_designates (inside last)
  refine ⟨args.size_eq.symm, ?_, ?_, ?_, ⟨middle, ?_, middleAt⟩, ⟨old, ?_, oldAt⟩, ?_⟩
  · refine ⟨List.replicate args.sections.size
      (CacheBlock.entry (.new (-1) (-1) none none)), ?_, ?_, ?_⟩
    · change chain.vals.map CacheBlock.entry = _
      rw [vals, List.map_replicate]
      rfl
    · intro entry member
      rw [List.eq_of_mem_replicate member]
      rfl
    · simp [FrequencyCache.empty]
  · simp [FrequencyCache.empty]
  · simp [FrequencyCache.empty]
  · change (assignBounds _ _ chain.addrs 1 (none, none)).1 = some middle
    rw [assignBounds_eq, ← newSize, Int.add_comm]
    exact assignBound_at middleAt 1 none
  · change (assignBounds _ _ chain.addrs 1 (none, none)).2 = some old
    rw [assignBounds_eq]
    have target : newSectionSize args.numberOfBlocks args.fNew
        + (args.numberOfBlocks - newSectionSize args.numberOfBlocks args.fNew
          - oldSectionSize args.numberOfBlocks args.fOld) + 1
        = 1 + (args.sections.oldStart : ℤ) := by omega
    rw [target]
    exact assignBound_at oldAt 1 none
  · intro id it
    simp [CacheManager.new, FrequencyCache.empty]

-----------------------------------------------------------------------------------------
-- Renaming and printing
-----------------------------------------------------------------------------------------

/-- What `updatePaths` does to the payload stored under an id. -/
def renamePayload (pathPrefix newPathPrefix : Path) (id : BlockID) (payload : Payload Buf)
    : Payload Buf :=
  if id.1 = nullBlock then payload
  else { payload with path := renamePath pathPrefix newPathPrefix payload.path }

/-- Renaming maps over the paths of the abstract cache. -/
theorem updatePaths_represents {s : CacheManager Count Buf}
    {c : FrequencyCache cfg BlockID (Payload Buf) Count} (h : Represents cfg s c)
    (pathPrefix newPathPrefix : Path)
    : Represents cfg (s.updatePaths pathPrefix newPathPrefix)
        (c.mapVals (renamePayload pathPrefix newPathPrefix)) := by
  have entries : (s.updatePaths pathPrefix newPathPrefix).entries
      = s.entries.map (Entry.mapVal (renamePayload pathPrefix newPathPrefix)) := by
    simp only [CacheManager.entries, CacheManager.updatePaths, NodeList.vals_map, List.map_map]
    refine List.map_congr_left (fun block _ => ?_)
    simp only [Function.comp_apply, Entry.mapVal, renamePayload, CacheBlock.entry,
      CacheBlock.getBlockId]
    split
    · next marked => simp only [marked, if_true]
    · next unmarked => simp only [unmarked, if_false, CacheBlock.setPath]
  have labels : (s.updatePaths pathPrefix newPathPrefix).labels = s.labels := by
    simp only [CacheManager.labels, CacheManager.updatePaths, NodeList.vals_map, List.map_map]
    refine List.map_congr_left (fun block _ => ?_)
    simp only [Function.comp_apply]
    split <;> rfl
  have designates {it i} : (s.updatePaths pathPrefix newPathPrefix).cacheChain.Designates it i
      ↔ s.cacheChain.Designates it i := by
    simp only [NodeList.Designates, CacheManager.updatePaths, NodeList.addrs_map]
  refine ⟨h.size, ?_, ?_, ?_, ?_, ?_, ?_⟩
  · obtain ⟨nulls, chain, null, total⟩ := h.chain
    refine ⟨nulls.map (Entry.mapVal (renamePayload pathPrefix newPathPrefix)), ?_, ?_, ?_⟩
    · rw [entries, chain, List.map_append]
      rfl
    · intro entry member
      obtain ⟨old, oldMember, rfl⟩ := List.mem_map.mp member
      exact null old oldMember
    · simpa only [FrequencyCache.mapVals, List.length_map] using total
  · intro entry member
    obtain ⟨old, oldMember, rfl⟩ := List.mem_map.mp member
    exact h.real old oldMember
  · intro i bound
    rw [labels]
    exact h.labelled i (by simpa only [FrequencyCache.mapVals, List.length_map] using bound)
  · obtain ⟨it, middle, at'⟩ := h.middle
    exact ⟨it, middle, designates.mpr at'⟩
  · obtain ⟨it, old, at'⟩ := h.old
    exact ⟨it, old, designates.mpr at'⟩
  · intro id it
    refine (h.mapped id it).trans ⟨?_, ?_⟩
    · intro found
      rcases found with ⟨i, entry, here, same, at'⟩
      refine ⟨i, entry.mapVal (renamePayload pathPrefix newPathPrefix), ?_, same,
        designates.mpr at'⟩
      simp only [FrequencyCache.mapVals, List.getElem?_map, here, Option.map_some]
    · intro found
      rcases found with ⟨i, entry, here, same, at'⟩
      simp only [FrequencyCache.mapVals, List.getElem?_map, Option.map_eq_some_iff] at here
      obtain ⟨old, there, rfl⟩ := here
      exact ⟨i, old, there, same, designates.mp at'⟩

/-- The table of the abstract cache lists its entries from the last to the first. -/
def table [ToString Count] (c : FrequencyCache cfg BlockID (Payload Buf) Count) : List Char :=
  c.entries.reverse.flatMap (fun entry => tableRow entry.val.path entry.key.2 entry.count)

/-- The printed table is the abstract one; placeholders have no row. -/
theorem cacheToString_eq [ToString Count] {s : CacheManager Count Buf}
    {c : FrequencyCache cfg BlockID (Payload Buf) Count} (h : Represents cfg s c)
    : s.cacheToString = table c := by
  obtain ⟨nulls, chain, null, _⟩ := h.chain
  have rows : s.cacheToString
      = s.entries.reverse.flatMap (fun entry =>
          if entry.key.2 ≠ nullBlock then tableRow entry.val.path entry.key.2 entry.count
          else []) := by
    simp only [CacheManager.cacheToString, CacheManager.entries, ← List.map_reverse,
      List.flatMap_map]
    rfl
  have silent : nulls.reverse.flatMap (fun entry =>
      if entry.key.2 ≠ nullBlock then tableRow entry.val.path entry.key.2 entry.count else [])
      = [] := by
    refine List.flatMap_eq_nil_iff.mpr (fun entry member => ?_)
    rw [null entry (List.mem_reverse.mp member)]
    rfl
  rw [rows, chain, List.reverse_append, List.flatMap_append, silent, List.nil_append]
  refine List.flatMap_congr (fun entry member => ?_)
  simp only [ne_eq, h.real entry (List.mem_reverse.mp member), not_false_eq_true, if_true]

end CachingFileSystem.BufferCache
