import CachingFileSystem.ReplacementPolicy.FrequencyCache
import CachingFileSystem.ReplacementPolicy.RecencyOrder
import Mathlib.Logic.Function.Iterate
import Mathlib.Data.List.InsertIdx

/-! Frequency-based replacement seen from the access history. The first places of the cache
follow the recency order, so being counted and being kept depend on reuse distances only.
-/

namespace CachingFileSystem.ReplacementPolicy

open CachingFileSystem.Containers

/-- A key is touched by a hit on it and by its insertion. -/
inductive Touch (Key : Type) where
  | hit (key : Key)
  | insert (key : Key)

def Touch.key {Key : Type} : Touch Key → Key
  | .hit key => key
  | .insert key => key

variable {cfg : Sections} {Key Val Count : Type} [DecidableEq Key]

/-- The hits on `key` since its latest insertion whose reuse distance was at least `far`.
Histories are most recent first.
-/
def farHits (far : ℕ) (key : Key) : List (Touch Key) → ℕ
  | [] => 0
  | .insert other :: history => if other = key then 0 else farHits far key history
  | .hit other :: history =>
      if other = key ∧ far ≤ reuseDistance key (history.map Touch.key) then
        farHits far key history + 1
      else farHits far key history

/-- The cache is the one a touch history leads to: its keys follow the recency order and
have lost nothing of its first `oldStart + 1` places, and each count is one more than the
far hits since the key's insertion.
-/
structure Tracks [One Count] [Add Count] (c : FrequencyCache cfg Key Val Count)
    (history : List (Touch Key))
    : Prop where
  ordered : c.keys.Sublist (recencyOrder (history.map Touch.key))
  recent
    : c.keys.take (cfg.oldStart + 1)
      = (recencyOrder (history.map Touch.key)).take (cfg.oldStart + 1)
  counted
    : ∀ entry ∈ c.entries,
        entry.count = (· + 1)^[farHits cfg.newSize entry.key history] 1

/-- The empty cache has the empty history. -/
theorem tracks_empty [One Count] [Add Count]
    : Tracks (FrequencyCache.empty : FrequencyCache cfg Key Val Count) [] where
  ordered := by simp [FrequencyCache.empty, FrequencyCache.keys]
  recent := by simp [FrequencyCache.empty, FrequencyCache.keys, recencyOrder]
  counted := by simp [FrequencyCache.empty]

/-- Rewriting values touches nothing. -/
theorem Tracks.mapVals [One Count] [Add Count] {c : FrequencyCache cfg Key Val Count}
    {history : List (Touch Key)} (h : Tracks c history) (f : Key → Val → Val)
    : Tracks (c.mapVals f) history where
  ordered := by simpa only [FrequencyCache.keys_mapVals] using h.ordered
  recent := by simpa only [FrequencyCache.keys_mapVals] using h.recent
  counted := by
    intro entry member
    obtain ⟨old, oldMember, rfl⟩ := List.mem_map.mp member
    exact h.counted old oldMember

/-- A cached key has been touched. -/
theorem Tracks.touched [One Count] [Add Count] {c : FrequencyCache cfg Key Val Count}
    {history : List (Touch Key)} (h : Tracks c history) {key : Key} (present : key ∈ c.keys)
    : key ∈ history.map Touch.key :=
  mem_recencyOrder.mp (h.ordered.subset present)

/-- A cached key is behind the new section exactly when its reuse distance is at least
the size of that section; witness: both orders agree on a longer prefix.
-/
theorem Tracks.newSize_le_index_iff [One Count] [Add Count]
    {c : FrequencyCache cfg Key Val Count} {history : List (Touch Key)} (h : Tracks c history)
    {key : Key} (present : key ∈ c.keys)
    : cfg.newSize ≤ c.index key
      ↔ cfg.newSize ≤ reuseDistance key (history.map Touch.key) := by
  have within : cfg.newSize ≤ cfg.oldStart + 1 := Nat.le_succ_of_le cfg.newSize_le_oldStart
  rw [← idxOf_recencyOrder]
  exact le_idxOf_iff_of_take_eq h.recent within present (h.ordered.subset present)

/-- A touched key with at most `oldStart` distinct others touched since is still cached;
witness: its place in the common prefix of both orders.
-/
theorem Tracks.retains [One Count] [Add Count] {c : FrequencyCache cfg Key Val Count}
    {history : List (Touch Key)} (h : Tracks c history) {key : Key}
    (touched : key ∈ history.map Touch.key)
    (near : reuseDistance key (history.map Touch.key) ≤ cfg.oldStart)
    : key ∈ c.keys := by
  have known : key ∈ recencyOrder (history.map Touch.key) := mem_recencyOrder.mpr touched
  have early : key ∈ (recencyOrder (history.map Touch.key)).take (cfg.oldStart + 1) := by
    rw [List.mem_take_iff_idxOf_lt known, idxOf_recencyOrder]
    exact Nat.lt_succ_of_le near
  exact List.mem_of_mem_take (h.recent ▸ early)

/-- A replaced key has at least `oldStart` distinct others touched since. -/
theorem Tracks.oldStart_le_victim [LinearOrder Count] [One Count] [Add Count]
    {c : FrequencyCache cfg Key Val Count} {history : List (Touch Key)} (h : Tracks c history)
    {key : Key} (replaced : victim cfg c.entries = some key)
    : key ∈ c.keys
      ∧ cfg.oldStart ≤ reuseDistance key (history.map Touch.key) := by
  have full := FrequencyCache.full_of_victim replaced
  unfold victim at replaced
  rw [if_neg (Nat.not_lt.mpr full.ge)] at replaced
  obtain ⟨entry, here, rfl⟩ := Option.map_eq_some_iff.mp replaced
  have present : entry.key ∈ c.keys := List.mem_map_of_mem (List.mem_of_getElem? here)
  refine ⟨present, ?_⟩
  rw [← idxOf_recencyOrder,
    ← le_idxOf_iff_of_take_eq h.recent (Nat.le_succ _) present (h.ordered.subset present)]
  have index : c.keys.idxOf entry.key = victimIndex cfg c.entries :=
    FrequencyCache.index_eq here
  exact index ▸ (victimIndex_bounds full).1

-----------------------------------------------------------------------------------------
-- Every touch extends the history
-----------------------------------------------------------------------------------------

/-- A hit moves the key to the front of the cache's keys. -/
theorem keys_retrieve [One Count] [Add Count] {c : FrequencyCache cfg Key Val Count} {key : Key}
    (present : key ∈ c.keys)
    : (c.retrieve key).2.keys = key :: c.keys.erase key := by
  obtain ⟨entry, here, rfl⟩ := FrequencyCache.exists_entry present
  have moved := (FrequencyCache.retrieve_of_entry here).2
  simp only [FrequencyCache.keys, moved, List.map_cons, Entry.hitAt_key]
  rw [← List.eraseIdx_idxOf_eq_erase, ← List.eraseIdx_map]
  rfl

/-- Touching one key leaves the far hits of the others as they are. -/
theorem farHits_cons_of_ne {far : ℕ} {key : Key} {touch : Touch Key}
    (ne : touch.key ≠ key) (history : List (Touch Key))
    : farHits far key (touch :: history) = farHits far key history := by
  cases touch <;> simp_all [farHits, Touch.key]

/-- A hit extends the tracked history; witness: both orders move the key to the front,
and the hit is counted by its index exactly when it is far.
-/
theorem Tracks.hit [One Count] [Add Count] {c : FrequencyCache cfg Key Val Count}
    {history : List (Touch Key)} (h : Tracks c history) {key : Key} (present : key ∈ c.keys)
    : Tracks (c.retrieve key).2 (.hit key :: history) := by
  refine ⟨?_, ?_, ?_⟩
  · rw [keys_retrieve present]
    exact (h.ordered.erase key).cons_cons key
  · rw [keys_retrieve present]
    exact take_cons_erase_congr h.recent key
  · have far := h.newSize_le_index_iff present
    obtain ⟨entry, here, rfl⟩ := FrequencyCache.exists_entry present
    have old := h.counted entry (List.mem_of_getElem? here)
    rw [(FrequencyCache.retrieve_of_entry here).2]
    intro next member
    rcases List.mem_cons.mp member with rfl | later
    · simp only [Entry.hitAt_key, farHits, true_and, ← far]
      unfold Entry.hitAt
      split
      · simp only [old, Function.iterate_succ_apply']
      · exact old
    · have other : next.key ≠ entry.key := by
        intro same
        have erased : next.key ∈ c.keys.erase entry.key := by
          rw [← List.eraseIdx_idxOf_eq_erase]
          rw [FrequencyCache.keys, List.eraseIdx_map]
          exact List.mem_map_of_mem later
        exact (List.Nodup.mem_erase_iff c.distinct).mp erased |>.1 same
      rw [farHits_cons_of_ne (Ne.symm other)]
      exact h.counted next ((List.eraseIdx_sublist _ _).subset later)

/-- An insertion extends the tracked history; witness: replacement happens behind the
common prefix, and a fresh key has no far hits.
-/
theorem Tracks.insert [LinearOrder Count] [One Count] [Add Count]
    {c c' : FrequencyCache cfg Key Val Count} {history : List (Touch Key)}
    (h : Tracks c history) {key : Key} {val : Val} (absent : key ∉ c.keys)
    (inserted : c'.entries = ⟨key, val, 1⟩ :: survivors cfg c.entries)
    : Tracks c' (.insert key :: history) := by
  have kept : ((survivors cfg c.entries).map Entry.key).Sublist c.keys :=
    (survivors_sublist c.entries).map _
  have keys : c'.keys = key :: (survivors cfg c.entries).map Entry.key := by
    simp only [FrequencyCache.keys, inserted, List.map_cons]
  refine ⟨?_, ?_, ?_⟩
  · rw [keys]
    refine List.Sublist.cons_cons key ?_
    rw [← List.erase_of_not_mem (fun member => absent (kept.subset member))]
    exact (kept.trans h.ordered).erase key
  · have same : ((survivors cfg c.entries).map Entry.key).take cfg.oldStart
        = c.keys.take cfg.oldStart := by
      simpa only [FrequencyCache.keys, List.map_take]
        using congrArg (List.map Entry.key) (survivors_take c.bounded)
    have moved := take_cons_erase_congr h.recent key
    rw [List.erase_of_not_mem absent] at moved
    rw [keys, List.take_succ_cons, same, ← List.take_succ_cons]
    exact moved
  · rw [inserted]
    intro entry member
    rcases List.mem_cons.mp member with rfl | later
    · simp [farHits]
    · have other : (Touch.insert key).key ≠ entry.key := by
        intro same
        change key = entry.key at same
        exact absent (same ▸ kept.subset (List.mem_map_of_mem later))
      rw [farHits_cons_of_ne other]
      exact h.counted entry ((survivors_sublist _).subset later)

end CachingFileSystem.ReplacementPolicy
