import CachingFileSystem.ReplacementPolicy.FrequencyCache
import Mathlib.Algebra.Group.Nat.Defs

/-! Counts of a bounded type in the place of natural numbers. Up to the bound, the cache has the
same entries in the same order and replaces the same ones.
-/

namespace CachingFileSystem.ReplacementPolicy

open CachingFileSystem.Containers

/-- Counting from one, up to `bound` times, makes the count larger every time. -/
def CountsTo (Count : Type) [LinearOrder Count] [One Count] [Add Count] (bound : ℕ) : Prop :=
  ∀ fewer more,
    fewer < more → more ≤ bound → (· + 1)^[fewer] (1 : Count) < (· + 1)^[more] (1 : Count)

/-- The count of a positive number. -/
def counted (Count : Type) [One Count] [Add Count] (number : ℕ) : Count :=
  (· + 1)^[number - 1] 1

section Counting

variable {Count : Type} [One Count] [Add Count]

@[simp]
theorem counted_one : counted Count 1 = 1 := rfl

theorem counted_succ {number : ℕ} (positive : 0 < number)
    : counted Count (number + 1) = counted Count number + 1 := by
  obtain ⟨number, rfl⟩ := Nat.exists_eq_succ_of_ne_zero positive.ne'
  exact Function.iterate_succ_apply' _ _ _

/-- Counts up to the bound are ordered as the numbers are. -/
theorem CountsTo.counted_le_iff [LinearOrder Count] {bound : ℕ} (counts : CountsTo Count bound)
    {number other : ℕ} (positive : 0 < number) (otherPositive : 0 < other)
    (within : number ≤ bound + 1) (otherWithin : other ≤ bound + 1)
    : counted Count number ≤ counted Count other ↔ number ≤ other := by
  rcases lt_trichotomy number other with less | rfl | more
  · have less' := counts (number - 1) (other - 1) (by omega) (by omega)
    exact ⟨fun _ => less.le, fun _ => less'.le⟩
  · exact ⟨fun _ => le_rfl, fun _ => le_rfl⟩
  · have more' := counts (other - 1) (number - 1) (by omega) (by omega)
    exact ⟨fun le => absurd le (not_le.mpr more'), fun le => absurd le (not_le.mpr more)⟩

end Counting

variable {cfg : Sections} {Key Val Count : Type} {bound most : ℕ}

def Entry.mapCount (count : ℕ → Count) (entry : Entry Key Val ℕ) : Entry Key Val Count :=
  ⟨entry.key, entry.val, count entry.count⟩

variable [One Count] [Add Count]

/-- A cache has the entries of another that counts with natural numbers, up to `most`. -/
structure CountedBy (most : ℕ) (ideal : FrequencyCache cfg Key Val ℕ)
    (c : FrequencyCache cfg Key Val Count)
    : Prop where
  entries : c.entries = ideal.entries.map (.mapCount (counted Count))
  positive : ∀ entry ∈ ideal.entries, 0 < entry.count
  small : ∀ entry ∈ ideal.entries, entry.count ≤ most

variable {ideal : FrequencyCache cfg Key Val ℕ} {c : FrequencyCache cfg Key Val Count}

theorem countedBy_empty
    : CountedBy most (.empty : FrequencyCache cfg Key Val ℕ)
        (.empty : FrequencyCache cfg Key Val Count) where
  entries := rfl
  positive := by
    intro entry none
    cases none
  small := by
    intro entry none
    cases none

theorem CountedBy.mono (h : CountedBy most ideal c) {larger : ℕ} (le : most ≤ larger)
    : CountedBy larger ideal c where
  entries := h.entries
  positive := h.positive
  small := fun entry member => (h.small entry member).trans le

theorem CountedBy.keys (h : CountedBy most ideal c) : c.keys = ideal.keys := by
  rw [FrequencyCache.keys, h.entries, List.map_map]
  rfl

theorem CountedBy.mapVals (h : CountedBy most ideal c) (f : Key → Val → Val)
    : CountedBy most (ideal.mapVals f) (c.mapVals f) where
  entries := by
    simp only [FrequencyCache.mapVals, h.entries, List.map_map]
    rfl
  positive := by
    intro entry member
    obtain ⟨old, oldMember, rfl⟩ := List.mem_map.mp member
    exact h.positive old oldMember
  small := by
    intro entry member
    obtain ⟨old, oldMember, rfl⟩ := List.mem_map.mp member
    exact h.small old oldMember

/-- A hit counts alike. -/
theorem Entry.hitAt_mapCount {entry : Entry Key Val ℕ} (positive : 0 < entry.count) (index : ℕ)
    : (entry.mapCount (counted Count)).hitAt cfg index
      = (entry.hitAt cfg index).mapCount (counted Count) := by
  unfold hitAt
  split
  · rw [mapCount, mapCount, counted_succ positive]
  · rfl

theorem moveToFront_mapCount {entries : List (Entry Key Val ℕ)}
    (positive : ∀ entry ∈ entries, 0 < entry.count) (index : ℕ)
    : moveToFront cfg (entries.map (.mapCount (counted Count))) index
      = (moveToFront cfg entries index).map (.mapCount (counted Count)) := by
  unfold moveToFront
  rw [List.getElem?_map]
  rcases here : entries[index]? with _ | entry
  · rfl
  · simp only [Option.map_some, List.map_cons, List.eraseIdx_map,
      Entry.hitAt_mapCount (positive entry (List.mem_of_getElem? here))]

/-- A hit adds one or nothing. -/
theorem Entry.count_hitAt (entry : Entry Key Val ℕ) (index : ℕ)
    : entry.count ≤ (entry.hitAt cfg index).count
      ∧ (entry.hitAt cfg index).count ≤ entry.count + 1 := by
  unfold hitAt
  split
  · exact ⟨Nat.le_succ _, le_rfl⟩
  · exact ⟨le_rfl, Nat.le_succ _⟩

/-- What is moved to the front was there, or is the entry hit. -/
theorem mem_moveToFront {entries : List (Entry Key Val ℕ)} {index : ℕ} {entry : Entry Key Val ℕ}
    (member : entry ∈ moveToFront cfg entries index)
    : entry ∈ entries ∨ ∃ found ∈ entries, entry = found.hitAt cfg index := by
  unfold moveToFront at member
  split at member
  · next found here =>
      rcases List.mem_cons.mp member with hit | later
      · exact .inr ⟨found, List.mem_of_getElem? here, hit⟩
      · exact .inl ((List.eraseIdx_sublist _ _).subset later)
  · exact .inl member

/-- Retrieving gives the same, and adds one to a count at most. -/
theorem CountedBy.retrieve [DecidableEq Key] (h : CountedBy most ideal c) (key : Key)
    : (c.retrieve key).1 = (ideal.retrieve key).1
      ∧ CountedBy (most + 1) (ideal.retrieve key).2 (c.retrieve key).2 := by
  have index : c.index key = ideal.index key := by
    rw [FrequencyCache.index, h.keys, FrequencyCache.index]
  refine ⟨?_, ?_, ?_, ?_⟩
  · simp only [FrequencyCache.retrieve, index, h.entries, List.getElem?_map, Option.map_map]
    rfl
  · simp only [FrequencyCache.retrieve, index, h.entries, moveToFront_mapCount h.positive]
  · intro entry member
    rcases mem_moveToFront member with old | ⟨found, old, rfl⟩
    · exact h.positive entry old
    · exact (h.positive found old).trans_le (found.count_hitAt _).1
  · intro entry member
    rcases mem_moveToFront member with old | ⟨found, old, rfl⟩
    · exact Nat.le_succ_of_le (h.small entry old)
    · exact (found.count_hitAt _).2.trans (Nat.succ_le_succ (h.small found old))

variable [LinearOrder Count]

/-- The same entry is the least counted one. -/
theorem CountedBy.victimIndex (h : CountedBy most ideal c) (counts : CountsTo Count bound)
    (within : most ≤ bound + 1)
    : victimIndex cfg c.entries = ReplacementPolicy.victimIndex cfg ideal.entries := by
  have least : lastMin? ((c.entries.drop cfg.oldStart).map Entry.count)
      = (lastMin? ((ideal.entries.drop cfg.oldStart).map Entry.count)).map
          (Prod.map id (counted Count)) := by
    rw [h.entries, ← List.map_drop, List.map_map, ← lastMin?_map, List.map_map]
    · rfl
    · intro number member other otherMember
      obtain ⟨entry, dropped, rfl⟩ := List.mem_map.mp member
      obtain ⟨otherEntry, otherDropped, rfl⟩ := List.mem_map.mp otherMember
      have old := List.mem_of_mem_drop dropped
      have otherOld := List.mem_of_mem_drop otherDropped
      exact counts.counted_le_iff (h.positive _ old) (h.positive _ otherOld)
        ((h.small _ old).trans within) ((h.small _ otherOld).trans within)
  rw [ReplacementPolicy.victimIndex, least, ReplacementPolicy.victimIndex, Option.map_map]
  rfl

/-- Inserting replaces the same entry, or fails alike. -/
theorem CountedBy.insert [DecidableEq Key] (h : CountedBy most ideal c)
    (counts : CountsTo Count bound) (within : most ≤ bound + 1) (key : Key) (val : Val)
    : (c.insert key val = none ∧ ideal.insert key val = none)
      ∨ ∃ replaced c' ideal',
          c.insert key val = some (replaced, c')
          ∧ ideal.insert key val = some (replaced, ideal')
          ∧ CountedBy (most + 1) ideal' c' := by
  by_cases present : key ∈ ideal.keys
  · have there : key ∈ c.keys := h.keys ▸ present
    exact Or.inl ⟨FrequencyCache.insert_of_mem there val, FrequencyCache.insert_of_mem present val⟩
  · have absent : key ∉ c.keys := h.keys ▸ present
    obtain ⟨c', inserted, entries⟩ := FrequencyCache.insert_of_not_mem absent val
    obtain ⟨ideal', idealInserted, idealEntries⟩ := FrequencyCache.insert_of_not_mem present val
    have length : c.entries.length = ideal.entries.length := by rw [h.entries, List.length_map]
    have index := h.victimIndex counts within
    have replaced : victim cfg c.entries = victim cfg ideal.entries := by
      unfold victim
      rw [length, index, h.entries, List.getElem?_map, Option.map_map]
      rfl
    have kept : survivors cfg c.entries
        = (survivors cfg ideal.entries).map (.mapCount (counted Count)) := by
      unfold survivors
      rw [length, index, h.entries]
      split
      · rfl
      · exact List.eraseIdx_map _ _ _
    refine Or.inr ⟨_, c', ideal', inserted, replaced ▸ idealInserted, ?_, ?_, ?_⟩
    · rw [entries, idealEntries, kept, List.map_cons, Entry.mapCount, counted_one]
    · rw [idealEntries]
      intro entry member
      rcases List.mem_cons.mp member with rfl | later
      · exact Nat.one_pos
      · exact h.positive entry ((survivors_sublist _).subset later)
    · rw [idealEntries]
      intro entry member
      rcases List.mem_cons.mp member with rfl | later
      · exact Nat.le_add_left 1 most
      · exact Nat.le_succ_of_le (h.small entry ((survivors_sublist _).subset later))

end CachingFileSystem.ReplacementPolicy
