import CachingFileSystem.Containers.LastMinimum
import Mathlib.Data.List.Nodup
import Mathlib.Data.List.Perm.Basic

/-! Frequency-based replacement over arbitrary keys, values and reference counts.
Entries are kept most recently used first; a hit counts only behind the new section, and
the entry replaced is the least counted one of the old section.
-/

namespace CachingFileSystem.ReplacementPolicy

open CachingFileSystem.Containers

/-- The section sizes of a cache with room for `size` entries. The first `newSize` places
form the new section and the last `oldSize` places the old one; between them there may be
nothing.
-/
structure Sections where
  size : ℕ
  newSize : ℕ
  oldSize : ℕ
  newPositive : 0 < newSize
  oldPositive : 0 < oldSize
  fits : newSize + oldSize ≤ size

/-- The index at which the old section starts. -/
def Sections.oldStart (cfg : Sections) : ℕ := cfg.size - cfg.oldSize

theorem Sections.newSize_le_oldStart (cfg : Sections) : cfg.newSize ≤ cfg.oldStart := by
  have fits := cfg.fits
  simp only [oldStart]
  omega

theorem Sections.oldStart_lt_size (cfg : Sections) : cfg.oldStart < cfg.size := by
  have fits := cfg.fits
  have positive := cfg.oldPositive
  simp only [oldStart]
  omega

structure Entry (Key Val Count : Type) where
  key : Key
  val : Val
  count : Count

variable {cfg : Sections} {Key Val Count : Type}

/-- The entry as a hit at `index` leaves it: counted unless it was in the new section. -/
def Entry.hitAt [One Count] [Add Count] (cfg : Sections) (index : ℕ)
    (entry : Entry Key Val Count)
    : Entry Key Val Count :=
  if cfg.newSize ≤ index then { entry with count := entry.count + 1 } else entry

def Entry.mapVal (f : Key → Val → Val) (entry : Entry Key Val Count) : Entry Key Val Count :=
  { entry with val := f entry.key entry.val }

@[simp]
theorem Entry.hitAt_key [One Count] [Add Count] (index : ℕ) (entry : Entry Key Val Count)
    : (entry.hitAt cfg index).key = entry.key := by
  unfold hitAt
  split <;> rfl

@[simp]
theorem Entry.hitAt_val [One Count] [Add Count] (index : ℕ) (entry : Entry Key Val Count)
    : (entry.hitAt cfg index).val = entry.val := by
  unfold hitAt
  split <;> rfl

-----------------------------------------------------------------------------------------
-- Entry lists
-----------------------------------------------------------------------------------------

/-- Moving the entry at `index` to the front; nothing happens past the end. -/
def moveToFront [One Count] [Add Count] (cfg : Sections) (entries : List (Entry Key Val Count))
    (index : ℕ)
    : List (Entry Key Val Count) :=
  match entries[index]? with
  | some entry => entry.hitAt cfg index :: entries.eraseIdx index
  | none => entries

/-- The index of the entry to replace: the least counted one of the old section, the last
one among equals.
-/
def victimIndex [LinearOrder Count] (cfg : Sections) (entries : List (Entry Key Val Count))
    : ℕ :=
  cfg.oldStart
  + ((lastMin? ((entries.drop cfg.oldStart).map Entry.count)).map Prod.fst).getD 0

/-- The key replaced by the next insertion; there is none while a place is free. -/
def victim [LinearOrder Count] (cfg : Sections) (entries : List (Entry Key Val Count))
    : Option Key :=
  if entries.length < cfg.size then none
  else (entries[victimIndex cfg entries]?).map Entry.key

/-- The entries that the next insertion keeps. -/
def survivors [LinearOrder Count] (cfg : Sections) (entries : List (Entry Key Val Count))
    : List (Entry Key Val Count) :=
  if entries.length < cfg.size then entries
  else entries.eraseIdx (victimIndex cfg entries)

/-- Moving to the front permutes the keys, by splitting the list at the moved index. -/
theorem moveToFront_keys [One Count] [Add Count] (entries : List (Entry Key Val Count))
    (index : ℕ)
    : ((moveToFront cfg entries index).map Entry.key).Perm (entries.map Entry.key) := by
  unfold moveToFront
  cases here : entries[index]? with
  | none => exact .refl _
  | some entry =>
      obtain ⟨inside, rfl⟩ := List.getElem?_eq_some_iff.mp here
      simp only [List.map_cons, Entry.hitAt_key]
      exact ((List.getElem_cons_eraseIdx_perm inside).map Entry.key)

theorem moveToFront_length [One Count] [Add Count] (entries : List (Entry Key Val Count))
    (index : ℕ)
    : (moveToFront cfg entries index).length = entries.length := by
  have same : _ = _ := (@moveToFront_keys cfg _ _ _ _ _ entries index).length_eq
  simpa only [List.length_map] using same

/-- In a full cache the replaced entry lies in the old section, inside the list. -/
theorem victimIndex_bounds [LinearOrder Count] {entries : List (Entry Key Val Count)}
    (full : entries.length = cfg.size)
    : cfg.oldStart ≤ victimIndex cfg entries ∧ victimIndex cfg entries < cfg.size := by
  refine ⟨Nat.le_add_right _ _, ?_⟩
  have start := cfg.oldStart_lt_size
  have nonempty : (entries.drop cfg.oldStart).map Entry.count ≠ [] := by
    intro empty
    have none := congrArg List.length empty
    simp only [List.length_map, List.length_drop, List.length_nil] at none
    omega
  obtain ⟨⟨index, least⟩, found⟩ := lastMin?_isSome nonempty
  have bound := lastMin?_lt found
  simp only [List.length_map, List.length_drop] at bound
  simp only [victimIndex, found, Option.map_some, Option.getD_some]
  omega

theorem survivors_sublist [LinearOrder Count] (entries : List (Entry Key Val Count))
    : (survivors cfg entries).Sublist entries := by
  unfold survivors
  split
  · exact .refl _
  · exact List.eraseIdx_sublist _ _

/-- While a place is free every entry survives. -/
theorem survivors_of_free [LinearOrder Count] {entries : List (Entry Key Val Count)}
    (free : entries.length < cfg.size)
    : survivors cfg entries = entries := by
  simp only [survivors, free, if_true]

/-- Of a full cache all entries but one survive. -/
theorem survivors_length_of_full [LinearOrder Count] {entries : List (Entry Key Val Count)}
    (full : entries.length = cfg.size)
    : (survivors cfg entries).length + 1 = cfg.size := by
  have bounds := victimIndex_bounds full
  unfold survivors
  rw [if_neg (by omega), List.length_eraseIdx_of_lt (full.symm ▸ bounds.2)]
  omega

/-- An insertion always finds a free place among the survivors. -/
theorem survivors_length [LinearOrder Count] {entries : List (Entry Key Val Count)}
    (bounded : entries.length ≤ cfg.size)
    : (survivors cfg entries).length < cfg.size := by
  rcases Nat.lt_or_ge entries.length cfg.size with free | full
  · rw [survivors_of_free free]
    exact free
  · have one := survivors_length_of_full (Nat.le_antisymm bounded full)
    omega

/-- Replacement only removes entries of the old section. -/
theorem survivors_take [LinearOrder Count] {entries : List (Entry Key Val Count)}
    (bounded : entries.length ≤ cfg.size)
    : (survivors cfg entries).take cfg.oldStart = entries.take cfg.oldStart := by
  unfold survivors
  by_cases free : entries.length < cfg.size
  · simp only [free, if_true]
  · have full : entries.length = cfg.size := by omega
    simp only [free, if_false]
    exact List.take_eraseIdx_eq_take_of_le _ _ _ (victimIndex_bounds full).1

-----------------------------------------------------------------------------------------
-- The cache and its operations
-----------------------------------------------------------------------------------------

/-- At most `size` entries with distinct keys, most recently used first. -/
structure FrequencyCache (cfg : Sections) (Key Val Count : Type) where
  entries : List (Entry Key Val Count)
  distinct : (entries.map Entry.key).Nodup
  bounded : entries.length ≤ cfg.size

namespace FrequencyCache

def empty : FrequencyCache cfg Key Val Count := ⟨[], by simp, Nat.zero_le _⟩

def keys (c : FrequencyCache cfg Key Val Count) : List Key := c.entries.map Entry.key

/-- The index of a key, or the number of entries when it is absent. -/
def index [DecidableEq Key] (c : FrequencyCache cfg Key Val Count) (key : Key) : ℕ :=
  c.keys.idxOf key

/-- Look up a key; a hit moves its entry to the front. -/
def retrieve [DecidableEq Key] [One Count] [Add Count] (c : FrequencyCache cfg Key Val Count)
    (key : Key)
    : Option Val × FrequencyCache cfg Key Val Count :=
  ((c.entries[c.index key]?).map Entry.val,
    {
      entries := moveToFront cfg c.entries (c.index key)
      distinct := (moveToFront_keys c.entries _).nodup_iff.mpr c.distinct
      bounded := (moveToFront_length c.entries _).symm ▸ c.bounded
    })

/-- Put an absent key in front with count one, replacing an entry of a full cache.
The replaced key is returned with the new cache; a present key is rejected.
-/
def insert [DecidableEq Key] [LinearOrder Count] [One Count]
    (c : FrequencyCache cfg Key Val Count) (key : Key) (val : Val)
    : Option (Option Key × FrequencyCache cfg Key Val Count) :=
  if present : key ∈ c.keys then none
  else
    some (victim cfg c.entries,
      {
        entries := ⟨key, val, 1⟩ :: survivors cfg c.entries
        distinct := by
          simp only [List.map_cons, List.nodup_cons]
          exact ⟨fun member => present (((survivors_sublist c.entries).map _).subset member),
            c.distinct.sublist ((survivors_sublist c.entries).map _)⟩
        bounded := survivors_length c.bounded
      })

/-- Rewrite every value, leaving keys, counts and order alone. -/
def mapVals (c : FrequencyCache cfg Key Val Count) (f : Key → Val → Val)
    : FrequencyCache cfg Key Val Count where
  entries := c.entries.map (Entry.mapVal f)
  distinct := by simpa only [List.map_map, Function.comp_def, Entry.mapVal] using c.distinct
  bounded := by simpa only [List.length_map] using c.bounded

@[simp]
theorem keys_mapVals (c : FrequencyCache cfg Key Val Count) (f : Key → Val → Val)
    : (c.mapVals f).keys = c.keys := by
  simp [keys, mapVals, Entry.mapVal, Function.comp_def]

/-- A present key's index holds its entry; witness: distinct keys have one index. -/
theorem exists_entry [DecidableEq Key] {c : FrequencyCache cfg Key Val Count} {key : Key}
    (present : key ∈ c.keys)
    : ∃ entry, c.entries[c.index key]? = some entry ∧ entry.key = key := by
  have bound : c.index key < c.keys.length := List.idxOf_lt_length_of_mem present
  have inside : c.index key < c.entries.length := by simpa [keys] using bound
  refine ⟨c.entries[c.index key], List.getElem?_eq_getElem inside, ?_⟩
  have here : c.keys[c.index key] = key := List.getElem_idxOf bound
  simpa only [keys, List.getElem_map] using here

/-- Distinct keys determine the index of the entry that holds them. -/
theorem index_eq [DecidableEq Key] {c : FrequencyCache cfg Key Val Count} {i : ℕ}
    {entry : Entry Key Val Count} (here : c.entries[i]? = some entry)
    : c.index entry.key = i := by
  obtain ⟨inside, rfl⟩ := List.getElem?_eq_some_iff.mp here
  have bound : i < c.keys.length := by simpa [keys] using inside
  have same : c.keys[i] = c.entries[i].key := by simp [keys]
  unfold index
  rw [← same]
  have distinct : c.keys.Nodup := c.distinct
  exact distinct.idxOf_getElem i bound

/-- A missing key's index is past the last entry. -/
theorem getElem?_index_of_not_mem [DecidableEq Key] {c : FrequencyCache cfg Key Val Count}
    {key : Key} (absent : key ∉ c.keys)
    : c.entries[c.index key]? = none := by
  apply List.getElem?_eq_none
  have past : c.index key = c.keys.length := List.idxOf_eq_length absent
  simp only [past, keys, List.length_map, Nat.le_refl]

/-- A miss returns nothing and changes nothing. -/
theorem retrieve_of_not_mem [DecidableEq Key] [One Count] [Add Count]
    {c : FrequencyCache cfg Key Val Count} {key : Key} (absent : key ∉ c.keys)
    : c.retrieve key = (none, c) := by
  simp only [retrieve, moveToFront, getElem?_index_of_not_mem absent, Option.map_none]

/-- A hit returns the value and moves the counted entry to the front. -/
theorem retrieve_of_entry [DecidableEq Key] [One Count] [Add Count]
    {c : FrequencyCache cfg Key Val Count} {i : ℕ} {entry : Entry Key Val Count}
    (here : c.entries[i]? = some entry)
    : (c.retrieve entry.key).1 = some entry.val
      ∧ (c.retrieve entry.key).2.entries = entry.hitAt cfg i :: c.entries.eraseIdx i := by
  simp only [retrieve, moveToFront, index_eq here, here, Option.map_some, and_self]

/-- Retrieval permutes the keys. -/
theorem keys_retrieve_perm [DecidableEq Key] [One Count] [Add Count]
    (c : FrequencyCache cfg Key Val Count) (key : Key)
    : (c.retrieve key).2.keys.Perm c.keys :=
  moveToFront_keys c.entries _

/-- Retrieval neither adds nor removes a key or its value. -/
theorem mem_retrieve [DecidableEq Key] [One Count] [Add Count]
    {c : FrequencyCache cfg Key Val Count} {key : Key} {entry : Entry Key Val Count}
    (member : entry ∈ (c.retrieve key).2.entries)
    : ∃ old ∈ c.entries, old.key = entry.key ∧ old.val = entry.val := by
  by_cases present : key ∈ c.keys
  · obtain ⟨found, here, rfl⟩ := exists_entry present
    rw [(retrieve_of_entry here).2] at member
    rcases List.mem_cons.mp member with rfl | later
    · exact ⟨found, List.mem_of_getElem? here, by simp⟩
    · exact ⟨entry, (List.eraseIdx_sublist _ _).subset later, rfl, rfl⟩
  · rw [retrieve_of_not_mem present] at member
    exact ⟨entry, member, rfl, rfl⟩

/-- An insertion of an absent key succeeds; witness: the guard of the definition. -/
theorem insert_of_not_mem [DecidableEq Key] [LinearOrder Count] [One Count]
    {c : FrequencyCache cfg Key Val Count} {key : Key} (absent : key ∉ c.keys) (val : Val)
    : ∃ c',
        c.insert key val = some (victim cfg c.entries, c')
        ∧ c'.entries = ⟨key, val, 1⟩ :: survivors cfg c.entries := by
  simp only [insert, absent, dite_false, Option.some.injEq, Prod.mk.injEq, true_and,
    exists_eq_left']

/-- Only a full cache has a victim. -/
theorem full_of_victim [LinearOrder Count] {c : FrequencyCache cfg Key Val Count} {key : Key}
    (replaced : victim cfg c.entries = some key)
    : c.entries.length = cfg.size := by
  unfold victim at replaced
  split at replaced
  · cases replaced
  · next full => exact Nat.le_antisymm c.bounded (Nat.not_lt.mp full)

/-- A replaced key is gone from the cache that an insertion leaves. -/
theorem victim_not_mem [DecidableEq Key] [LinearOrder Count] [One Count]
    {c c' : FrequencyCache cfg Key Val Count} {key replaced : Key} {val : Val}
    (inserted : c.insert key val = some (some replaced, c'))
    : replaced ∉ c'.keys := by
  by_cases present : key ∈ c.keys
  · simp [insert, present] at inserted
  · simp only [insert, present, dite_false, Option.some.injEq, Prod.mk.injEq] at inserted
    obtain ⟨victim', rfl⟩ := inserted
    unfold victim at victim'
    split at victim'
    · cases victim'
    · next full =>
        obtain ⟨entry, here, rfl⟩ := Option.map_eq_some_iff.mp victim'
        obtain ⟨inside, rfl⟩ := List.getElem?_eq_some_iff.mp here
        simp only [keys, survivors, full, if_false, List.map_cons, List.mem_cons, not_or]
        have bound : victimIndex cfg c.entries < c.keys.length := by simpa [keys] using inside
        have there : c.keys[victimIndex cfg c.entries]
            = c.entries[victimIndex cfg c.entries].key := by simp [keys]
        have distinct : c.keys.Nodup := c.distinct
        refine ⟨fun same => present ?_, ?_⟩
        · exact same ▸ List.mem_map_of_mem (List.getElem_mem inside)
        · rw [← there, ← List.eraseIdx_map]
          intro again
          have erased := distinct.erase_getElem _ bound
          exact distinct.not_mem_erase (erased.symm ▸ again)

/-- An insertion of a present key is rejected. -/
theorem insert_of_mem [DecidableEq Key] [LinearOrder Count] [One Count]
    {c : FrequencyCache cfg Key Val Count} {key : Key} (present : key ∈ c.keys) (val : Val)
    : c.insert key val = none := by
  simp only [insert, present, dite_true]

end FrequencyCache

end CachingFileSystem.ReplacementPolicy
