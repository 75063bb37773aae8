import CachingFileSystem.BufferCache.MachineCounts
import CachingFileSystem.BufferCache.Runs
import CachingFileSystem.ReplacementPolicy.FrequentKeys
import CachingFileSystem.ReplacementPolicy.LeastRecentlyUsed

/-! Which blocks a manager keeps, in terms of the touches alone: frequent ones against a scan,
and exactly the most recent ones when the old section has a single place.
-/

namespace CachingFileSystem.BufferCache

open CachingFileSystem.Containers
open CachingFileSystem.ReplacementPolicy
open CachingFileSystem.Transitions

variable {Count Buf : Type} [LinearOrder Count] [OrderTop Count] [One Count] [Add Count]
  {args : CacheArgs} {history : List (Touch BlockID)} {s : CacheManager Count Buf}

-----------------------------------------------------------------------------------------
-- Runs that insert one block after the other
-----------------------------------------------------------------------------------------

theorem insertions_scan (scanned : List BlockID) (history : List (Touch BlockID))
    : insertions (scanned.map Touch.insert ++ history) = scanned.length + insertions history := by
  induction scanned with
  | nil => simp
  | cons id scanned ih =>
      simp only [List.map_cons, List.cons_append, insertions, ih, List.length_cons]
      omega

/-- Some blocks of a file, as a scan from the last one on touches them. -/
def blocksFrom (fileId : ℤ) (start count : ℕ) : List BlockID :=
  (List.range' start count).map (fun block : ℕ => (fileId, (block : ℤ)))

section Blocks

variable {fileId : ℤ} {start count : ℕ} {id : BlockID}

theorem blocksFrom_succ
    : blocksFrom fileId start (count + 1)
      = (fileId, (start : ℤ)) :: blocksFrom fileId (start + 1) count :=
  rfl

theorem blocksFrom_append (fewer more : ℕ)
    : blocksFrom fileId start (fewer + more)
      = blocksFrom fileId start fewer ++ blocksFrom fileId (start + fewer) more := by
  rw [blocksFrom, blocksFrom, blocksFrom, ← List.map_append, List.range'_append_1]

theorem length_blocksFrom : (blocksFrom fileId start count).length = count := by
  rw [blocksFrom, List.length_map, List.length_range']

theorem nodup_blocksFrom (fileId : ℤ) (start count : ℕ)
    : (blocksFrom fileId start count).Nodup := by
  refine List.Nodup.map (fun block other same => ?_) List.nodup_range'
  exact Int.ofNat_inj.mp (Prod.mk.inj same).2

theorem mem_blocksFrom (member : id ∈ blocksFrom fileId start count)
    : id.1 = fileId ∧ start ≤ id.2 ∧ id.2 < start + count := by
  obtain ⟨block, inside, rfl⟩ := List.mem_map.mp member
  obtain ⟨low, high⟩ := List.mem_range'_1.mp inside
  exact ⟨rfl, by simpa using low, by simpa using Int.ofNat_lt.mpr high⟩

/-- No such block is a placeholder. -/
theorem real_blocksFrom (member : id ∈ blocksFrom fileId start count) : id.2 ≠ nullBlock := by
  intro null
  have inside := mem_blocksFrom member
  simp only [nullBlock] at null
  omega

end Blocks

-----------------------------------------------------------------------------------------
-- Hits in the last place
-----------------------------------------------------------------------------------------

/-- A cache is filled with the blocks of one file, then the block in the last place is hit, as often
as is said.
-/
def lastHits (size : ℕ) : ℕ → List (Touch BlockID)
  | 0 => (blocksFrom 0 0 size).map Touch.insert
  | times + 1 => .hit (0, ((size - (times + 1) : ℕ) : ℤ)) :: lastHits size times

section LastHits

variable {size times : ℕ}

theorem keys_lastHits (within : times ≤ size)
    : (lastHits size times).map Touch.key
      = blocksFrom 0 (size - times) times ++ blocksFrom 0 0 size := by
  induction times with
  | zero =>
      have scan := keys_scan (blocksFrom 0 0 size) []
      rwa [List.append_nil, List.map_nil, List.append_nil] at scan
  | succ times ih =>
      have next : size - times = size - (times + 1) + 1 := by omega
      rw [lastHits, List.map_cons, ih (by omega), blocksFrom_succ, List.cons_append, next]
      rfl

theorem hits_lastHits : hits (lastHits size times) = times := by
  induction times with
  | zero =>
      have scan := hits_scan (blocksFrom 0 0 size) []
      rwa [List.append_nil] at scan
  | succ times ih => exact congrArg Nat.succ ih

theorem insertions_lastHits : insertions (lastHits size times) = size := by
  induction times with
  | zero =>
      have scan := insertions_scan (blocksFrom 0 0 size) []
      rwa [List.append_nil, length_blocksFrom] at scan
  | succ times ih => exact ih

/-- The next block to be hit is the least recent one. -/
theorem reuseDistance_lastHits (within : times < size)
    : reuseDistance (0, ((size - (times + 1) : ℕ) : ℤ)) ((lastHits size times).map Touch.key)
      = size - 1 := by
  obtain ⟨rest, rfl⟩ : ∃ rest, size = rest + 1 + times := ⟨size - 1 - times, by omega⟩
  have place : rest + 1 + times - (times + 1) = rest := by omega
  have start : rest + 1 + times - times = rest + 1 := by omega
  have split : blocksFrom 0 0 (rest + 1 + times)
      = blocksFrom 0 0 rest ++ (0, (rest : ℤ)) :: blocksFrom 0 (rest + 1) times := by
    rw [Nat.add_assoc, blocksFrom_append, Nat.add_comm 1 times, blocksFrom_succ, Nat.zero_add]
  have distinct : (blocksFrom 0 (rest + 1) times ++ blocksFrom 0 0 rest).Nodup := by
    refine List.Nodup.append (nodup_blocksFrom _ _ _) (nodup_blocksFrom _ _ _) ?_
    intro id hit earlier
    have late := mem_blocksFrom hit
    have early := mem_blocksFrom earlier
    omega
  have others : (0, (rest : ℤ)) ∉ blocksFrom 0 (rest + 1) times ++ blocksFrom 0 0 rest := by
    intro member
    rcases List.mem_append.mp member with hit | earlier
    · have late := mem_blocksFrom hit
      omega
    · have early := mem_blocksFrom earlier
      omega
  rw [keys_lastHits within.le, place, start, split, ← List.append_assoc,
    reuseDistance_append distinct others, List.length_append, length_blocksFrom, length_blocksFrom]
  omega

/-- So all these hits are far, and there are no others. -/
theorem frequentKeys_lastHits {far : ℕ} (le : far < size) (within : times ≤ size)
    : frequentKeys far 1 (lastHits size times)
      = (blocksFrom 0 (size - times) times).toFinset := by
  induction times with
  | zero =>
      ext id
      rw [lastHits, ← List.append_nil (List.map _ _), mem_frequentKeys_scan Nat.one_pos,
        mem_frequentKeys Nat.one_pos]
      refine iff_of_false (fun often => ?_) (by simp [blocksFrom])
      exact absurd often.2 (Nat.not_succ_le_zero 0)
  | succ times ih =>
      have next : size - times = size - (times + 1) + 1 := by omega
      have before := ih (by omega)
      rw [next] at before
      rw [blocksFrom_succ, List.toFinset_cons, ← before, lastHits]
      ext id
      rw [Finset.mem_insert]
      constructor
      · exact (mem_frequentKeys_hit Nat.one_pos).2
      · rintro (rfl | earlier)
        · have distance := reuseDistance_lastHits (Nat.lt_of_succ_le within)
          rw [mem_frequentKeys Nat.one_pos, farHits, distance, if_pos ⟨rfl, by omega⟩]
          exact Nat.le_add_left 1 _
        · exact (mem_frequentKeys_hit Nat.one_pos).1 earlier

end LastHits

/-- Witness: no touched block is missing before more are inserted than there are places. -/
theorem exists_lastHits (args : CacheArgs) {times : ℕ} (within : times ≤ args.sections.size)
    : ∃ s : CacheManager Count Buf, Reaches args (lastHits args.sections.size times) s := by
  induction times with
  | zero =>
      obtain ⟨s, reached⟩ := (@reaches_new Count Buf _ _ _ _ args).exists_scan
        (nodup_blocksFrom 0 0 args.sections.size) (fun _ _ => List.not_mem_nil)
        (fun _ member => real_blocksFrom member)
      rw [List.append_nil] at reached
      exact ⟨s, reached⟩
  | succ times ih =>
      obtain ⟨s, reached⟩ := ih (by omega)
      obtain ⟨c, represents, evolves⟩ := reached.evolves
      obtain ⟨rest, size⟩ : ∃ rest, args.sections.size = rest + (times + 1) :=
        ⟨args.sections.size - (times + 1), by omega⟩
      have touched : ((0, ((args.sections.size - (times + 1) : ℕ) : ℤ)) : BlockID)
          ∈ (lastHits args.sections.size times).map Touch.key := by
        rw [keys_lastHits (by omega)]
        refine List.mem_append_right _ (List.mem_map_of_mem (List.mem_range'_1.mpr ?_))
        omega
      obtain ⟨touch, here, key⟩ := List.mem_map.mp touched
      have present := evolves.fills.kept insertions_lastHits.le touch here
      rw [key] at present
      obtain ⟨it, cached⟩ := (represents.mapped_iff _).mpr present
      obtain ⟨_, s', _, _, reached', _⟩ := reached.exists_hit cached
      exact ⟨s', reached'⟩

/-- The only frequent blocks after another file was scanned. -/
theorem frequentKeys_scan_lastHits {far size times : ℕ} (le : far < size) (within : times ≤ size)
    {scanned : List BlockID} (other : ∀ id ∈ scanned, id.1 ≠ 0)
    : frequentKeys far 1 (scanned.map Touch.insert ++ lastHits size times)
      = (blocksFrom 0 (size - times) times).toFinset := by
  ext id
  rw [mem_frequentKeys_scan Nat.one_pos, frequentKeys_lastHits le within]
  refine ⟨And.right, fun hit => ⟨fun again => ?_, hit⟩⟩
  exact other id again (mem_blocksFrom (List.mem_toFinset.mp hit)).1

-----------------------------------------------------------------------------------------
-- Scans
-----------------------------------------------------------------------------------------

/-- In the terms of the sections, as for the abstract cache. -/
theorem Reaches.frequent_mapped (reached : Reaches args history s)
    (counts : CountsTo Count (hits history)) {level : ℕ} (positive : 0 < level)
    (few : (frequentKeys args.sections.newSize level history).card < args.sections.oldSize)
    {id : BlockID} (frequent : id ∈ frequentKeys args.sections.newSize level history)
    : ∃ it, s.blocksMap id = some it := by
  obtain ⟨c, represents, evolves⟩ := reached.evolves
  exact (represents.mapped_iff id).mpr (evolves.frequent_cached counts positive few frequent)

/-- While the blocks hit far `level` times since their insertion are fewer than the old section
has places, each of them is cached, however many others are inserted.
-/
theorem reaches_frequent_cached (reached : Reaches args history s)
    (counts : CountsTo Count (hits history)) {level : ℕ} (positive : 0 < level)
    (few
      : (frequentKeys (newSectionSize args.numberOfBlocks args.fNew).toNat level history).card
        < oldSectionSize args.numberOfBlocks args.fOld)
    {id : BlockID}
    (frequent
      : level ≤ farHits (newSectionSize args.numberOfBlocks args.fNew).toNat id history)
    : ∃ it, s.blocksMap id = some it := by
  refine reached.frequent_mapped counts positive ?_ ((mem_frequentKeys positive).mpr frequent)
  rw [← args.oldSize_eq] at few
  exact_mod_cast few

/-- A block hit in the last place outlives a scan that takes all other places. -/
theorem reaches_frequent_cached_scan
    : ∃ (s : CacheManager Int32 String) (it : Iterator),
        Reaches twoOldArgs ((blocksFrom 1 0 3).map Touch.insert ++ lastHits 4 1) s
        ∧ s.blocksMap (0, 3) = some it := by
  obtain ⟨s, reached⟩ := @exists_lastHits Int32 String _ _ _ _ twoOldArgs 1 (by decide +kernel)
  obtain ⟨s', reached'⟩ := reached.exists_scan (nodup_blocksFrom 1 0 3) (by decide +kernel)
    (fun _ member => real_blocksFrom member)
  obtain ⟨it, cached⟩ := reaches_frequent_cached reached' (countsTo_int32 (by decide +kernel))
    Nat.one_pos (by decide +kernel)
    (show 1 ≤ farHits (newSectionSize 4 (1 / 4)).toNat (0, 3) _ by decide +kernel)
  exact ⟨s', it, reached', cached⟩

-----------------------------------------------------------------------------------------
-- Runs that miss
-----------------------------------------------------------------------------------------

/-- Where the cache holds the hit blocks, some block of more than it has room for beside them is not
cached.
-/
theorem exists_unmapped {times : ℕ} {missed : List BlockID}
    (reached : Reaches args (missed.map Touch.insert ++ lastHits args.sections.size times) s)
    (counts : CountsTo Count times) (fewer : times < args.sections.oldSize)
    (other : ∀ id ∈ missed, id.1 ≠ 0)
    : ∃ id ∈ blocksFrom 1 0 (args.sections.size - times + 1), s.blocksMap id = none := by
  have fits := args.sections.fits
  have often := @frequentKeys_scan_lastHits args.sections.newSize args.sections.size times
    (by omega) (by omega) missed other
  have held : ∀ id ∈ blocksFrom 0 (args.sections.size - times) times,
      ∃ it, s.blocksMap id = some it := by
    intro id hit
    refine reached.frequent_mapped ?_ Nat.one_pos ?_ (often ▸ List.mem_toFinset.mpr hit)
    · rw [hits_scan, hits_lastHits]
      exact counts
    · rw [often, List.toFinset_card_of_nodup (nodup_blocksFrom _ _ _), length_blocksFrom]
      exact fewer
  by_contra all
  push Not at all
  obtain ⟨c, represents, _⟩ := reached.evolves
  have cached : blocksFrom 0 (args.sections.size - times) times
      ++ blocksFrom 1 0 (args.sections.size - times + 1) ⊆ c.keys := by
    intro id member
    refine (represents.mapped_iff id).mp ?_
    rcases List.mem_append.mp member with hit | more
    · exact held id hit
    · exact Option.ne_none_iff_exists'.mp (all id more)
  have distinct : (blocksFrom 0 (args.sections.size - times) times
      ++ blocksFrom 1 0 (args.sections.size - times + 1)).Nodup := by
    refine List.Nodup.append (nodup_blocksFrom _ _ _) (nodup_blocksFrom _ _ _) ?_
    intro id zero one
    have file := (mem_blocksFrom zero).1
    have file' := (mem_blocksFrom one).1
    omega
  have places := (List.subperm_of_subset distinct cached).length_le
  have bounded := c.bounded
  rw [List.length_append, length_blocksFrom, length_blocksFrom] at places
  simp only [FrequencyCache.keys, List.length_map] at places
  omega

/-- So it can be missed next, and such a run goes on for ever; by induction on its misses. -/
theorem exists_missed {times : ℕ} (counts : CountsTo Count times)
    (fewer : times < args.sections.oldSize) (length : ℕ)
    : ∃ (missed : List BlockID) (s : CacheManager Count Buf),
        Reaches args (missed.map Touch.insert ++ lastHits args.sections.size times) s
        ∧ missed.length = length
        ∧ ∀ id ∈ missed, id ∈ blocksFrom 1 0 (args.sections.size - times + 1) := by
  have fits := args.sections.fits
  induction length with
  | zero =>
      obtain ⟨s, reached⟩ := @exists_lastHits Count Buf _ _ _ _ args times (by omega)
      exact ⟨[], s, reached, rfl, fun _ none => absurd none List.not_mem_nil⟩
  | succ length ih =>
      obtain ⟨missed, s, reached, rfl, few⟩ := ih
      have other : ∀ id ∈ missed, id.1 ≠ 0 := by
        intro id member
        rw [(mem_blocksFrom (few id member)).1]
        decide
      obtain ⟨id, more, absent⟩ := exists_unmapped reached counts fewer other
      obtain ⟨s', _, _, reached', _⟩ :=
        reached.exists_insert absent (real_blocksFrom more) none none
      refine ⟨id :: missed, s', reached', rfl, fun other member => ?_⟩
      rcases List.mem_cons.mp member with rfl | earlier
      · exact more
      · exact few other earlier

/-- The bound on the distinct blocks that are sure to stay cached is the best one, whatever the
sections are: some run ends with any number of misses in a row, which touch no more than
`numberOfBlocks - oldSectionSize + 2` distinct blocks. Witness: blocks that were hit in the last
place take up the other places for good, so one of the others is always missing.
-/
theorem exists_missRun (Buf : Type) (args : CacheArgs)
    (counts : CountsTo Count (oldSectionSize args.numberOfBlocks args.fOld).toNat) (length : ℕ)
    : ∃ (missed : List BlockID) (history : List (Touch BlockID)) (s : CacheManager Count Buf),
        Reaches args (missed.map Touch.insert ++ history) s
        ∧ missed.length = length
        ∧ (missed.toFinset.card : ℤ)
          ≤ args.numberOfBlocks - oldSectionSize args.numberOfBlocks args.fOld + 2 := by
  have size := args.size_eq
  have oldSize := args.oldSize_eq
  have fits := args.sections.fits
  obtain ⟨times, old⟩ : ∃ times, args.sections.oldSize = times + 1 :=
    Nat.exists_eq_succ_of_ne_zero args.sections.oldPositive.ne'
  have counts' : CountsTo Count times :=
    fun fewer more less within => counts fewer more less (within.trans (by omega))
  obtain ⟨missed, s, reached, rfl, few⟩ :=
    @exists_missed Count Buf _ _ _ _ args times counts' (by omega) length
  refine ⟨missed, _, s, reached, rfl, ?_⟩
  have subset : missed.toFinset ⊆ (blocksFrom 1 0 (args.sections.size - times + 1)).toFinset :=
    fun id member => List.mem_toFinset.mpr (few id (List.mem_toFinset.mp member))
  have card := Finset.card_le_card subset
  rw [List.toFinset_card_of_nodup (nodup_blocksFrom _ _ _), length_blocksFrom] at card
  omega

/-- A thousand misses in a row on at most four blocks, in a cache of four. -/
theorem exists_missRun_twoOld
    : ∃ (missed : List BlockID) (history : List (Touch BlockID)) (s : CacheManager Int32 String),
        Reaches twoOldArgs (missed.map Touch.insert ++ history) s
        ∧ missed.length = 1000
        ∧ (missed.toFinset.card : ℤ) ≤ 4 - oldSectionSize 4 (1 / 2) + 2 :=
  exists_missRun String twoOldArgs (countsTo_int32 (by decide +kernel)) 1000

-----------------------------------------------------------------------------------------
-- A single old place
-----------------------------------------------------------------------------------------

/-- With two old places or more some run keeps a block that as many others were accessed after as
there are places: a block that was hit in the last place outlives a scan over the whole cache.
-/
theorem exists_cached_beyond (Buf : Type) (args : CacheArgs) (counts : CountsTo Count 1)
    (several : 1 < oldSectionSize args.numberOfBlocks args.fOld)
    : ∃ (history : List (Touch BlockID)) (s : CacheManager Count Buf) (id : BlockID)
        (it : Iterator),
        Reaches args history s
        ∧ s.blocksMap id = some it
        ∧ reuseDistance id (history.map Touch.key) = args.numberOfBlocks := by
  have size := args.size_eq
  have oldSize := args.oldSize_eq
  have fits := args.sections.fits
  have within : 1 ≤ args.sections.size := by omega
  have other {id} (member : id ∈ blocksFrom 1 0 args.sections.size) : id.1 ≠ 0 := by
    rw [(mem_blocksFrom member).1]
    decide
  obtain ⟨s, reached⟩ := @exists_lastHits Count Buf _ _ _ _ args 1 within
  obtain ⟨s', reached'⟩ := reached.exists_scan (nodup_blocksFrom 1 0 args.sections.size)
    (by
      intro id member again
      rw [keys_lastHits within] at again
      rcases List.mem_append.mp again with hit | inserted
      · exact other member (mem_blocksFrom hit).1
      · exact other member (mem_blocksFrom inserted).1)
    (fun _ member => real_blocksFrom member)
  have often := @frequentKeys_scan_lastHits args.sections.newSize _ _ (by omega) within _
    (fun _ => other)
  have hit : ((0, ((args.sections.size - 1 : ℕ) : ℤ)) : BlockID)
      ∉ blocksFrom 1 0 args.sections.size := fun member => other member rfl
  obtain ⟨it, cached⟩ := reached'.frequent_mapped
    (by
      rw [hits_scan, hits_lastHits]
      exact counts)
    Nat.one_pos
    (by
      rw [often, List.toFinset_card_of_nodup (nodup_blocksFrom _ _ _), length_blocksFrom]
      omega)
    (often ▸ List.mem_toFinset.mpr List.mem_cons_self)
  refine ⟨_, s', _, it, reached', cached, ?_⟩
  rw [keys_scan, keys_lastHits within, blocksFrom_succ, List.cons_append,
    reuseDistance_append (nodup_blocksFrom _ _ _) hit, length_blocksFrom]
  exact size

/-- The manager caches exactly the `numberOfBlocks` most recently accessed blocks, in every run,
if and only if its old section has one place.
-/
theorem reaches_recent_iff (Buf : Type) (args : CacheArgs)
    (counts : CountsTo Count 1)
    : (∀ history (s : CacheManager Count Buf),
          Reaches args history s
          → ∀ id,
              (∃ it, s.blocksMap id = some it)
              ↔ id ∈ history.map Touch.key
                ∧ (reuseDistance id (history.map Touch.key) : ℤ) < args.numberOfBlocks)
      ↔ oldSectionSize args.numberOfBlocks args.fOld = 1 := by
  have sizes := args.sizes
  have size := args.size_eq
  have oldSize := args.oldSize_eq
  constructor
  · intro recent
    by_contra several
    obtain ⟨history, s, id, it, reached, cached, distance⟩ :=
      exists_cached_beyond Buf args counts (by omega)
    have near := ((recent history s reached id).mp ⟨it, cached⟩).2
    omega
  · intro single history s reached id
    obtain ⟨c, represents, tracks⟩ := reached.represents
    rw [represents.mapped_iff, tracks.mem_keys_iff (by omega)]
    refine and_congr_right (fun _ => ?_)
    omega

theorem reaches_recent_evictThenHit
    : ∃ s : CacheManager Int32 String,
        Reaches singleOldArgs evictThenHit s
        ∧ (∃ it, s.blocksMap (7, 1) = some it)
        ∧ ¬ ∃ it, s.blocksMap (7, 0) = some it := by
  have recent := (@reaches_recent_iff Int32 _ _ _ _ String singleOldArgs
    (countsTo_int32 (by decide))).mpr (by decide +kernel)
  obtain ⟨s, it, reached, _⟩ := reaches_evictThenHit Int32 String singleOldArgs
  refine ⟨s, reached, (recent _ s reached (7, 1)).mpr (by decide +kernel), ?_⟩
  exact fun cached => absurd ((recent _ s reached (7, 0)).mp cached) (by decide +kernel)

end CachingFileSystem.BufferCache
