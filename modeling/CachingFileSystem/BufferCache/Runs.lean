import CachingFileSystem.Transitions.Runs
import CachingFileSystem.BufferCache.Construction
import CachingFileSystem.ReplacementPolicy.Evolution

/-! Runs of a manager from its constructor, with the touches they make. Every state they
reach represents an abstract cache that evolved under these touches.
-/

namespace CachingFileSystem.BufferCache

open CachingFileSystem.Containers
open CachingFileSystem.ReplacementPolicy
open CachingFileSystem.Transitions

variable {cfg : Sections} {Count Buf : Type}

section Runs

variable [LinearOrder Count] [OrderTop Count] [One Count] [Add Count]

/-- One operation and the touch it makes. Only absent ids are inserted, as `caching_read`
inserts after a failed lookup, and only real block numbers.
-/
inductive Step (s : CacheManager Count Buf)
    : Option (Touch BlockID) → CacheManager Count Buf → Prop
  | hit {id it buff s'} (present : s.blocksMap id = some it)
    (retrieved : s.retrieveBuffer id = .ok (buff, s'))
    : Step s (some (.hit id)) s'
  | miss {id buff s'} (absent : s.blocksMap id = none)
    (retrieved : s.retrieveBuffer id = .ok (buff, s'))
    : Step s none s'
  | insert {id : BlockID} {buff path s'} (absent : s.blocksMap id = none)
    (real : id.2 ≠ nullBlock) (inserted : s.insertBlock id.1 id.2 buff path = .ok s')
    : Step s (some (.insert id)) s'
  | updatePaths (pathPrefix newPathPrefix : Path)
    : Step s none (s.updatePaths pathPrefix newPathPrefix)

/-- The manager that `main` constructs, under all its operations. -/
def managerSystem (args : CacheArgs)
    : System (CacheManager Count Buf) (Option (Touch BlockID)) where
  start s := s = .new args.numberOfBlocks args.fOld args.fNew
  step := Step

/-- Some run from the constructor ends in `s` and has touched `history`, latest first. -/
def Reaches (args : CacheArgs) (history : List (Touch BlockID)) (s : CacheManager Count Buf)
    : Prop :=
  ∃ labels, (managerSystem args).Run labels s ∧ labels.reduceOption = history

theorem reaches_new (args : CacheArgs)
    : Reaches args [] (.new args.numberOfBlocks args.fOld args.fNew : CacheManager Count Buf) :=
  ⟨[], .start rfl, rfl⟩

theorem Reaches.step {args : CacheArgs} {history label} {s s' : CacheManager Count Buf}
    (reached : Reaches args history s) (next : Step s label s')
    : Reaches args (label.toList ++ history) s' := by
  obtain ⟨labels, run, rfl⟩ := reached
  refine ⟨label :: labels, .step run next, ?_⟩
  cases label <;> rfl

/-- Every operation advances the abstract cache that the manager represents. -/
theorem Step.advance {s s' : CacheManager Count Buf} {label}
    {c : FrequencyCache cfg BlockID (Payload Buf) Count} (represents : Represents cfg s c)
    (next : Step s label s')
    : ∃ c' : FrequencyCache cfg BlockID (Payload Buf) Count,
        Represents cfg s' c' ∧ Advance c label c' := by
  cases next with
  | @hit id it _ _ present retrieved =>
      have known : id ∈ c.keys := (represents.mapped_iff id).mp ⟨it, present⟩
      obtain ⟨s'', again, represents'⟩ := retrieveBuffer_spec represents id
      cases retrieved.symm.trans again
      exact ⟨_, represents', .hit known⟩
  | @miss id _ _ absent retrieved =>
      have unknown := represents.not_mem absent
      obtain ⟨s'', again, represents'⟩ := retrieveBuffer_spec represents id
      rw [FrequencyCache.retrieve_of_not_mem unknown] at represents'
      cases retrieved.symm.trans again
      exact ⟨c, represents', .miss⟩
  | @insert id buff path _ absent real inserted =>
      have unknown := represents.not_mem absent
      obtain ⟨c', represents', entries⟩ := represents.inserted real inserted
      exact ⟨c', represents', .insert unknown entries⟩
  | updatePaths pathPrefix newPathPrefix =>
      exact ⟨_, updatePaths_represents represents _ _, .mapVals _⟩

/-- Reachable managers represent a cache that evolved under the same touches; by induction
on the run.
-/
theorem Reaches.evolves {args : CacheArgs} {history} {s : CacheManager Count Buf}
    (reached : Reaches args history s)
    : ∃ c : FrequencyCache args.sections BlockID (Payload Buf) Count,
        Represents args.sections s c ∧ Evolves history c := by
  obtain ⟨labels, run, rfl⟩ := reached
  refine System.Run.invariant
    (fun labels s =>
      ∃ c : FrequencyCache args.sections BlockID (Payload Buf) Count,
        Represents args.sections s c ∧ Evolves labels.reduceOption c) ?_ ?_ run
  · intro s start
    subst start
    exact ⟨.empty, new_represents args, evolves_empty⟩
  · intro labels label s s' before next
    rcases before with ⟨c, represents, evolves⟩
    obtain ⟨c', represents', advance⟩ := next.advance represents
    refine ⟨c', represents', ?_⟩
    have evolves' := evolves.advance advance
    cases label <;> exact evolves'

/-- So they represent a tracking cache. -/
theorem Reaches.represents {args : CacheArgs} {history} {s : CacheManager Count Buf}
    (reached : Reaches args history s)
    : ∃ c : FrequencyCache args.sections BlockID (Payload Buf) Count,
        Represents args.sections s c ∧ Tracks c history := by
  obtain ⟨c, represents, evolves⟩ := reached.evolves
  exact ⟨c, represents, evolves.tracks⟩

/-- Absent real blocks can be inserted in every reachable state. -/
theorem Reaches.exists_insert {args : CacheArgs} {history} {s : CacheManager Count Buf}
    (reached : Reaches args history s) {id : BlockID} (absent : s.blocksMap id = none)
    (real : id.2 ≠ nullBlock) (buff : Option Buf) (path : Option Path)
    : ∃ s' it,
        s.insertBlock id.1 id.2 buff path = .ok s'
        ∧ Reaches args (.insert id :: history) s'
        ∧ s'.blocksMap id = some it := by
  obtain ⟨c, h, _⟩ := reached.represents
  have unknown := h.not_mem absent
  obtain ⟨s', c', inserted, represents, entries⟩ := insertBlock_entries h unknown real buff path
  have present : id ∈ c'.keys := by
    rw [FrequencyCache.keys, entries]
    exact List.mem_cons_self
  obtain ⟨it, mapped⟩ := (represents.mapped_iff id).mpr present
  exact ⟨s', it, inserted, reached.step (.insert absent real inserted), mapped⟩

/-- Cached blocks can be retrieved in every reachable state. -/
theorem Reaches.exists_hit {args : CacheArgs} {history} {s : CacheManager Count Buf}
    (reached : Reaches args history s) {id it} (cached : s.blocksMap id = some it)
    : ∃ buff s' it',
        s.retrieveBuffer id = .ok (buff, s')
        ∧ Reaches args (.hit id :: history) s'
        ∧ s'.blocksMap id = some it' := by
  obtain ⟨c, h, _⟩ := reached.represents
  have present : id ∈ c.keys := (h.mapped_iff id).mp ⟨it, cached⟩
  obtain ⟨s', retrieved, represents⟩ := retrieveBuffer_spec h id
  obtain ⟨it', mapped⟩ := (represents.mapped_iff id).mpr (by
    rw [keys_retrieve present]
    exact List.mem_cons_self)
  exact ⟨_, s', it', retrieved, reached.step (.hit cached retrieved), mapped⟩

-----------------------------------------------------------------------------------------
-- Runs that insert one block after the other
-----------------------------------------------------------------------------------------

/-- A block that was never touched is not cached. -/
theorem Reaches.not_mapped {args : CacheArgs} {history} {s : CacheManager Count Buf}
    (reached : Reaches args history s) {id : BlockID}
    (untouched : id ∉ history.map Touch.key)
    : s.blocksMap id = none := by
  obtain ⟨c, represents, tracks⟩ := reached.represents
  exact represents.not_mapped (fun present => untouched (tracks.touched present))

theorem keys_scan (scanned : List BlockID) (history : List (Touch BlockID))
    : (scanned.map Touch.insert ++ history).map Touch.key
      = scanned ++ history.map Touch.key := by
  rw [List.map_append, List.map_map]
  exact congrArg (· ++ history.map Touch.key) (List.map_id scanned)

/-- Blocks that were never touched can be inserted one after the other; by induction on them. -/
theorem Reaches.exists_scan {args : CacheArgs} {history} {s : CacheManager Count Buf}
    (reached : Reaches args history s) {scanned : List BlockID}
    (distinct : scanned.Nodup) (untouched : ∀ id ∈ scanned, id ∉ history.map Touch.key)
    (real : ∀ id ∈ scanned, id.2 ≠ nullBlock)
    : ∃ s' : CacheManager Count Buf, Reaches args (scanned.map Touch.insert ++ history) s' := by
  induction scanned with
  | nil => exact ⟨s, reached⟩
  | cons id scanned ih =>
      obtain ⟨fresh, distinct⟩ := List.nodup_cons.mp distinct
      obtain ⟨s', reached'⟩ := ih distinct (fun other member =>
        untouched other (List.mem_cons_of_mem _ member)) (fun other member =>
        real other (List.mem_cons_of_mem _ member))
      have new : id ∉ (scanned.map Touch.insert ++ history).map Touch.key := by
        rw [keys_scan, List.mem_append, not_or]
        exact ⟨fresh, untouched id List.mem_cons_self⟩
      obtain ⟨s'', _, _, reached'', _⟩ := reached'.exists_insert (reached'.not_mapped new)
        (real id List.mem_cons_self) none none
      exact ⟨s'', reached''⟩

/-- Four blocks: one new, one middle and two old. -/
def twoOldArgs : CacheArgs := ⟨4, 1 / 2, 1 / 4, by decide +kernel⟩

/-- Four blocks, one of them old. -/
def singleOldArgs : CacheArgs := ⟨4, 1 / 4, 1 / 4, by decide +kernel⟩

/-- Five blocks are inserted, which takes an eviction if there are four places, and a block behind
the new section is hit.
-/
def evictThenHit : List (Touch BlockID) :=
  .hit (7, 3) :: [(7, 4), (7, 3), (7, 2), (7, 1), (7, 0)].map Touch.insert

theorem reaches_evictThenHit (Count Buf : Type) [LinearOrder Count] [OrderTop Count] [One Count]
    [Add Count] (args : CacheArgs)
    : ∃ (s : CacheManager Count Buf) (it : Iterator),
        Reaches args evictThenHit s ∧ s.blocksMap (7, 3) = some it := by
  obtain ⟨s, reached⟩ := (@reaches_new Count Buf _ _ _ _ args).exists_scan
    (by decide : [((7, 4) : BlockID), (7, 3), (7, 2), (7, 1), (7, 0)].Nodup)
    (fun _ _ => List.not_mem_nil) (by decide)
  obtain ⟨c, represents, tracks⟩ := reached.represents
  have second : reuseDistance ((7, 3) : BlockID)
      (([((7, 4) : BlockID), (7, 3), (7, 2), (7, 1), (7, 0)].map Touch.insert ++ []).map Touch.key)
      = 1 := by
    decide +kernel
  have near := args.sections.newPositive.trans_le args.sections.newSize_le_oldStart
  have present : (7, 3) ∈ c.keys := tracks.retains (by decide) (second ▸ near)
  obtain ⟨it, cached⟩ := (represents.mapped_iff _).mpr present
  obtain ⟨_, s', it', _, reached', cached'⟩ := reached.exists_hit cached
  exact ⟨s', it', reached', cached'⟩

end Runs

end CachingFileSystem.BufferCache
