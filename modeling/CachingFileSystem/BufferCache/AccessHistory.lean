import CachingFileSystem.BufferCache.Runs

/-! What counts and keeps a block, in terms of the history of accesses alone. -/

namespace CachingFileSystem.BufferCache

open CachingFileSystem.Containers
open CachingFileSystem.ReplacementPolicy
open CachingFileSystem.Transitions

variable {cfg : Sections} {Count Buf : Type}

-----------------------------------------------------------------------------------------
-- Reference counts
-----------------------------------------------------------------------------------------

/-- Unbounded counts add up. -/
theorem iterate_add_one (start : ℕ∞) (times : ℕ)
    : (· + 1)^[times] start = start + times := by
  induction times with
  | zero => simp
  | succ times ih =>
      rw [Function.iterate_succ_apply', ih, Nat.cast_succ, add_assoc]

/-- A cached block has been counted once for its insertion and once for every hit since
whose reuse distance was at least the size of the new section, and the next hit counts it
exactly when its reuse distance is that large again.
-/
theorem reaches_refCount {args : CacheArgs} {history} {s : CacheManager ℕ∞ Buf}
    (reached : Reaches args history s) {id it} (cached : s.blocksMap id = some it)
    : ∃ block head s' block',
        s.cacheChain.deref? it = some block
        ∧ block.refCount
          = 1 + farHits (newSectionSize args.numberOfBlocks args.fNew).toNat id history
        ∧ s.findBlock id = .ok (some head, s')
        ∧ s'.cacheChain.deref? head = some block'
        ∧ block'.refCount
          = if newSectionSize args.numberOfBlocks args.fNew
              ≤ reuseDistance id (history.map Touch.key)
            then block.refCount + 1
            else block.refCount := by
  obtain ⟨c, h, tracks⟩ := reached.represents
  obtain ⟨i, entry, here, rfl, designates⟩ := (h.mapped id it).mp cached
  obtain ⟨_, block, _, at', rfl, _⟩ := h.block here
  obtain ⟨head, s', found, represents, front⟩ := findBlock_of_entry h here
  have moved := (FrequencyCache.retrieve_of_entry here).2
  obtain ⟨_, block', _, first, entry', _⟩ :=
    represents.block (show (c.retrieve block.entry.key).2.entries[0]? = some _ by rw [moved]; rfl)
  refine ⟨block, head, s', block', designates.deref.trans at', ?_, found,
    front.deref.trans first, ?_⟩
  · have counted := tracks.counted _ (List.mem_of_getElem? here)
    rw [iterate_add_one] at counted
    exact counted
  · have present : block.entry.key ∈ c.keys := List.mem_map_of_mem (List.mem_of_getElem? here)
    have far := tracks.newSize_le_index_iff present
    rw [FrequencyCache.index_eq here] at far
    have same : block'.refCount = (block.entry.hitAt args.sections i).count :=
      congrArg Entry.count entry'
    rw [same, Entry.hitAt]
    simp only [← args.newSize_eq, Nat.cast_le, ← far]
    split <;> rfl

theorem reaches_refCount_evictThenHit
    : ∃ (s : CacheManager ℕ∞ String) (it : Iterator) (block : CacheBlock ℕ∞ String),
        Reaches twoOldArgs evictThenHit s
        ∧ s.blocksMap (7, 3) = some it
        ∧ s.cacheChain.deref? it = some block
        ∧ block.refCount = 2 := by
  obtain ⟨s, it, reached, cached⟩ := reaches_evictThenHit ℕ∞ String twoOldArgs
  obtain ⟨block, _, _, _, here, count, _⟩ := reaches_refCount reached cached
  refine ⟨s, it, block, reached, cached, here, ?_⟩
  have far : farHits (newSectionSize twoOldArgs.numberOfBlocks twoOldArgs.fNew).toNat
      ((7, 3) : BlockID) evictThenHit = 1 := by decide +kernel
  rw [count, far]
  rfl

-----------------------------------------------------------------------------------------
-- Retention
-----------------------------------------------------------------------------------------

section Accesses

variable [LinearOrder Count] [OrderTop Count] [One Count] [Add Count]

/-- One access, and the buffer it obtains: a lookup, followed on null by the insertion of the same
id with a buffer, as `caching_read` inserts what it has read.
-/
inductive Access (s : CacheManager Count Buf) : BlockID × Buf → CacheManager Count Buf → Prop
  | found {id buff s'} (retrieved : s.retrieveBuffer id = .ok (some buff, s'))
    : Access s (id, buff) s'
  | inserted {id : BlockID} {buff between path s'}
    (retrieved : s.retrieveBuffer id = .ok (none, between)) (real : id.2 ≠ nullBlock)
    (inserted : between.insertBlock id.1 id.2 (some buff) path = .ok s')
    : Access s (id, buff) s'

/-- The manager that `main` constructs, when its ids are only accessed. -/
def accessSystem (args : CacheArgs) : System (CacheManager Count Buf) (BlockID × Buf) where
  start s := s = .new args.numberOfBlocks args.fOld args.fNew
  step := Access

/-- The entries hold the buffers that the last accesses of their ids obtained. -/
def HoldsAccessed (c : FrequencyCache cfg BlockID (Payload Buf) Count)
    (accesses : List (BlockID × Buf))
    : Prop :=
  ∀ entry ∈ c.entries, ∃ buff,
    entry.val.buff = some buff ∧ accesses.lookup entry.key = some buff

omit [LinearOrder Count] [OrderTop Count] in
/-- So a lookup of such an id returns this buffer, and the block is at the front afterwards. -/
theorem Represents.retrieve_accessed {s : CacheManager Count Buf}
    {c : FrequencyCache cfg BlockID (Payload Buf) Count} (h : Represents cfg s c)
    {accesses : List (BlockID × Buf)} (holds : HoldsAccessed c accesses) {id : BlockID}
    (present : id ∈ c.keys)
    : ∃ buff s' head,
        accesses.lookup id = some buff
        ∧ s.retrieveBuffer id = .ok (some buff, s')
        ∧ s'.blocksMap id = some head
        ∧ s'.cacheChain.Designates head 0 := by
  obtain ⟨entry, here, rfl⟩ := FrequencyCache.exists_entry present
  obtain ⟨buff, stored, accessed⟩ := holds entry (List.mem_of_getElem? here)
  obtain ⟨returned, moved⟩ := FrequencyCache.retrieve_of_entry here
  obtain ⟨s', retrieved, represents⟩ := retrieveBuffer_spec h entry.key
  rw [returned, Option.bind_some, stored] at retrieved
  have first : (c.retrieve entry.key).2.entries[0]?
      = some (entry.hitAt cfg (c.index entry.key)) := by
    rw [moved]
    rfl
  obtain ⟨head, _, front, _⟩ := represents.block first
  exact ⟨buff, s', head, accessed, retrieved,
    (represents.mapped _ _).mpr ⟨0, _, first, Entry.hitAt_key _ _, front⟩, front⟩

omit [LinearOrder Count] [OrderTop Count] in
/-- A hit obtains the buffer of the last access again. -/
theorem HoldsAccessed.retrieve {c : FrequencyCache cfg BlockID (Payload Buf) Count}
    {accesses : List (BlockID × Buf)} (holds : HoldsAccessed c accesses) {id : BlockID}
    {buff : Buf} (accessed : accesses.lookup id = some buff)
    : HoldsAccessed (c.retrieve id).2 ((id, buff) :: accesses) := by
  intro entry member
  obtain ⟨old, before, key, val⟩ := FrequencyCache.mem_retrieve member
  obtain ⟨buff', stored, last⟩ := holds old before
  rw [key] at last
  refine ⟨buff', val ▸ stored, ?_⟩
  rcases Classical.em (entry.key = id) with same | other
  · rw [same] at last
    rw [same, List.lookup_cons_self, ← accessed, last]
  · rw [List.lookup_cons, beq_false_of_ne other]
    exact last

omit [OrderTop Count] [Add Count] in
/-- An insertion adds the inserted buffer, under a new id. -/
theorem HoldsAccessed.insert {c c' : FrequencyCache cfg BlockID (Payload Buf) Count}
    {accesses : List (BlockID × Buf)} (holds : HoldsAccessed c accesses) {id : BlockID}
    {buff : Buf} {path : Path} (absent : id ∉ c.keys)
    (inserted : c'.entries = ⟨id, ⟨some buff, path⟩, 1⟩ :: survivors cfg c.entries)
    : HoldsAccessed c' ((id, buff) :: accesses) := by
  intro entry member
  rw [inserted] at member
  rcases List.mem_cons.mp member with rfl | later
  · exact ⟨buff, rfl, List.lookup_cons_self⟩
  · have before := (survivors_sublist c.entries).subset later
    obtain ⟨buff', stored, last⟩ := holds entry before
    have other : entry.key ≠ id := by
      intro same
      exact absent (same ▸ List.mem_map_of_mem before)
    refine ⟨buff', stored, ?_⟩
    rw [List.lookup_cons, beq_false_of_ne other]
    exact last

/-- An access makes exactly one touch; witness: an id that was found has a buffer, so only an
absent one is inserted.
-/
theorem Access.advance {s s' : CacheManager Count Buf}
    {c : FrequencyCache cfg BlockID (Payload Buf) Count} (h : Represents cfg s c)
    {accesses : List (BlockID × Buf)} (holds : HoldsAccessed c accesses)
    {access : BlockID × Buf} (next : Access s access s')
    : ∃ (touch : Touch BlockID) (c' : FrequencyCache cfg BlockID (Payload Buf) Count),
        touch.key = access.1
        ∧ Represents cfg s' c'
        ∧ Advance c (some touch) c'
        ∧ HoldsAccessed c' (access :: accesses) := by
  cases next with
  | @found id buff _ retrieved =>
      rcases Classical.em (id ∈ c.keys) with present | absent
      · obtain ⟨buff', _, _, accessed, again, _⟩ := h.retrieve_accessed holds present
        cases retrieved.symm.trans again
        obtain ⟨_, again, represents⟩ := retrieveBuffer_spec h id
        obtain rfl := (Prod.mk.inj (Except.ok.inj (retrieved.symm.trans again))).2
        exact ⟨.hit id, _, rfl, represents, .hit present, holds.retrieve accessed⟩
      · cases retrieved.symm.trans (retrieveBuffer_of_not_mem h absent)
  | @inserted id buff between path _ retrieved real inserted =>
      rcases Classical.em (id ∈ c.keys) with present | absent
      · obtain ⟨_, _, _, _, again, _⟩ := h.retrieve_accessed holds present
        cases retrieved.symm.trans again
      · cases retrieved.symm.trans (retrieveBuffer_of_not_mem h absent)
        obtain ⟨c', represents, entries⟩ := h.inserted real inserted
        exact ⟨.insert id, c', rfl, represents, .insert absent entries,
          holds.insert absent entries⟩

/-- In a run of accesses the manager represents a cache that evolved under touches of the accessed
ids and holds what the accesses obtained.
-/
theorem accesses_evolve {args : CacheArgs} {accesses} {s : CacheManager Count Buf}
    (run : (accessSystem args).Run accesses s)
    : ∃ (history : List (Touch BlockID))
          (c : FrequencyCache args.sections BlockID (Payload Buf) Count),
        Represents args.sections s c
        ∧ Evolves history c
        ∧ history.map Touch.key = accesses.map Prod.fst
        ∧ HoldsAccessed c accesses := by
  refine System.Run.invariant
    (fun accesses s =>
      ∃ (history : List (Touch BlockID))
          (c : FrequencyCache args.sections BlockID (Payload Buf) Count),
        Represents args.sections s c
        ∧ Evolves history c
        ∧ history.map Touch.key = accesses.map Prod.fst
        ∧ HoldsAccessed c accesses) ?_ ?_ run
  · intro s start
    subst start
    exact ⟨[], .empty, new_represents args, evolves_empty, rfl, fun _ none => nomatch none⟩
  · intro accesses access s s' before next
    obtain ⟨history, c, represents, evolves, keys, holds⟩ := before
    obtain ⟨touch, c', key, represents', advance, holds'⟩ := next.advance represents holds
    refine ⟨touch :: history, c', represents', evolves.advance advance, ?_, holds'⟩
    rw [List.map_cons, List.map_cons, key, keys]

/-- After an access, a lookup of its id is a hit while at most `n - oldSize` distinct others have
been accessed: it returns the buffer that this access obtained, and moves the block to the front.
An insertion evicts only an id with at least that many, and never the inserted one.
-/
theorem accesses_retain {args : CacheArgs} {accesses} {s : CacheManager Count Buf}
    (run : (accessSystem args).Run accesses s)
    : (∀ id ∈ accesses.map Prod.fst,
        reuseDistance id (accesses.map Prod.fst)
          ≤ args.numberOfBlocks - oldSectionSize args.numberOfBlocks args.fOld
        → ∃ buff s' head,
            accesses.lookup id = some buff
            ∧ s.retrieveBuffer id = .ok (some buff, s')
            ∧ s'.blocksMap id = some head
            ∧ s'.cacheChain.Designates head 0)
      ∧ ∀ id buff path evicted s',
          s.blocksMap id = none
          → s.insertAndRemove id.1 id.2 buff path = .ok (some evicted, s')
          → evicted ≠ id
            ∧ args.numberOfBlocks - oldSectionSize args.numberOfBlocks args.fOld
              ≤ reuseDistance evicted (accesses.map Prod.fst) := by
  obtain ⟨history, c, h, evolves, keys, holds⟩ := accesses_evolve run
  have tracks := evolves.tracks
  rw [← args.oldStart_eq, ← keys]
  constructor
  · intro id accessed near
    exact h.retrieve_accessed holds (tracks.retains accessed (by exact_mod_cast near))
  · intro id buff path evicted s' absent removal
    have unknown := h.not_mem absent
    obtain ⟨_, removal', _⟩ := insertAndRemove_spec h unknown buff path
    have chosen := (Prod.mk.inj (Except.ok.inj (removal.symm.trans removal'))).1
    obtain ⟨present, far⟩ := tracks.oldStart_le_victim chosen.symm
    exact ⟨fun same => unknown (same ▸ present), by exact_mod_cast far⟩

/-- Every real id can be accessed in every state of a run. -/
theorem exists_access {args : CacheArgs} {accesses} {s : CacheManager Count Buf}
    (run : (accessSystem args).Run accesses s) {id : BlockID} (real : id.2 ≠ nullBlock)
    (read : Buf)
    : ∃ (buff : Buf) (s' : CacheManager Count Buf),
        (accessSystem args).Run ((id, buff) :: accesses) s' := by
  obtain ⟨_, c, h, _, _, holds⟩ := accesses_evolve run
  rcases Classical.em (id ∈ c.keys) with present | absent
  · obtain ⟨buff, s', _, _, retrieved, _⟩ := h.retrieve_accessed holds present
    exact ⟨buff, s', .step run (.found retrieved)⟩
  · obtain ⟨s', _, inserted, _⟩ := insertBlock_spec h absent real (some read) none
    exact ⟨read, s',
      .step run (.inserted (retrieveBuffer_of_not_mem h absent) real inserted)⟩

/-- So ids can be accessed in any order; by induction on them. -/
theorem exists_accesses (args : CacheArgs) (read : Buf) {ids : List BlockID}
    (real : ∀ id ∈ ids, id.2 ≠ nullBlock)
    : ∃ accesses, ∃ s : CacheManager Count Buf,
        (accessSystem args).Run accesses s ∧ accesses.map Prod.fst = ids := by
  induction ids with
  | nil => exact ⟨[], _, .start rfl, rfl⟩
  | cons id ids ih =>
      obtain ⟨accesses, s, run, rfl⟩ :=
        ih (fun other member => real other (List.mem_cons_of_mem _ member))
      obtain ⟨buff, s', run'⟩ := exists_access run (real id List.mem_cons_self) read
      exact ⟨(id, buff) :: accesses, s', run', rfl⟩

end Accesses

/-- The second access of a block is a hit, after an eviction; the block accessed before it is still
found.
-/
theorem accesses_retain_evictThenHit
    : ∃ (accesses : List (BlockID × String)) (s s' : CacheManager Int32 String) (buff : String)
          (head : Iterator),
        (accessSystem twoOldArgs).Run accesses s
        ∧ accesses.map Prod.fst = [(7, 3), (7, 4), (7, 3), (7, 2), (7, 1), (7, 0)]
        ∧ accesses.lookup (7, 4) = some buff
        ∧ s.retrieveBuffer (7, 4) = .ok (some buff, s')
        ∧ s'.blocksMap (7, 4) = some head
        ∧ s'.cacheChain.Designates head 0 := by
  obtain ⟨accesses, s, run, ids⟩ := @exists_accesses Int32 String _ _ _ _ twoOldArgs "data"
    [(7, 3), (7, 4), (7, 3), (7, 2), (7, 1), (7, 0)] (by decide)
  obtain ⟨buff, s', head, retrieved⟩ :=
    (accesses_retain run).1 (7, 4) (by rw [ids]; decide) (by rw [ids]; decide +kernel)
  exact ⟨accesses, s, s', buff, head, run, ids, retrieved⟩

end CachingFileSystem.BufferCache
