import CachingFileSystem.FileSystem.DuplicateInserts
import CachingFileSystem.ReplacementPolicy.Competitiveness
import CachingFileSystem.ReplacementPolicy.Thrashing

/-! The block reads of whole runs of reads and renames, counted against the blocks these serve. -/

namespace CachingFileSystem.FileSystem

open CachingFileSystem.BufferCache
open CachingFileSystem.Containers
open CachingFileSystem.ReplacementPolicy
open CachingFileSystem.Transitions

variable {Count : Type}

/-- The blocks a call copied from, latest first. -/
def ReadState.served (st : ReadState Count) (r : Request) : List BlockID :=
  (st.copies.map (fun copy => r.blockID copy.block)).reverse

/-- The blocks that were read successfully. -/
def diskReads (preads : List (BlockID × Bool)) : List BlockID :=
  (preads.filter Prod.snd).map Prod.fst

/-- What one operation serves and reads, latest first. -/
structure Traffic where
  served : List BlockID
  preads : List (BlockID × Bool)

section Runs

variable [LinearOrder Count] [OrderTop Count] [One Count] [Add Count]

/-- Reads of any files with any outcome of their block reads, and renames. -/
inductive TrafficStep (cfs : CfsState) (s : CacheManager Count BlockBuf)
    : Traffic → CacheManager Count BlockBuf → Prop
  | read {pread r ret st} (called : cachingRead cfs pread s r = .ok (ret, st))
    : TrafficStep cfs s ⟨st.served r, st.preads⟩ st.cacheManager
  | rename (rename : Path → Path → Except ℤ ℤ) (path newpath : Path)
    : TrafficStep cfs s ⟨[], []⟩ (cachingRename cfs rename s path newpath).2

def trafficSystem (args : CacheArgs) (cfs : CfsState)
    : System (CacheManager Count BlockBuf) Traffic where
  start s := s = .new args.numberOfBlocks args.fOld args.fNew
  step := TrafficStep cfs

/-- All blocks a run served, and all it read. -/
def servedBlocks (labels : List Traffic) : List BlockID := labels.flatMap Traffic.served
def blockReads (labels : List Traffic) : List (BlockID × Bool) := labels.flatMap Traffic.preads

-----------------------------------------------------------------------------------------
-- The touches of a run
-----------------------------------------------------------------------------------------

variable {args : CacheArgs} {cfs : CfsState} {pread : Pread} {r : Request} {block : ℤ}
  {st st' : ReadState Count} {s : CacheManager Count BlockBuf}

theorem step_inserted {s' : CacheManager Count BlockBuf} {fileId blockNumber : ℤ}
    {buff : Option BlockBuf} {path : Option Path}
    (absent : s.blocksMap (fileId, blockNumber) = none) (real : blockNumber ≠ nullBlock)
    (inserted : s.insertBlock fileId blockNumber buff path = .ok s')
    : Step s (some (.insert (fileId, blockNumber))) s' :=
  .insert absent real inserted

/-- What fetching a block does: a hit, an insertion after a successful read, or nothing but a
failed read.
-/
theorem fetchBlock_cases {cfg : Sections} {preads : List (BlockID × Bool)}
    {c : FrequencyCache cfg BlockID (Payload BlockBuf) Count}
    (coherent : Coherent Set.univ AnyBuffer st.cacheManager preads c) (visited : Visited r block)
    {fetched : Except ℤ BlockBuf} (completed : fetchBlock pread r block st = .ok (fetched, st'))
    : st'.copies = st.copies
      ∧ ((∃ buf, fetched = .ok buf
            ∧ Step st.cacheManager (some (.hit (r.blockID block))) st'.cacheManager
            ∧ st'.preads = st.preads)
        ∨ (∃ buf, fetched = .ok buf
            ∧ Step st.cacheManager (some (.insert (r.blockID block))) st'.cacheManager
            ∧ st'.preads = (r.blockID block, true) :: st.preads)
        ∨ (∃ errno, fetched = .error errno
            ∧ st'.cacheManager = st.cacheManager
            ∧ st'.preads = (r.blockID block, false) :: st.preads)) := by
  obtain ⟨buff, s', retrieved, missing, unchanged⟩ := coherent.retrieve_none_iff (r.blockID block)
  simp only [fetchBlock, Request.checkedInt_block visited.inside visited.low visited.high, ok_bind,
    retrieved] at completed
  cases buff with
  | some buf =>
      cases completed
      refine ⟨rfl, .inl ⟨buf, rfl, ?_, rfl⟩⟩
      obtain ⟨it, mapped⟩ := Option.ne_none_iff_exists'.mp
        (fun none => Option.some_ne_none buf (missing.mpr none))
      exact .hit mapped retrieved
  | none =>
      obtain rfl := unchanged rfl
      have absent := missing.mp rfl
      split at completed
      · next none => cases none
      split at completed
      · cases completed
        exact ⟨rfl, .inr (.inr ⟨_, rfl, rfl, rfl⟩)⟩
      · obtain ⟨s', inserted, same⟩ := bind_eq_ok_iff.mp completed
        cases same
        have step := step_inserted absent visited.real inserted
        exact ⟨rfl, .inr (.inl ⟨_, rfl, step, rfl⟩)⟩

/-- After a history the manager was reached by touching the served blocks and inserting those
read.
-/
def Traced (args : CacheArgs) (base : List (Touch BlockID)) (served reads : List BlockID)
    (s : CacheManager Count BlockBuf)
    : Prop :=
  ∃ recent,
    Reaches args (recent ++ base) s ∧ recent.map Touch.key = served ∧ insertedKeys recent = reads

variable {base : List (Touch BlockID)}

/-- An iteration of the block loop touches the block it serves, and inserts it if it is read. -/
theorem Traced.readBlock {served reads : List BlockID} {preads : List (BlockID × Bool)}
    {left : Option ℤ} {c : FrequencyCache args.sections BlockID (Payload BlockBuf) Count}
    (h : Traced args base (st.served r ++ served) (diskReads st.preads ++ reads) st.cacheManager)
    (coherent : Coherent Set.univ AnyBuffer st.cacheManager preads c) (visited : Visited r block)
    (completed : readBlock pread r block st = .ok (left, st'))
    : Traced args base (st'.served r ++ served) (diskReads st'.preads ++ reads)
        st'.cacheManager := by
  obtain ⟨history, reached, keys, inserted⟩ := h
  obtain ⟨⟨fetched, between⟩, fetch, completed⟩ := bind_eq_ok_iff.mp completed
  obtain ⟨copies, cases⟩ := fetchBlock_cases coherent visited fetch
  cases fetched with
  | error errno =>
      cases completed
      obtain ⟨_, none, _⟩ | ⟨_, none, _⟩ | ⟨_, _, unchanged, preads'⟩ := cases
      · cases none
      · cases none
      refine ⟨history, unchanged ▸ reached, ?_, ?_⟩
      · rw [keys, ReadState.served, ReadState.served, copies]
      · rw [inserted, preads']
        rfl
  | ok buf =>
      obtain ⟨last, copied, same⟩ := bind_eq_ok_iff.mp completed
      cases same
      obtain ⟨cache, preadsKept, copy, blockEq, _, copies'⟩ := copyBlock_keeps copied
      have served' : st'.served r = r.blockID block :: st.served r := by
        simp only [ReadState.served, copies', copies, List.map_append, List.map_cons,
          List.map_nil, List.reverse_append, List.reverse_cons, List.reverse_nil,
          List.nil_append, List.singleton_append, blockEq]
      rw [served', cache, preadsKept]
      obtain ⟨_, _, step, preads'⟩ | ⟨_, _, step, preads'⟩ | ⟨_, none, _⟩ := cases
      · refine ⟨.hit (r.blockID block) :: history, reached.step step, ?_, ?_⟩
        · rw [List.map_cons, keys]
          rfl
        · rw [preads', ← inserted]
          rfl
      · refine ⟨.insert (r.blockID block) :: history, reached.step step, ?_, ?_⟩
        · rw [List.map_cons, keys]
          rfl
        · rw [preads', insertedKeys, inserted]
          rfl
      · cases none

/-- So does a whole call; by the loop rule. -/
theorem Traced.cachingRead {served reads : List BlockID} {preads : List (BlockID × Bool)}
    {ret : ℤ} {last : ReadState Count}
    {c : FrequencyCache args.sections BlockID (Payload BlockBuf) Count}
    (h : Traced args base served reads s) (coherent : Coherent Set.univ AnyBuffer s preads c)
    (called : cachingRead cfs pread s r = .ok (ret, last))
    : Traced args base (last.served r ++ served) (diskReads last.preads ++ reads)
        last.cacheManager := by
  have result := cachingRead_result cfs pread s r
  rw [called] at result
  cases result with
  | atOnce => exact h
  | looped _ inside loop =>
      have both := forRange_preserves
        (fun st => Serving Set.univ AnyBuffer args.sections r preads st
          ∧ Traced args base (st.served r ++ served) (diskReads st.preads ++ reads) st.cacheManager)
        (fun block st left st' low high before completed => ?_)
        (show _ ∧ _ from ⟨coherent.serving_start r, h⟩) loop
      · exact both.2
      · have visited := inside.visited_of_lt low high
        obtain ⟨c', coherent'⟩ := before.1.coherent
        exact ⟨before.1.readBlock (Set.mem_univ _) (preadSound_any _ pread) visited completed,
          before.2.readBlock coherent' visited completed⟩

/-- The manager is traced and its cache coherent. -/
structure ServedSince (args : CacheArgs) (base : List (Touch BlockID)) (labels : List Traffic)
    (s : CacheManager Count BlockBuf)
    : Prop where
  coherent
    : ∃ preads,
        ∃ c : FrequencyCache args.sections BlockID (Payload BlockBuf) Count,
          Coherent Set.univ AnyBuffer s preads c
  traced : Traced args base (servedBlocks labels) (diskReads (blockReads labels)) s

/-- Reads and renames extend what was touched. -/
theorem ServedSince.step {labels : List Traffic} {label : Traffic}
    {s' : CacheManager Count BlockBuf} (h : ServedSince args base labels s)
    (next : TrafficStep cfs s label s')
    : ServedSince args base (label :: labels) s' := by
  obtain ⟨⟨preads, c, coherent⟩, traced⟩ := h
  cases next with
  | @read pread r ret st called =>
      obtain ⟨c', coherent'⟩ :=
        (coherent.serving (Set.mem_univ _) (preadSound_any _ pread) called).coherent
      refine ⟨⟨_, c', coherent'⟩, ?_⟩
      have longer := traced.cachingRead coherent called
      rwa [diskReads, diskReads, ← List.map_append, ← List.filter_append] at longer
  | rename rename path newpath =>
      obtain ⟨c', coherent'⟩ := @Coherent.renamed _ _ _ _ cfs _ _ _ coherent rename path newpath
      refine ⟨⟨preads, c', coherent'⟩, ?_⟩
      obtain ⟨history, reached, keys, inserted⟩ := traced
      simp only [cachingRename, cachingRenameAt]
      split
      · exact ⟨history, reached, keys, inserted⟩
      split
      · exact ⟨history, reached, keys, inserted⟩
      · exact ⟨history, reached.step (.updatePaths path newpath), keys, inserted⟩

/-- Every run of reads and renames is such a run of touches, and leaves the cache coherent; by
induction on the run.
-/
theorem trafficRun_served {labels : List Traffic} (run : (trafficSystem args cfs).Run labels s)
    : ServedSince args [] labels s := by
  refine System.Run.invariant (fun labels s => ServedSince args [] labels s) ?_ ?_ run
  · intro s start
    subst start
    exact ⟨⟨[], .empty, coherent_new args⟩, [], reaches_new args, rfl, rfl⟩
  · intro labels label s s' before next
    exact before.step next

theorem trafficRun_traced {labels : List Traffic} (run : (trafficSystem args cfs).Run labels s)
    : ∃ history,
        Reaches args history s
        ∧ history.map Touch.key = servedBlocks labels
        ∧ insertedKeys history = diskReads (blockReads labels) := by
  obtain ⟨history, reached, keys, inserted⟩ := (trafficRun_served run).traced
  rw [List.append_nil] at reached
  exact ⟨history, reached, keys, inserted⟩

-----------------------------------------------------------------------------------------
-- Runs over one small file
-----------------------------------------------------------------------------------------

/-- Four bytes in two blocks. -/
theorem twoBytes_positive : (0 : ℤ) < 2 := by decide

theorem twoBytes_fits : (2 : ℤ) < 2 ^ 31 := by decide

def fourBytes : File := ⟨1, 7, 2, [1, 2, 3, 4], twoBytes_positive, twoBytes_fits⟩

def fourBytesRequest : Request := ⟨['/', 'a'], fourBytes, 4, 0⟩

/-- Serving the file once from an empty cache reads both of its blocks. -/
def fourBytesTraffic : Traffic := ⟨[(7, 1), (7, 0)], [((7, 1), true), ((7, 0), true)]⟩

/-- The cache a call leaves. -/
def cacheAfter (cfs : CfsState) (pread : Pread) (s : CacheManager Count BlockBuf) (r : Request)
    : CacheManager Count BlockBuf :=
  match cachingRead cfs pread s r with
  | .ok (_, st) => st.cacheManager
  | .error _ => s

/-- A call that was seen to serve and to read these blocks. -/
theorem trafficStep_of_answer {label : Traffic}
    (traffic
      : (cachingRead cfs pread s r).toOption.map
          (fun answer => (answer.2.served r, answer.2.preads))
        = some (label.served, label.preads))
    : TrafficStep cfs s label (cacheAfter cfs pread s r) := by
  rcases answer : cachingRead cfs pread s r with halt | ⟨ret, st⟩
  · rw [answer] at traffic
    cases traffic
  · rw [answer] at traffic
    obtain ⟨served, preads⟩ := Prod.mk.inj (Option.some.inj traffic)
    have step : TrafficStep cfs s _ _ := .read answer
    dsimp only at served preads
    rw [served, preads] at step
    rw [cacheAfter, answer]
    exact step

theorem exists_fourBytes_read {args : CacheArgs}
    (traffic
      : (cachingRead (.below []) wholePread
          (.new args.numberOfBlocks args.fOld args.fNew : CacheManager Int32 BlockBuf)
          fourBytesRequest).toOption.map
            (fun answer => (answer.2.served fourBytesRequest, answer.2.preads))
        = some (fourBytesTraffic.served, fourBytesTraffic.preads))
    : ∃ s : CacheManager Int32 BlockBuf,
        (trafficSystem args (.below [])).Run [fourBytesTraffic] s :=
  ⟨_, .step (.start rfl) (trafficStep_of_answer traffic)⟩

-----------------------------------------------------------------------------------------
-- How many blocks are read
-----------------------------------------------------------------------------------------

/-- The number of block reads against any other way to serve the same blocks from no more than
`k = numberOfBlocks - oldSectionSize + 1` places: with `places` of them the run reads at most
`k / (k + 1 - places)` times as many, but for the first `k`.
-/
theorem trafficRun_competitive {labels : List Traffic} {places fetched : ℕ}
    {held : Finset BlockID} (run : (trafficSystem args cfs).Run labels s)
    (fits
      : places ≤ args.numberOfBlocks - oldSectionSize args.numberOfBlocks args.fOld + 1)
    (serves : Serves places (servedBlocks labels) held fetched)
    : (args.numberOfBlocks - oldSectionSize args.numberOfBlocks args.fOld + 2 - places)
        * (diskReads (blockReads labels)).length
      ≤ (args.numberOfBlocks - oldSectionSize args.numberOfBlocks args.fOld + 1) * fetched
        + (args.numberOfBlocks - oldSectionSize args.numberOfBlocks args.fOld + 2 - places)
          * (args.numberOfBlocks - oldSectionSize args.numberOfBlocks args.fOld + 1) := by
  obtain ⟨history, reached, keys, inserted⟩ := trafficRun_traced run
  obtain ⟨c, _, evolves⟩ := reached.evolves
  have fewer := evolves.insertions_le
  rw [keys, ← length_insertedKeys, inserted] at fewer
  have bound := serves.recencyMisses_le (Nat.succ_pos args.sections.oldStart)
  have product := Nat.mul_le_mul_left (args.sections.oldStart + 1 + 1 - places) fewer
  rw [← args.oldStart_eq] at fits ⊢
  have total : ((args.sections.oldStart + 1 + 1 - places : ℕ) : ℤ)
      = args.sections.oldStart + 2 - places := by omega
  rw [← total]
  exact_mod_cast product.trans bound

theorem trafficRun_competitive_fourBytes
    : ∃ s : CacheManager Int32 BlockBuf,
        (trafficSystem twoOldArgs (.below [])).Run [fourBytesTraffic] s
        ∧ (4 - oldSectionSize 4 (1 / 2) + 2 - (1 : ℕ))
            * (diskReads (blockReads [fourBytesTraffic])).length
          ≤ (4 - oldSectionSize 4 (1 / 2) + 1) * (2 : ℕ)
            + (4 - oldSectionSize 4 (1 / 2) + 2 - (1 : ℕ))
              * (4 - oldSectionSize 4 (1 / 2) + 1) := by
  obtain ⟨s, run⟩ := @exists_fourBytes_read twoOldArgs (by decide +kernel)
  have serves : Serves 1 [((7, 1) : BlockID), (7, 0)] {(7, 1)} 2 :=
    .access (.access .start (Finset.mem_singleton_self ((7, 0) : BlockID)) (Nat.le_refl 1))
      (Finset.mem_singleton_self _) (Nat.le_refl 1)
  exact ⟨s, run, trafficRun_competitive run (by decide +kernel) serves⟩

/-- While a run serves no more distinct blocks than there are places, it reads each of them
exactly once.
-/
theorem trafficRun_workingSet {labels : List Traffic}
    (run : (trafficSystem args cfs).Run labels s)
    (few : ((servedBlocks labels).toFinset.card : ℤ) ≤ args.numberOfBlocks)
    : (diskReads (blockReads labels)).Nodup
      ∧ ∀ id, id ∈ diskReads (blockReads labels) ↔ id ∈ servedBlocks labels := by
  obtain ⟨history, reached, keys, inserted⟩ := trafficRun_traced run
  obtain ⟨c, _, evolves⟩ := reached.evolves
  have working := evolves.workingSet
  rw [← args.size_eq] at few
  rw [← keys] at few ⊢
  rw [← inserted]
  exact ⟨working.once (by exact_mod_cast few), fun id =>
    ⟨touched_of_inserted, working.inserted id⟩⟩

theorem trafficRun_workingSet_fourBytes
    : ∃ s : CacheManager Int32 BlockBuf,
        (trafficSystem twoOldArgs (.below [])).Run [fourBytesTraffic] s
        ∧ (diskReads (blockReads [fourBytesTraffic])).Nodup := by
  obtain ⟨s, run⟩ := @exists_fourBytes_read twoOldArgs (by decide +kernel)
  exact ⟨s, run, (trafficRun_workingSet run (by decide +kernel)).1⟩

/-- The cache is of no use, and every block that is served is read, exactly in the runs that serve
between two times of one block at least `numberOfBlocks` other ones.
-/
theorem trafficRun_thrashing {labels : List Traffic} (run : (trafficSystem args cfs).Run labels s)
    : diskReads (blockReads labels) = servedBlocks labels
      ↔ AlwaysFar args.numberOfBlocks.toNat (servedBlocks labels) := by
  obtain ⟨history, reached, keys, inserted⟩ := trafficRun_traced run
  obtain ⟨c, _, evolves⟩ := reached.evolves
  have size : args.sections.size = args.numberOfBlocks.toNat := by
    rw [← args.size_eq, Int.toNat_natCast]
  rw [← keys, ← inserted, ← size]
  exact evolves.insertedKeys_eq_iff

theorem trafficRun_thrashing_fourBytes
    : ∃ s : CacheManager Int32 BlockBuf,
        (trafficSystem twoOldArgs (.below [])).Run [fourBytesTraffic] s
        ∧ (diskReads (blockReads [fourBytesTraffic]) = servedBlocks [fourBytesTraffic]
          ↔ AlwaysFar 4 (servedBlocks [fourBytesTraffic])) := by
  obtain ⟨s, run⟩ := @exists_fourBytes_read twoOldArgs (by decide +kernel)
  exact ⟨s, run, trafficRun_thrashing run⟩

/-- Two caches with a single old place each that serve the same blocks: the larger one reads no
more of them.
-/
theorem trafficRun_larger {args' : CacheArgs} {cfs' : CfsState} {labels labels' : List Traffic}
    {s' : CacheManager Count BlockBuf} (run : (trafficSystem args cfs).Run labels s)
    (run' : (trafficSystem args' cfs').Run labels' s')
    (same : servedBlocks labels = servedBlocks labels')
    (single : oldSectionSize args.numberOfBlocks args.fOld = 1)
    (single' : oldSectionSize args'.numberOfBlocks args'.fOld = 1)
    (larger : args.numberOfBlocks ≤ args'.numberOfBlocks)
    : (diskReads (blockReads labels')).length ≤ (diskReads (blockReads labels)).length
      ∧ ∀ id it, s.blocksMap id = some it → ∃ it', s'.blocksMap id = some it' := by
  obtain ⟨history, reached, keys, inserted⟩ := trafficRun_traced run
  obtain ⟨history', reached', keys', inserted'⟩ := trafficRun_traced run'
  obtain ⟨c, represents, evolves⟩ := reached.evolves
  obtain ⟨c', represents', evolves'⟩ := reached'.evolves
  have places := args.size_eq
  have places' := args'.size_eq
  have old := args.oldSize_eq
  have old' := args'.oldSize_eq
  constructor
  · have reads := evolves.insertions_eq (by omega)
    have reads' := evolves'.insertions_eq (by omega)
    rw [← length_insertedKeys, inserted, keys] at reads
    rw [← length_insertedKeys, inserted', keys', ← same] at reads'
    rw [reads, reads']
    exact recencyMisses_antitone (by omega) _
  · intro id it cached
    rw [represents'.mapped_iff, evolves'.tracks.mem_keys_iff (by omega), keys', ← same]
    have present := (represents.mapped_iff id).mp ⟨it, cached⟩
    rw [evolves.tracks.mem_keys_iff (by omega), keys] at present
    exact ⟨present.1, by omega⟩

/-- Eight blocks, one of them old. -/
def eighthArgs : CacheArgs := ⟨8, 1 / 8, 1 / 4, by decide +kernel⟩

theorem trafficRun_larger_fourBytes
    : ∃ s s' : CacheManager Int32 BlockBuf,
        (trafficSystem singleOldArgs (.below [])).Run [fourBytesTraffic] s
        ∧ (trafficSystem eighthArgs (.below [])).Run [fourBytesTraffic] s'
        ∧ ∀ id it, s.blocksMap id = some it → ∃ it', s'.blocksMap id = some it' := by
  obtain ⟨s, run⟩ := @exists_fourBytes_read singleOldArgs (by decide +kernel)
  obtain ⟨s', run'⟩ := @exists_fourBytes_read eighthArgs (by decide +kernel)
  exact ⟨s, s', run, run', (trafficRun_larger run run' rfl (by decide +kernel) (by decide +kernel)
    (by decide)).2⟩

/-- From any state of a run on: while the calls that follow serve no more than
`numberOfBlocks - oldSectionSize + 1` distinct blocks, none of these is read twice, however often
it is served and however many block reads fail.
-/
theorem trafficRun_phase {earlier later : List Traffic} {s' : CacheManager Count BlockBuf}
    (run : (trafficSystem args cfs).Run earlier s) (phase : Steps (TrafficStep cfs) s later s')
    (few
      : ((servedBlocks later).toFinset.card : ℤ)
        ≤ args.numberOfBlocks - oldSectionSize args.numberOfBlocks args.fOld + 1)
    : (diskReads (blockReads later)).Nodup := by
  obtain ⟨history, reached, _, _⟩ := trafficRun_traced run
  have start : ServedSince args history [] s :=
    ⟨(trafficRun_served run).coherent, [], reached, rfl, rfl⟩
  have served : ServedSince args history later s' := by
    refine phase.invariant (fun labels s => ServedSince args history labels s) start ?_
    intro labels s label s' before next
    exact before.step next
  obtain ⟨recent, reached, keys, inserted⟩ := served.traced
  obtain ⟨c, _, evolves⟩ := reached.evolves
  rw [← args.oldStart_eq, ← keys] at few
  rw [← inserted]
  exact evolves.farInsertions.nodup (by exact_mod_cast few)

/-- A disk whose second block cannot be read. -/
def halfPread : Pread := fun file count offset =>
  if offset = 2 then .error 5 else wholePread file count offset

/-- The file is read, first with a disk that fails and then with one that does not. -/
theorem trafficRun_phase_retry
    : ∃ s : CacheManager Int32 BlockBuf,
        Steps (TrafficStep (.below [])) (.new 4 (1 / 2) (1 / 4))
          [⟨[(7, 1), (7, 0)], [((7, 1), true)]⟩, ⟨[(7, 0)], [((7, 1), false), ((7, 0), true)]⟩] s
        ∧ (diskReads (blockReads
            [
              ⟨[(7, 1), (7, 0)], [((7, 1), true)]⟩,
              ⟨[(7, 0)], [((7, 1), false), ((7, 0), true)]⟩
            ])).Nodup := by
  have failed : TrafficStep (.below []) (.new 4 (1 / 2) (1 / 4) : CacheManager Int32 BlockBuf)
      ⟨[(7, 0)], [((7, 1), false), ((7, 0), true)]⟩
      (cacheAfter (.below []) halfPread (.new 4 (1 / 2) (1 / 4)) fourBytesRequest) :=
    trafficStep_of_answer (by decide +kernel)
  have retried : TrafficStep (.below [])
      (cacheAfter (.below []) halfPread (.new 4 (1 / 2) (1 / 4) : CacheManager Int32 BlockBuf)
        fourBytesRequest)
      ⟨[(7, 1), (7, 0)], [((7, 1), true)]⟩ _ :=
    @trafficStep_of_answer _ _ _ _ _ _ wholePread fourBytesRequest _ _ (by decide +kernel)
  have phase := (Steps.none.more failed).more retried
  have run : (trafficSystem twoOldArgs (.below [])).Run []
      (.new 4 (1 / 2) (1 / 4) : CacheManager Int32 BlockBuf) :=
    .start rfl
  exact ⟨_, phase, trafficRun_phase run phase (by decide +kernel)⟩

-----------------------------------------------------------------------------------------
-- Reads that need no disk
-----------------------------------------------------------------------------------------

/-- A cached block is fetched without the disk. -/
theorem Coherent.fetch_cached {cfg : Sections} {preads : List (BlockID × Bool)}
    {c : FrequencyCache cfg BlockID (Payload BlockBuf) Count} {it : Iterator}
    (coherent : Coherent Set.univ AnyBuffer st.cacheManager preads c) (visited : Visited r block)
    (cached : st.cacheManager.blocksMap (r.blockID block) = some it) (pread : Pread)
    : ∃ buf s',
        st.cacheManager.retrieveBuffer (r.blockID block) = .ok (some buf, s')
        ∧ fetchBlock pread r block st = .ok (.ok buf, { st with cacheManager := s' }) := by
  obtain ⟨buff, s', retrieved, missing, _⟩ := coherent.retrieve_none_iff (r.blockID block)
  cases buff with
  | none => cases (missing.mp rfl).symm.trans cached
  | some buf =>
      refine ⟨buf, s', retrieved, ?_⟩
      simp only [fetchBlock, Request.checkedInt_block visited.inside visited.low visited.high,
        ok_bind, retrieved]

/-- What holds in a read all of whose blocks are in the window that was served last. -/
structure ServesWindow (args : CacheArgs) (r : Request) (window older reads : List BlockID)
    (preads : List (BlockID × Bool)) (st : ReadState Count)
    : Prop where
  serving : Serving Set.univ AnyBuffer args.sections r preads st
  traced
    : Traced args [] (st.served r ++ (window ++ older)) (diskReads st.preads ++ reads)
        st.cacheManager
  within : ∀ id ∈ st.served r, id ∈ window
  unread : st.preads = []

variable {window older reads : List BlockID} {preads : List (BlockID × Bool)}

/-- In such a read the next block is cached; witness: only blocks of the window were served since
it was.
-/
theorem ServesWindow.cached (h : ServesWindow args r window older reads preads st)
    (small
      : window.toFinset.card
        ≤ args.numberOfBlocks - oldSectionSize args.numberOfBlocks args.fOld + 1)
    {id : BlockID} (member : id ∈ window)
    : ∃ it, st.cacheManager.blocksMap id = some it := by
  obtain ⟨history, reached, keys, _⟩ := h.traced
  rw [List.append_nil] at reached
  obtain ⟨c, represents, tracks⟩ := reached.represents
  have near : reuseDistance id (history.map Touch.key) < window.toFinset.card := by
    rw [keys, ← List.append_assoc]
    refine reuseDistance_lt_of_window (fun other inside => ?_) (List.mem_append_right _ member) _
    rcases List.mem_append.mp inside with served | before
    · exact List.mem_toFinset.mpr (h.within other served)
    · exact List.mem_toFinset.mpr before
  rw [← args.oldStart_eq] at small
  refine (represents.mapped_iff id).mpr (tracks.retains ?_ (by omega))
  rw [keys]
  exact List.mem_append_right _ (List.mem_append_left _ member)

/-- An iteration for a block of the window does the same for every disk, and reads nothing. -/
theorem ServesWindow.readBlock (h : ServesWindow args r window older reads preads st)
    (small
      : window.toFinset.card
        ≤ args.numberOfBlocks - oldSectionSize args.numberOfBlocks args.fOld + 1)
    (visited : Visited r block) (member : r.blockID block ∈ window) (pread : Pread)
    : (∀ pread', readBlock pread r block st = FileSystem.readBlock pread' r block st)
      ∧ ∀ left st',
          FileSystem.readBlock pread r block st = .ok (left, st')
          → ServesWindow args r window older reads preads st' := by
  obtain ⟨c, coherent⟩ := h.serving.coherent
  obtain ⟨it, mapped⟩ := h.cached small member
  obtain ⟨buf, s', retrieved, fetched⟩ := coherent.fetch_cached visited mapped pread
  constructor
  · intro pread'
    obtain ⟨buf', s'', again, fetched'⟩ := coherent.fetch_cached visited mapped pread'
    cases retrieved.symm.trans again
    simp only [FileSystem.readBlock, fetched, fetched', ok_bind]
  · intro left st' completed
    have serving := h.serving.readBlock (Set.mem_univ _) (preadSound_any _ pread) visited completed
    have traced := h.traced.readBlock coherent visited completed
    simp only [FileSystem.readBlock, fetched, ok_bind] at completed
    obtain ⟨last, copied, same⟩ := bind_eq_ok_iff.mp completed
    cases same
    obtain ⟨_, preads', copy, blockEq, _, copies⟩ := copyBlock_keeps copied
    refine ⟨serving, traced, ?_, preads'.trans h.unread⟩
    simp only [ReadState.served, copies, List.map_append, List.reverse_append, List.map_cons,
      List.map_nil, List.reverse_singleton, List.singleton_append, blockEq]
    intro id served
    rcases List.mem_cons.mp served with rfl | earlier
    · exact member
    · exact h.within id earlier

/-- A read within the window served last, of no more than `numberOfBlocks - oldSectionSize + 1`
blocks, comes out the same for every disk, even a broken one, and reads nothing from it.
-/
theorem trafficRun_local {labels : List Traffic} (run : (trafficSystem args cfs).Run labels s)
    (split : servedBlocks labels = window ++ older)
    (small
      : window.toFinset.card
        ≤ args.numberOfBlocks - oldSectionSize args.numberOfBlocks args.fOld + 1)
    (inside : ∀ block, r.firstBlock ≤ block → block < r.lastBlock → r.blockID block ∈ window)
    (pread pread' : Pread)
    : cachingRead cfs pread s r = cachingRead cfs pread' s r
      ∧ ∀ ret st, cachingRead cfs pread s r = .ok (ret, st) → st.preads = [] := by
  obtain ⟨⟨preads, c, coherent⟩, traced⟩ := trafficRun_served run
  rw [split] at traced
  have start : ServesWindow args r window older (diskReads (blockReads labels)) preads
      (.start s r) :=
    ⟨coherent.serving_start r, traced, (fun _ none => nomatch none), rfl⟩
  have step {block} {st : ReadState Count} (low : r.firstBlock ≤ block)
      (high : block < r.firstBlock + r.numberOfBlocks.toNat) (within : r.Inside)
      (h : ServesWindow args r window older (diskReads (blockReads labels)) preads st) :=
    have visited := within.visited_of_lt low high
    h.readBlock small visited (inside block visited.low visited.high) pread
  constructor
  · unfold cachingRead cachingReadAt
    split
    · rfl
    split
    · rfl
    split
    · rfl
    next outside =>
      have within : r.Inside := ⟨by omega, by omega⟩
      dsimp only
      rw [forRange_congr (ServesWindow args r window older (diskReads (blockReads labels)) preads)
        (fun block st left st' low high h completed =>
          (step low high within h).2 left st' completed)
        (fun block st low high h => (step low high within h).1 pread') start]
  · intro ret st called
    have result := cachingRead_result cfs pread s r
    rw [called] at result
    cases result with
    | atOnce => rfl
    | looped _ within loop =>
        exact (forRange_preserves
          (ServesWindow args r window older (diskReads (blockReads labels)) preads)
          (fun block st left st' low high h completed =>
            (step low high within h).2 left st' completed) start loop).unread

theorem trafficRun_local_fourBytes
    : ∃ s : CacheManager Int32 BlockBuf,
        (trafficSystem twoOldArgs (.below [])).Run [fourBytesTraffic] s
        ∧ cachingRead (.below []) brokenPread s fourBytesRequest
          = cachingRead (.below []) wholePread s fourBytesRequest := by
  obtain ⟨s, run⟩ := @exists_fourBytes_read twoOldArgs (by decide +kernel)
  refine ⟨s, run, (@trafficRun_local _ _ _ _ _ _ _ fourBytesRequest _ [(7, 1), (7, 0)] [] _ run rfl
    (by decide +kernel) (fun block low high => ?_) brokenPread wholePread).1⟩
  have first : fourBytesRequest.firstBlock = 0 := by decide +kernel
  have last : fourBytesRequest.lastBlock = 2 := by decide +kernel
  rw [first] at low
  rw [last] at high
  obtain rfl | rfl : block = 0 ∨ block = 1 := by omega
  · decide +kernel
  · decide +kernel

-----------------------------------------------------------------------------------------
-- What stays allocated
-----------------------------------------------------------------------------------------

/-- The buffers that the blocks in the cache refer to. -/
def cachedBuffers (s : CacheManager Count BlockBuf) : ℕ :=
  s.cacheChain.vals.countP (fun block => block.blockNumber ≠ nullBlock)

omit [LinearOrder Count] [OrderTop Count] [One Count] [Add Count] in
theorem cachedBuffers_eq {cfg : Sections} (s : CacheManager Count BlockBuf)
    {c : FrequencyCache cfg BlockID (Payload BlockBuf) Count} (represents : Represents cfg s c)
    : cachedBuffers s = c.entries.length := by
  obtain ⟨nulls, chain, null, _⟩ := represents.chain
  have entries : cachedBuffers s = s.entries.countP (fun entry => entry.key.2 ≠ nullBlock) := by
    rw [CacheManager.entries, List.countP_map]
    rfl
  have marked : nulls.countP (fun entry => entry.key.2 ≠ nullBlock) = 0 := by
    refine List.countP_eq_zero.mpr (fun entry member => ?_)
    rw [null entry member]
    simp
  have real : c.entries.countP (fun entry => entry.key.2 ≠ nullBlock) = c.entries.length := by
    refine List.countP_eq_length.mpr (fun entry member => ?_)
    simpa using represents.real entry member
  rw [entries, chain, List.countP_append, marked, real, Nat.add_zero]

/-- The block reads that failed. -/
def failedReads (preads : List (BlockID × Bool)) : ℕ := preads.countP (fun read => ¬ read.2)

/-- A buffer is allocated for every block read and none is ever freed. Of all that a run has
allocated, the cache refers to none whose read failed, and to no more than it has places: all
others are lost.
-/
theorem trafficRun_lostBuffers {labels : List Traffic}
    (run : (trafficSystem args cfs).Run labels s)
    : ((blockReads labels).length : ℤ) - cachedBuffers s
      = failedReads (blockReads labels)
        + max 0 ((diskReads (blockReads labels)).length - args.numberOfBlocks) := by
  obtain ⟨history, reached, _, inserted⟩ := trafficRun_traced run
  obtain ⟨c, represents, evolves⟩ := reached.evolves
  have filled := evolves.fills.filled
  rw [← length_insertedKeys, inserted, ← cachedBuffers_eq s represents] at filled
  have allocated : (blockReads labels).length
      = (diskReads (blockReads labels)).length + failedReads (blockReads labels) := by
    rw [diskReads, List.length_map, ← List.countP_eq_length_filter, failedReads]
    have split := List.length_eq_countP_add_countP Prod.snd (l := blockReads labels)
    simpa using split
  rw [← args.size_eq, filled, allocated]
  omega

theorem trafficRun_lostBuffers_fourBytes
    : ∃ s : CacheManager Int32 BlockBuf,
        (trafficSystem twoOldArgs (.below [])).Run [fourBytesTraffic] s
        ∧ ((blockReads [fourBytesTraffic]).length : ℤ) - cachedBuffers s
          = failedReads (blockReads [fourBytesTraffic])
            + max 0 ((diskReads (blockReads [fourBytesTraffic])).length - 4) := by
  obtain ⟨s, run⟩ := @exists_fourBytes_read twoOldArgs (by decide +kernel)
  exact ⟨s, run, trafficRun_lostBuffers run⟩

end Runs

end CachingFileSystem.FileSystem
