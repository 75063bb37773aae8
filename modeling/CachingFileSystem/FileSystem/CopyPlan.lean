import CachingFileSystem.FileSystem.Coherence

/-! What the block loop copies when no read fails, in closed form. The only thing it depends
on besides the request is whether the first block is cached before the call.
-/

namespace CachingFileSystem.FileSystem

open CachingFileSystem.BufferCache
open CachingFileSystem.Containers
open CachingFileSystem.ReplacementPolicy
open CachingFileSystem.Transitions

namespace Request

variable {r : Request} {cached : Bool}

/-- What the first of several blocks contributes: the rest of the block when it is cached,
and all that was read, as much as a whole block, when it is not.
-/
def firstShare (r : Request) (cached : Bool) : ℤ :=
  if cached then r.file.blockSize - r.blockOffset else r.file.blockSize

/-- The number of bytes copied after `t` iterations. -/
def progress (r : Request) (cached : Bool) (t : ℕ) : ℤ :=
  if t = 0 then 0
  else if t < r.numberOfBlocks then r.firstShare cached + (t - 1) * r.file.blockSize
  else r.remainingData

def planOffset (r : Request) (t : ℕ) : ℤ := if t = 0 then r.blockOffset else 0

def planSize (r : Request) (cached : Bool) (t : ℕ) : ℤ :=
  r.progress cached (t + 1) - r.progress cached t

/-- The part that the `t`-th iteration copies, and the file's bytes there. -/
def plan (r : Request) (cached : Bool) (t : ℕ) : ℤ × ℤ × ℤ :=
  (r.firstBlock + t, r.planOffset t, r.planSize cached t)

def partBytes (r : Request) (part : ℤ × ℤ × ℤ) : List (Option UInt8) :=
  slice (r.file.blockBytes part.1) part.2.1 part.2.2

def planBytes (r : Request) (cached : Bool) (t : ℕ) : List (Option UInt8) :=
  r.partBytes (r.plan cached t)

theorem planOffset_bounds (t : ℕ)
    : 0 ≤ r.planOffset t ∧ r.planOffset t < r.file.blockSize := by
  have positive := r.file.blockSize_pos
  have nonneg := r.blockOffset_nonneg
  have below := r.blockOffset_lt
  unfold planOffset
  split <;> omega

theorem firstShare_bounds : 0 < r.firstShare cached ∧ r.firstShare cached ≤ r.file.blockSize := by
  have nonneg := r.blockOffset_nonneg
  have below := r.blockOffset_lt
  unfold firstShare
  split <;> omega

/-- Before the last block, what was copied is less than what was asked for. -/
theorem share_lt {t : ℕ} (before : (t : ℤ) + 1 < r.numberOfBlocks)
    : r.firstShare cached + t * r.file.blockSize < r.remainingData := by
  obtain ⟨below, _, _⟩ := r.numberOfBlocks_bounds
  have share := (@firstShare_bounds r cached).2
  have positive := r.file.blockSize_pos
  have blocks : ((t : ℤ) + 1) * r.file.blockSize
      ≤ (r.numberOfBlocks - 1) * r.file.blockSize :=
    Int.mul_le_mul_of_nonneg_right (by omega) positive.le
  rw [Int.add_mul] at blocks
  omega

@[simp]
theorem progress_zero : r.progress cached 0 = 0 := rfl

theorem progress_succ (t : ℕ)
    : r.progress cached (t + 1)
      = if (t : ℤ) + 1 < r.numberOfBlocks then r.firstShare cached + t * r.file.blockSize
        else r.remainingData := by
  simp only [progress, Nat.succ_ne_zero, if_false]
  push_cast
  rw [show (t : ℤ) + 1 - 1 = t by omega]

theorem progress_last (positive : 0 < r.remainingData)
    : r.progress cached r.numberOfBlocks.toNat = r.remainingData := by
  have blocks := numberOfBlocks_pos positive
  simp only [progress]
  split
  · omega
  · split
    · omega
    · rfl

/-- Progress never exceeds the request, and no iteration copies a negative size. -/
theorem progress_bounds (positive : 0 < r.remainingData) (t : ℕ)
    : 0 ≤ r.progress cached t
      ∧ r.progress cached t ≤ r.remainingData
      ∧ r.progress cached t ≤ r.progress cached (t + 1) := by
  have share := @firstShare_bounds r cached
  have block := r.file.blockSize_pos
  have blocks (t : ℕ) : 0 ≤ (t : ℤ) * r.file.blockSize := Int.mul_nonneg (by omega) block.le
  cases t with
  | zero =>
      rw [progress_zero, progress_succ]
      refine ⟨le_refl _, positive.le, ?_⟩
      split
      · have nonneg := blocks 0
        omega
      · exact positive.le
  | succ t =>
      rw [progress_succ, progress_succ]
      have nonneg := blocks t
      rcases Int.lt_or_le ((t : ℤ) + 1) r.numberOfBlocks with before | last
      · have less := @share_lt r cached t before
        simp only [before, if_true]
        refine ⟨by omega, less.le, ?_⟩
        split
        · push_cast
          rw [Int.add_mul]
          omega
        · exact less.le
      · have past : ¬ ((t + 1 : ℕ) : ℤ) + 1 < r.numberOfBlocks := by omega
        simp only [Int.not_lt.mpr last, past, if_false]
        omega

/-- Every iteration of the loop makes progress. -/
theorem progress_lt (positive : 0 < r.remainingData) {t : ℕ} (more : (t : ℤ) < r.numberOfBlocks)
    : r.progress cached t < r.progress cached (t + 1) := by
  have share := @firstShare_bounds r cached
  have block := r.file.blockSize_pos
  cases t with
  | zero =>
      rw [progress_zero, progress_succ, Int.natCast_zero, Int.zero_mul, Int.add_zero]
      split
      · exact share.1
      · exact positive
  | succ t =>
      rw [progress_succ, progress_succ, if_pos (by omega)]
      split
      · push_cast
        rw [Int.add_mul]
        omega
      · exact share_lt (by omega)

end Request

-----------------------------------------------------------------------------------------
-- One iteration
-----------------------------------------------------------------------------------------

theorem File.length_blockBytes (file : File) {k : ℤ} (nonneg : 0 ≤ k)
    (inside : k * file.blockSize ≤ file.stSize)
    : ((file.blockBytes k).length : ℤ)
      = min file.blockSize (file.stSize - k * file.blockSize) := by
  have positive := file.blockSize_pos
  have start := Int.mul_nonneg nonneg positive.le
  simp only [File.stSize] at inside ⊢
  simp only [File.blockBytes, List.length_take, List.length_drop]
  omega

/-- The block and the part of it that a `memcpy` takes. -/
def Copy.part (copy : Copy) : ℤ × ℤ × ℤ := (copy.block, copy.blockOffset, copy.sizeToCopy)

/-- The bytes it finds there. -/
def Copy.bytes (copy : Copy) : List (Option UInt8) :=
  slice copy.source.bytes copy.blockOffset copy.sizeToCopy

/-- Every block the call visits is read in full when it is not cached. -/
def FullReads (pread : Pread) (r : Request) : Prop :=
  ∀ block,
    r.firstBlock ≤ block
    → block < r.lastBlock
    → pread r.file (toSize r.file.blockSize) (block * r.file.blockSize)
      = .ok (r.file.blockBytes block)

/-- The block is in the cache. -/
def Cached {Count : Type} (s : CacheManager Count BlockBuf) (id : BlockID) : Bool :=
  (s.blocksMap id).isSome

variable {cfg : Sections} {Count : Type} {files : Set File}

theorem cached_iff {s : CacheManager Count BlockBuf}
    {c : FrequencyCache cfg BlockID (Payload BlockBuf) Count} (h : Represents cfg s c)
    (id : BlockID)
    : Cached s id = true ↔ id ∈ c.keys := by
  rw [← h.mapped_iff, Cached, Option.isSome_iff_exists]

/-- The code computes the planned size: what remains for the last block, the first share
for the first of several blocks, and whole blocks between them.
-/
theorem sizeToCopy_eq {r : Request} {t : ℕ} {st : ReadState Count} {cached : Bool}
    (inside : r.Inside)
    (more : (t : ℤ) < r.numberOfBlocks)
    (remaining : st.remainingData = r.remainingData - r.progress cached t)
    (first
      : t = 0
        → st.preadRet = if cached then 0 else toInt (r.file.blockBytes r.firstBlock).length)
    : sizeToCopy r (r.firstBlock + t) st = r.planSize cached t := by
  have block := r.file.blockSize_pos
  simp only [sizeToCopy, Request.planSize, Request.lastBlock, Request.progress_succ]
  rcases Int.lt_or_le ((t : ℤ) + 1) r.numberOfBlocks with before | last
  · have notLast : ¬ r.firstBlock + t = r.firstBlock + r.numberOfBlocks - 1 := by omega
    simp only [notLast, before, if_true, if_false]
    cases t with
    | zero =>
        have share := @Request.firstShare_bounds r cached
        have data := @Request.share_lt r cached 0 before
        have isFirst : r.firstBlock + ((0 : ℕ) : ℤ) = r.firstBlock := by omega
        have offset : copyOffset r r.firstBlock = r.blockOffset := by
          simp only [copyOffset, if_true, Request.blockOffset_eq inside]
        simp only [isFirst, if_true, first, offset, Request.progress_zero]
        cases cached with
        | true => simp [Request.firstShare]
        | false =>
            have begins := Request.firstBlock_mul inside
            have offset := r.blockOffset_nonneg
            have cut := Request.remainingData_le inside
            have size := r.file.fileSize_le
            have within : r.file.blockSize < r.remainingData := by
              simpa [Request.firstShare] using data
            have whole : ((r.file.blockBytes r.firstBlock).length : ℤ) = r.file.blockSize := by
              rw [File.length_blockBytes _ (Request.firstBlock_nonneg inside) (by linarith)]
              exact min_eq_left (by linarith)
            have small := toInt_lt r.file.stBlksize
            have fits : toInt r.file.blockSize = r.file.blockSize :=
              toInt_eq_self (by omega) small
            simp only [whole, fits, Bool.false_eq_true, if_false, block.ne', Request.firstShare]
            omega
    | succ t =>
        have notFirst : ¬ r.firstBlock + ((t + 1 : ℕ) : ℤ) = r.firstBlock := by omega
        have earlier : (t : ℤ) + 1 < r.numberOfBlocks := by omega
        simp only [notFirst, if_false, Request.progress_succ, earlier, if_true]
        push_cast
        rw [Int.add_mul]
        omega
  · have isLast : r.firstBlock + t = r.firstBlock + r.numberOfBlocks - 1 := by omega
    simp only [isLast, if_true, Int.not_lt.mpr last, if_false, remaining]

theorem copyOffset_eq {r : Request} {t : ℕ} (inside : r.Inside)
    : copyOffset r (r.firstBlock + t) = r.planOffset t := by
  simp only [copyOffset, Request.planOffset]
  cases t with
  | zero => simp only [Int.natCast_zero, Int.add_zero, if_true, Request.blockOffset_eq inside]
  | succ t =>
      have notFirst : ¬ r.firstBlock + ((t + 1 : ℕ) : ℤ) = r.firstBlock := by omega
      simp only [notFirst, if_false, Nat.succ_ne_zero]

section Iterations

variable [LinearOrder Count] [OrderTop Count] [One Count] [Add Count] {pread : Pread}
  {r : Request} {s : CacheManager Count BlockBuf} {preads history : List (BlockID × Bool)}

/-- Fetching a block that can be read serves it, be it cached or not; `pread_ret` changes only
when it was not.
-/
theorem fetch_full {block : ℤ} {st : ReadState Count}
    {c : FrequencyCache cfg BlockID (Payload BlockBuf) Count}
    (h : Coherent files BlockOf st.cacheManager (st.preads ++ history) c)
    (member : r.file ∈ files) (visited : Visited r block) (full : FullReads pread r)
    : ∃ (buf : BlockBuf) (s' : CacheManager Count BlockBuf) (reads : List (BlockID × Bool))
        (c' : FrequencyCache cfg BlockID (Payload BlockBuf) Count),
        fetchBlock pread r block st
          = .ok (.ok buf, {
              st with
              cacheManager := s'
              preadRet :=
                if Cached st.cacheManager (r.blockID block) then st.preadRet
                else toInt (r.file.blockBytes block).length
              preads := reads
            })
        ∧ ServedFrom files BlockOf r block buf
        ∧ Coherent files BlockOf s' (reads ++ history) c' := by
  rcases Classical.em (r.blockID block ∈ c.keys) with present | absent
  · obtain ⟨buf, s', c', fetched, coherent, served⟩ := h.fetch_hit pread visited present
    have cached := (cached_iff h.represents _).mpr present
    exact ⟨buf, s', st.preads, c', by simp only [fetched, cached, if_true], served, coherent⟩
  · have read := full block visited.low visited.high
    have range := Request.visited_inside visited.inside visited.low visited.high
    obtain ⟨s', c', fetched, coherent, _⟩ := h.fetch_miss member visited absent read rfl
    have uncached : ¬ Cached st.cacheManager (r.blockID block) = true :=
      mt (cached_iff h.represents _).mp absent
    refine ⟨⟨r.file.identity, r.file.blockBytes block⟩, s', (r.blockID block, true) :: st.preads,
      c', ?_, ⟨range.2, r.file, member, rfl, range, rfl⟩, coherent⟩
    rw [fetched, if_neg uncached]

/-- The variables after `t` iterations of a call that started from `s`. -/
structure Reached (files : Set File) (cfg : Sections) (r : Request)
    (s : CacheManager Count BlockBuf) (history : List (BlockID × Bool)) (t : ℕ)
    (st : ReadState Count)
    : Prop where
  coherent
    : ∃ c : FrequencyCache cfg BlockID (Payload BlockBuf) Count,
        Coherent files BlockOf st.cacheManager (st.preads ++ history) c
  start : t = 0 → st = .start s r
  remaining
    : st.remainingData
      = r.remainingData - r.progress (Cached s (r.blockID r.firstBlock)) t
  bufProg : st.bufProg = r.progress (Cached s (r.blockID r.firstBlock)) t
  res : st.res = r.progress (Cached s (r.blockID r.firstBlock)) t
  copies
    : st.copies.map Copy.part
      = (List.range t).map (r.plan (Cached s (r.blockID r.firstBlock)))
  served : ∀ copy ∈ st.copies, ServedFrom files BlockOf r copy.block copy.source
  buf : st.buf = st.copies.flatMap Copy.bytes

/-- Every iteration advances along the plan; witness: fetching serves the block, and the
planned size is neither negative nor too large for the variables it is added to.
-/
theorem Reached.advance {t : ℕ} {st : ReadState Count} (h : Reached files cfg r s history t st)
    (member : r.file ∈ files) (inside : r.Inside) (positive : 0 < r.remainingData)
    (full : FullReads pread r) (more : t < r.numberOfBlocks.toNat)
    : ∃ st',
        readBlock pread r (r.firstBlock + t) st = .ok (none, st')
        ∧ Reached files cfg r s history (t + 1) st' := by
  have blocks := Request.numberOfBlocks_pos positive
  have visited : Visited r (r.firstBlock + t) :=
    ⟨inside, by omega, by simp only [Request.lastBlock]; omega⟩
  obtain ⟨c, coherent⟩ := h.coherent
  obtain ⟨buf, s', reads, c', fetched, served, coherent'⟩ :=
    fetch_full coherent member visited full
  have size := @sizeToCopy_eq Count r t {
      st with
      cacheManager := s'
      preadRet :=
        if Cached st.cacheManager (r.blockID (r.firstBlock + t)) then st.preadRet
        else toInt (r.file.blockBytes (r.firstBlock + t)).length
      preads := reads
    } _ inside (by omega : (t : ℤ) < r.numberOfBlocks) h.remaining
    (by
      intro zero
      subst zero
      obtain rfl := h.start rfl
      simp only [Int.natCast_zero, Int.add_zero]
      rfl)
  obtain ⟨low, high, grows⟩ := @Request.progress_bounds r
    (Cached s (r.blockID r.firstBlock)) positive t
  obtain ⟨_, high', _⟩ := @Request.progress_bounds r
    (Cached s (r.blockID r.firstBlock)) positive (t + 1)
  have small := (Request.remainingData_bounds r).2
  have notNegative : ¬ r.planSize (Cached s (r.blockID r.firstBlock)) t < 0 := by
    simp only [Request.planSize]
    omega
  simp only [readBlock, fetched, ok_bind, copyBlock, size, copyOffset_eq inside, memcpy,
    notNegative, if_false]
  refine ⟨_, rfl, ⟨c', coherent'⟩, fun zero => absurd zero (Nat.succ_ne_zero t), ?_, ?_, ?_, ?_,
    ?_, ?_⟩
  · simp only [ReadState.copied, h.remaining, Request.planSize]
    rw [toInt_eq_self (by omega) (by omega)]
    omega
  · simp only [ReadState.copied, h.bufProg, Request.planSize]
    rw [toInt_eq_self (by omega) (by omega)]
    omega
  · simp only [ReadState.copied, h.res, Request.planSize]
    rw [toSize_eq_self (by omega) (by omega)]
    omega
  · simp only [ReadState.copied, List.map_append, h.copies, List.range_succ]
    rfl
  · simp only [ReadState.copied]
    intro copy copied
    rcases List.mem_append.mp copied with earlier | last
    · exact h.served copy earlier
    · obtain rfl := List.mem_singleton.mp last
      exact served
  · simp only [ReadState.copied, h.buf, List.flatMap_append, List.flatMap_singleton]
    rfl

omit [LinearOrder Count] [OrderTop Count] [One Count] [Add Count] in
/-- Where files agree, the bytes stored are those of the plan. -/
theorem Reached.planned {t : ℕ} {st : ReadState Count} (h : Reached files cfg r s history t st)
    (agreeing : AgreeingBlocks files) (member : r.file ∈ files)
    : st.buf = (List.range t).flatMap (r.planBytes (Cached s (r.blockID r.firstBlock))) := by
  have stored (copy : Copy) (copied : copy ∈ st.copies)
      : copy.bytes = r.partBytes copy.part := by
    simp only [Copy.bytes, (h.served copy copied).bytes agreeing member]
    rfl
  calc
    st.buf = st.copies.flatMap Copy.bytes := h.buf
    _ = st.copies.flatMap (fun copy => r.partBytes copy.part) := List.flatMap_congr stored
    _ = (st.copies.map Copy.part).flatMap r.partBytes := (List.flatMap_map _ _ _).symm
    _ = (List.range t).flatMap (r.planBytes (Cached s (r.blockID r.firstBlock))) := by
        rw [h.copies, List.flatMap_map]
        rfl

/-- The planned sizes add up to the progress; by induction on the number of iterations. -/
theorem Request.sum_planSize {cached : Bool} (positive : 0 < r.remainingData) (t : ℕ)
    : (((List.range t).map (fun i => (r.planSize cached i).toNat)).sum : ℤ)
      = r.progress cached t := by
  induction t with
  | zero => rfl
  | succ t ih =>
      obtain ⟨_, _, grows⟩ := @Request.progress_bounds r cached positive t
      rw [List.range_succ, List.map_append, List.sum_append, Int.natCast_add, ih]
      simp only [List.map_singleton, List.sum_singleton, Request.planSize]
      omega

omit [LinearOrder Count] [OrderTop Count] [One Count] [Add Count] in
/-- The bytes stored so far end where the next copy goes. -/
theorem Reached.length_buf {t : ℕ} {st : ReadState Count} (h : Reached files cfg r s history t st)
    (positive : 0 < r.remainingData)
    : (st.buf.length : ℤ) = st.bufProg := by
  have lengths : st.buf.length = ((st.copies.map Copy.part).map (fun part => part.2.2.toNat)).sum
      := by
    rw [h.buf, List.length_flatMap, List.map_map]
    congr 1
    refine List.map_congr_left (fun copy _ => ?_)
    simp only [Copy.bytes, slice, List.length_map, List.length_range]
    rfl
  rw [lengths, h.copies, List.map_map, h.bufProg, ← Request.sum_planSize positive]
  rfl

-----------------------------------------------------------------------------------------
-- Whole calls
-----------------------------------------------------------------------------------------

/-- The path of the request is not that of the log file. -/
def NotLog (cfs : CfsState) (r : Request) : Prop :=
  cachingFullPath cfs r.path ≠ cfs.logfileFullPath

theorem NotLog.notRefered {cfs : CfsState} (notLog : NotLog cfs r)
    : referingLogfile cfs (cachingFullPath cfs r.path) = 0 := by
  simp only [referingLogfile, NotLog] at notLog ⊢
  simp only [notLog, if_false]

/-- The log file is answered at once. -/
theorem cachingRead_log {cfs : CfsState} (log : ¬ NotLog cfs r)
    : cachingRead cfs pread s r = .ok (-enoent, .start s r) := by
  have refered : referingLogfile cfs (cachingFullPath cfs r.path) ≠ 0 := by
    rw [referingLogfile, if_pos (not_not.mp log)]
    decide
  simp only [cachingRead, cachingReadAt, refered, ne_eq, not_false_eq_true, if_true]

/-- A call on a file of the run, from a state that the run reaches, whose blocks can be read. -/
structure FsCall (args : CacheArgs) (cfs : CfsState) (files : Set File)
    (s : CacheManager Count BlockBuf) (pread : Pread) (r : Request)
    : Prop where
  reached : ∃ preads, FsReaches args cfs files BlockOf preads s
  member : r.file ∈ files
  notLog : NotLog cfs r
  full : FullReads pread r

theorem FsCall.coherent {args : CacheArgs} {cfs : CfsState}
    (call : FsCall args cfs files s pread r)
    : ∃ (history : List (BlockID × Bool))
        (c : FrequencyCache args.sections BlockID (Payload BlockBuf) Count),
        Coherent files BlockOf s history c := by
  obtain ⟨history, reached⟩ := call.reached
  exact ⟨history, reached.coherent⟩

/-- Past its checks the call is the block loop. -/
theorem cachingRead_eq {cfs : CfsState} (notLog : NotLog cfs r) (inside : r.Inside)
    : cachingRead cfs pread s r
      = forRange (readBlock pread r) r.numberOfBlocks.toNat r.firstBlock (.start s r) >>=
          fun result =>
            match result.1 with
            | some errno => .ok (-errno, result.2)
            | none => .ok (toInt result.2.res, result.2) := by
  have passes : ¬ (r.offset < 0 ∨ r.file.fileSize ≤ r.offset) := by
    have nonneg := inside.nonneg
    have before := inside.before
    omega
  simp only [cachingRead, cachingReadAt, notLog.notRefered, ne_eq, not_true, if_false,
    UInt64.not_lt_zero, passes]
  rw [Request.checkedInt_lastBlock inside]
  rfl

/-- An offset outside the file as the call sees it is answered with zero. -/
theorem cachingRead_rejected {cfs : CfsState} (notLog : NotLog cfs r) (outside : ¬ r.Inside)
    : cachingRead cfs pread s r = .ok (0, .start s r) := by
  have stops : r.offset < 0 ∨ r.file.fileSize ≤ r.offset := by
    by_contra passes
    exact outside ⟨by omega, by omega⟩
  simp only [cachingRead, cachingReadAt, notLog.notRefered, ne_eq, not_true, if_false,
    UInt64.not_lt_zero, stops, if_true]

/-- A request for nothing, or for so much that the sum wraps around, copies nothing. -/
theorem cachingRead_nothing {cfs : CfsState} (notLog : NotLog cfs r) (inside : r.Inside)
    (nonpos : r.remainingData ≤ 0)
    : cachingRead cfs pread s r = .ok (0, .start s r) := by
  have none := Request.numberOfBlocks_nonpos nonpos
  rw [cachingRead_eq notLog inside, Int.toNat_of_nonpos none]
  rfl

/-- A call whose blocks can all be read passes through the planned states and returns the
whole count.
-/
theorem cachingRead_trace {cfs : CfsState}
    {c : FrequencyCache cfg BlockID (Payload BlockBuf) Count}
    (coherent : Coherent files BlockOf s history c) (member : r.file ∈ files)
    (notLog : NotLog cfs r) (inside : r.Inside) (positive : 0 < r.remainingData)
    (full : FullReads pread r)
    : ∃ states : ℕ → ReadState Count,
        states 0 = .start s r
        ∧ (∀ t < r.numberOfBlocks.toNat,
            readBlock pread r (r.firstBlock + t) (states t) = .ok (none, states (t + 1)))
        ∧ (∀ t ≤ r.numberOfBlocks.toNat, Reached files cfg r s history t (states t))
        ∧ cachingRead cfs pread s r = .ok (r.remainingData, states r.numberOfBlocks.toNat) := by
  have initially : Reached files cfg r s history 0 (.start s r) :=
    ⟨⟨c, coherent⟩, fun _ => rfl, by simp [ReadState.start], rfl, rfl, rfl,
      fun _ none => (nomatch none), rfl⟩
  obtain ⟨states, start, steps, reached, completed⟩ := forRange_trace
    (fun t st => Reached files cfg r s history t st)
    (fun t st more h => h.advance member inside positive full more) initially
  have small := (Request.remainingData_bounds r).2
  refine ⟨states, start, steps, reached, ?_⟩
  rw [cachingRead_eq notLog inside, completed]
  simp only [ok_bind, (reached _ (Nat.le_refl _)).res, Request.progress_last positive]
  rw [toInt_eq_self (by omega) small]

/-- So it ends in the last state of the plan. -/
theorem cachingRead_plan {cfs : CfsState}
    {c : FrequencyCache cfg BlockID (Payload BlockBuf) Count}
    (coherent : Coherent files BlockOf s history c) (member : r.file ∈ files)
    (notLog : NotLog cfs r) (inside : r.Inside) (positive : 0 < r.remainingData)
    (full : FullReads pread r)
    : ∃ st,
        cachingRead cfs pread s r = .ok (r.remainingData, st)
        ∧ Reached files cfg r s history r.numberOfBlocks.toNat st := by
  obtain ⟨states, _, _, reached, called⟩ :=
    cachingRead_trace coherent member notLog inside positive full
  exact ⟨states _, called, reached _ (Nat.le_refl _)⟩

/-- A call for a part of one block is one iteration. -/
theorem forRange_single {st : ReadState Count} (positive : 0 < r.remainingData)
    (short : r.remainingData ≤ r.file.blockSize) {left : Option ℤ} {st' : ReadState Count}
    (iteration : readBlock pread r r.firstBlock st = .ok (left, st'))
    : forRange (readBlock pread r) r.numberOfBlocks.toNat r.firstBlock st = .ok (left, st') := by
  have blocks := Request.numberOfBlocks_pos positive
  have one : r.numberOfBlocks = 1 := by
    have several := @Request.one_lt_numberOfBlocks_iff r
    omega
  rw [one]
  change forRange (readBlock pread r) 1 r.firstBlock st = _
  simp only [forRange, iteration, ok_bind]
  cases left <;> rfl

/-- Once its block is fetched, such a call copies from it and returns the whole count. -/
theorem cachingRead_single {cfs : CfsState} (notLog : NotLog cfs r) (inside : r.Inside)
    (positive : 0 < r.remainingData) (short : r.remainingData ≤ r.file.blockSize)
    {buf : BlockBuf} {next : ReadState Count}
    (fetched : fetchBlock pread r r.firstBlock (.start s r) = .ok (.ok buf, next))
    (remaining : next.remainingData = r.remainingData) (res : next.res = 0)
    (copies : next.copies = [])
    : ∃ st,
        cachingRead cfs pread s r = .ok (r.remainingData, st)
        ∧ st.cacheManager = next.cacheManager
        ∧ st.preads = next.preads
        ∧ st.copies = [⟨r.firstBlock, buf, r.blockOffset, r.remainingData⟩]
        ∧ st.buf = next.buf ++ slice buf.bytes r.blockOffset r.remainingData := by
  have blocks := Request.numberOfBlocks_pos positive
  have several := @Request.one_lt_numberOfBlocks_iff r
  have last : r.firstBlock = r.lastBlock - 1 := by
    simp only [Request.lastBlock]
    omega
  have offset : copyOffset r r.firstBlock = r.blockOffset := by
    simp only [copyOffset, if_true, Request.blockOffset_eq inside]
  have size : sizeToCopy r r.firstBlock next = r.remainingData := by
    rw [sizeToCopy, if_pos last, remaining]
  have small := (Request.remainingData_bounds r).2
  have notNegative : ¬ r.remainingData < 0 := Int.not_lt.mpr positive.le
  have total : toInt (toSize (0 + r.remainingData)) = r.remainingData := by
    rw [Int.zero_add, toSize_eq_self (by omega) (by omega), toInt_eq_self (by omega) (by omega)]
  have iteration : readBlock pread r r.firstBlock (.start s r)
      = .ok (none, next.copied ⟨r.firstBlock, buf, r.blockOffset, r.remainingData⟩
          (slice buf.bytes r.blockOffset r.remainingData)) := by
    simp only [readBlock, fetched, ok_bind, copyBlock, offset, size, memcpy, notNegative, if_false]
  refine ⟨next.copied ⟨r.firstBlock, buf, r.blockOffset, r.remainingData⟩
    (slice buf.bytes r.blockOffset r.remainingData), ?_, rfl, rfl, ?_, rfl⟩
  · rw [cachingRead_eq notLog inside, forRange_single positive short iteration]
    simp only [ok_bind, ReadState.copied, res, total]
  · simp only [ReadState.copied, copies, List.nil_append]

/-- A failed read of its block ends such a call with the errno. -/
theorem cachingRead_failed {cfs : CfsState} (notLog : NotLog cfs r) (inside : r.Inside)
    (positive : 0 < r.remainingData) (short : r.remainingData ≤ r.file.blockSize) {errno : ℤ}
    {next : ReadState Count}
    (fetched : fetchBlock pread r r.firstBlock (.start s r) = .ok (.error errno, next))
    : cachingRead cfs pread s r = .ok (-errno, next) := by
  have iteration : readBlock pread r r.firstBlock (.start s r) = .ok (some errno, next) := by
    simp only [readBlock, fetched, ok_bind]
  rw [cachingRead_eq notLog inside, forRange_single positive short iteration]
  rfl

/-- Reading a part of one uncached block puts this block into the cache. -/
theorem Coherent.read_single {Sound : File → ℤ → BlockBuf → Prop} {cfs : CfsState}
    {c : FrequencyCache cfg BlockID (Payload BlockBuf) Count}
    (h : Coherent files Sound s history c) (member : r.file ∈ files) (notLog : NotLog cfs r)
    (inside : r.Inside) (positive : 0 < r.remainingData)
    (short : r.remainingData ≤ r.file.blockSize) (absent : r.blockID r.firstBlock ∉ c.keys)
    {bytes : List UInt8}
    (read
      : pread r.file (toSize r.file.blockSize) (r.firstBlock * r.file.blockSize) = .ok bytes)
    (sound : Sound r.file r.firstBlock ⟨r.file.identity, bytes⟩)
    : ∃ (st : ReadState Count) (c' : FrequencyCache cfg BlockID (Payload BlockBuf) Count),
        cachingRead cfs pread s r = .ok (r.remainingData, st)
        ∧ st.preads = [(r.blockID r.firstBlock, true)]
        ∧ Coherent files Sound st.cacheManager ((r.blockID r.firstBlock, true) :: history) c'
        ∧ r.blockID r.firstBlock ∈ c'.keys := by
  have visited := inside.visited positive
  have initially : Coherent files Sound (ReadState.start s r).cacheManager history c := h
  obtain ⟨s', c', fetched, coherent, present⟩ :=
    initially.fetch_miss member visited absent read sound
  obtain ⟨st, called, cache, preads, _⟩ :=
    cachingRead_single notLog inside positive short fetched rfl rfl rfl
  refine ⟨st, c', called, preads, ?_, present⟩
  rw [cache]
  exact coherent

/-- Reading a part of one cached block copies what is cached for it. -/
theorem Coherent.read_cached {Sound : File → ℤ → BlockBuf → Prop} {cfs : CfsState}
    {c : FrequencyCache cfg BlockID (Payload BlockBuf) Count}
    (h : Coherent files Sound s history c) (pread : Pread) (notLog : NotLog cfs r)
    (inside : r.Inside) (positive : 0 < r.remainingData)
    (short : r.remainingData ≤ r.file.blockSize) (present : r.blockID r.firstBlock ∈ c.keys)
    : ∃ (st : ReadState Count) (buf : BlockBuf),
        cachingRead cfs pread s r = .ok (r.remainingData, st)
        ∧ st.copies = [⟨r.firstBlock, buf, r.blockOffset, r.remainingData⟩]
        ∧ st.buf = slice buf.bytes r.blockOffset r.remainingData
        ∧ ServedFrom files Sound r r.firstBlock buf := by
  have visited := inside.visited positive
  have initially : Coherent files Sound (ReadState.start s r).cacheManager history c := h
  obtain ⟨buf, s', c', fetched, _, served⟩ := initially.fetch_hit pread visited present
  obtain ⟨st, called, _, _, copies, bytes⟩ :=
    cachingRead_single notLog inside positive short fetched rfl rfl rfl
  exact ⟨st, buf, called, copies, bytes, served⟩

/-- A failed read of one uncached block leaves the cache as it is. -/
theorem Coherent.read_failed {Sound : File → ℤ → BlockBuf → Prop} {cfs : CfsState}
    {c : FrequencyCache cfg BlockID (Payload BlockBuf) Count}
    (h : Coherent files Sound s history c) (notLog : NotLog cfs r) (inside : r.Inside)
    (positive : 0 < r.remainingData) (short : r.remainingData ≤ r.file.blockSize)
    (absent : r.blockID r.firstBlock ∉ c.keys) {errno : ℤ}
    (read
      : pread r.file (toSize r.file.blockSize) (r.firstBlock * r.file.blockSize) = .error errno)
    : ∃ st : ReadState Count,
        cachingRead cfs pread s r = .ok (-errno, st)
        ∧ st.preads = [(r.blockID r.firstBlock, false)]
        ∧ st.cacheManager = s := by
  have visited := inside.visited positive
  have initially : Coherent files Sound (ReadState.start s r).cacheManager history c := h
  obtain ⟨fetched, _⟩ := initially.fetch_fail visited absent read
  exact ⟨_, cachingRead_failed notLog inside positive short fetched, rfl, rfl⟩

end Iterations

end CachingFileSystem.FileSystem
