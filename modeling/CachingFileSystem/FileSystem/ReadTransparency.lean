import CachingFileSystem.FileSystem.DefinedReads

/-! When a read returns exactly the bytes of the file. -/

namespace CachingFileSystem.FileSystem

open CachingFileSystem.BufferCache
open CachingFileSystem.Containers
open CachingFileSystem.ReplacementPolicy

namespace Request

variable {r : Request} {cached : Bool}

/-- The first block contributes its rest if it is copied from its start or cached. -/
theorem firstShare_eq (aligned : r.blockOffset = 0 ∨ cached = true)
    : r.firstShare cached = r.file.blockSize - r.blockOffset := by
  rcases aligned with zero | rfl
  · simp [firstShare, zero]
  · rfl

/-- Where the first part ends in its block. -/
theorem planEnd_zero
    : r.planOffset 0 + r.planSize cached 0
      = r.blockOffset
        + if 1 < r.numberOfBlocks then r.firstShare cached else r.remainingData := by
  simp only [planOffset, planSize, progress_succ, progress_zero, if_true, Int.natCast_zero,
    Int.zero_add, Int.zero_mul, Int.add_zero, Int.sub_zero]

/-- A later part fills its block unless it is the last one. -/
theorem planEnd_succ {t : ℕ} (more : (t : ℤ) + 1 < r.numberOfBlocks)
    : r.planOffset (t + 1) + r.planSize cached (t + 1)
      = if (t : ℤ) + 2 < r.numberOfBlocks then r.file.blockSize
        else r.remainingData - (r.firstShare cached + t * r.file.blockSize) := by
  have next : ((t + 1 : ℕ) : ℤ) + 1 < r.numberOfBlocks ↔ (t : ℤ) + 2 < r.numberOfBlocks := by
    push_cast
    omega
  simp only [planOffset, planSize, progress_succ, Nat.succ_ne_zero, next, more, if_true, if_false,
    Int.zero_add]
  split
  · push_cast
    linarith
  · rfl

/-- Several parts stay inside their blocks exactly when the first one is copied to the end of its
block and the last one ends inside its own.
-/
theorem plan_inside_iff_of_many (many : 1 < r.numberOfBlocks)
    : (∀ t : ℕ,
        (t : ℤ) < r.numberOfBlocks
        → r.planOffset t + r.planSize cached t ≤ r.file.blockSize)
      ↔ (r.blockOffset = 0 ∨ cached = true)
        ∧ r.blockOffset + r.remainingData ≤ r.numberOfBlocks * r.file.blockSize := by
  have nonneg := r.blockOffset_nonneg
  have block := r.file.blockSize_pos
  obtain ⟨n, count⟩ : ∃ n : ℕ, r.numberOfBlocks = n + 2 :=
    ⟨(r.numberOfBlocks - 2).toNat, by omega⟩
  constructor
  · intro inside
    have start := inside 0 (by omega)
    have final := inside (n + 1) (by omega)
    rw [planEnd_zero, if_pos many] at start
    rw [planEnd_succ (by omega), if_neg (by omega)] at final
    have aligned : r.blockOffset = 0 ∨ cached = true := by
      cases cached with
      | true => exact Or.inr rfl
      | false =>
          simp only [firstShare, Bool.false_eq_true, if_false] at start
          exact Or.inl (by omega)
    have share := firstShare_eq aligned
    refine ⟨aligned, ?_⟩
    rw [share] at final
    rw [count]
    linarith
  · intro planned t more
    obtain ⟨aligned, fits⟩ := planned
    have share := firstShare_eq aligned
    cases t with
    | zero =>
        rw [planEnd_zero, if_pos many, share]
        omega
    | succ t =>
        rw [planEnd_succ (by omega), share]
        split
        · exact le_refl _
        · have final : t = n := by omega
          subst final
          rw [count] at fits
          linarith

/-- The plan stays inside its blocks exactly when the first of several blocks starts at its
beginning or is cached, and the last block is not read past its end.
-/
theorem plan_inside_iff (positive : 0 < r.remainingData)
    : (∀ t : ℕ,
        (t : ℤ) < r.numberOfBlocks
        → r.planOffset t + r.planSize cached t ≤ r.file.blockSize)
      ↔ (r.remainingData ≤ r.file.blockSize ∨ r.blockOffset = 0 ∨ cached = true)
        ∧ r.blockOffset + r.remainingData ≤ r.numberOfBlocks * r.file.blockSize := by
  have several := @one_lt_numberOfBlocks_iff r
  rcases Int.lt_or_le 1 r.numberOfBlocks with many | one
  · have long : ¬ r.remainingData ≤ r.file.blockSize := Int.not_le.mpr (several.mp many)
    rw [plan_inside_iff_of_many many]
    simp only [long, false_or]
  · have blocks := numberOfBlocks_pos positive
    have single : r.numberOfBlocks = 1 := by omega
    have short : r.remainingData ≤ r.file.blockSize := by
      rw [← Int.not_lt, ← several]
      omega
    have first := @planEnd_zero r cached
    rw [if_neg (Int.not_lt.mpr one)] at first
    simp only [short, true_or, true_and, single, Int.one_mul]
    constructor
    · intro inside
      exact first ▸ inside 0 (by omega)
    · intro fits t more
      obtain rfl : t = 0 := by omega
      exact first ▸ fits

/-- Such a plan copies each part from where the last one ended in the file. -/
theorem plan_position {t : ℕ} (inside : r.Inside)
    (aligned : r.remainingData ≤ r.file.blockSize ∨ r.blockOffset = 0 ∨ cached = true)
    (more : (t : ℤ) < r.numberOfBlocks)
    : (r.firstBlock + t) * r.file.blockSize + r.planOffset t
      = r.offset + r.progress cached t := by
  have begins := firstBlock_mul inside
  rw [Int.add_mul, begins]
  cases t with
  | zero =>
      simp only [planOffset, progress_zero, Int.natCast_zero, Int.zero_mul, if_true]
      omega
  | succ t =>
      have before : (t : ℤ) + 1 < r.numberOfBlocks := by omega
      have long : ¬ r.remainingData ≤ r.file.blockSize := by
        rw [Int.not_le, ← one_lt_numberOfBlocks_iff]
        omega
      have share := @firstShare_eq r cached (aligned.resolve_left long)
      simp only [planOffset, progress_succ, before, Nat.succ_ne_zero, if_true, if_false, share]
      push_cast
      linarith

end Request

/-- A slice inside the bytes is determined. -/
theorem slice_eq {bytes : List UInt8} {start size : ℤ} (low : 0 ≤ start)
    (high : start + size ≤ bytes.length)
    : slice bytes start size = ((bytes.drop start.toNat).take size.toNat).map some := by
  apply List.ext_getElem?
  intro i
  simp only [slice, List.getElem?_map, List.getElem?_take, List.getElem?_drop]
  rcases Nat.lt_or_ge i size.toNat with inside | past
  · have bound : start.toNat + i < bytes.length := by omega
    rw [List.getElem?_range inside, if_pos inside, List.getElem?_eq_getElem bound]
    simp only [Option.map_some, List.getElem?_eq_getElem bound]
  · rw [List.getElem?_eq_none (by simpa using past), if_neg (Nat.not_lt.mpr past)]
    rfl

/-- A slice past the bytes is not determined. -/
theorem none_mem_slice {bytes : List UInt8} {start size : ℤ} (low : 0 ≤ start)
    (some : 0 < size) (high : (bytes.length : ℤ) < start + size)
    : none ∈ slice bytes start size := by
  refine List.mem_map.mpr ⟨size.toNat - 1, List.mem_range.mpr (by omega), ?_⟩
  exact List.getElem?_eq_none (by omega)

/-- A part of a block inside the file, in terms of the file. -/
theorem File.slice_blockBytes (file : File) {k start size : ℤ} (block : 0 ≤ k) (low : 0 ≤ start)
    (nonneg : 0 ≤ size) (inside : start + size ≤ file.blockSize)
    (within : k * file.blockSize + start + size ≤ file.stSize)
    : slice (file.blockBytes k) start size
      = ((file.data.drop (k * file.blockSize + start).toNat).take size.toNat).map some := by
  have begins := Int.mul_nonneg block file.blockSize_pos.le
  have length := file.length_blockBytes block (by linarith)
  have place : (k * file.blockSize + start).toNat = (k * file.blockSize).toNat + start.toNat :=
    Int.toNat_add begins low
  have short : min size.toNat (file.blockSize.toNat - start.toNat) = size.toNat := by
    omega
  rw [slice_eq low (by rw [length]; exact le_min inside (by linarith)), blockBytes,
    List.drop_take, List.drop_drop, List.take_take, short, place]

variable {r : Request} {cached : Bool}

/-- A plan that stays inside its blocks collects the file's bytes; by induction on the number
of iterations, each copying the next bytes of the file.
-/
theorem planBytes_eq (inside : r.Inside) (positive : 0 < r.remainingData)
    (aligned : r.remainingData ≤ r.file.blockSize ∨ r.blockOffset = 0 ∨ cached = true)
    (fits
      : ∀ t : ℕ,
          (t : ℤ) < r.numberOfBlocks
          → r.planOffset t + r.planSize cached t ≤ r.file.blockSize)
    {t : ℕ} (done : (t : ℤ) ≤ r.numberOfBlocks)
    : (List.range t).flatMap (r.planBytes cached)
      = ((r.file.data.drop r.offset.toNat).take (r.progress cached t).toNat).map some := by
  induction t with
  | zero => simp
  | succ t ih =>
      have more : (t : ℤ) < r.numberOfBlocks := by omega
      have position := Request.plan_position inside aligned more
      obtain ⟨low, _, grows⟩ := @Request.progress_bounds r cached positive t
      obtain ⟨_, high, _⟩ := @Request.progress_bounds r cached positive (t + 1)
      have cut := Request.remainingData_le inside
      have size := r.file.fileSize_le
      have first := Request.firstBlock_nonneg inside
      have offset := (@Request.planOffset_bounds r t).1
      have part : r.planBytes cached t
          = ((r.file.data.drop (r.offset + r.progress cached t).toNat).take
              (r.planSize cached t).toNat).map some := by
        simp only [Request.planBytes, Request.partBytes, Request.plan]
        rw [File.slice_blockBytes _ (by omega) offset (by simp only [Request.planSize]; omega)
          (fits t more), position]
        rw [position]
        simp only [Request.planSize]
        linarith
      have start := inside.nonneg
      have total : (r.progress cached (t + 1)).toNat
          = (r.progress cached t).toNat + (r.planSize cached t).toNat := by
        simp only [Request.planSize]
        omega
      have place : (r.offset + r.progress cached t).toNat
          = r.offset.toNat + (r.progress cached t).toNat := by omega
      rw [List.range_succ, List.flatMap_append, ih (by omega), List.flatMap_singleton, part, total,
        place, List.take_add, List.drop_drop, List.map_append]

-----------------------------------------------------------------------------------------
-- Exact reads
-----------------------------------------------------------------------------------------

/-- The number of bytes the file has for the request. -/
def Request.length (r : Request) : ℤ := min (r.size.toNat : ℤ) (r.file.stSize - r.offset)

/-- The first block is copied from its beginning, is cached, or is the only one, and the part
of the last block ends inside it. The last block starts a multiple of `block_size` behind
the first one's part, at the offset of the request in its first block.
-/
def Request.FitsBlocks (r : Request) (cached : Bool) : Prop :=
  (r.length ≤ r.file.blockSize ∨ r.offset % r.file.blockSize = 0 ∨ cached = true)
  ∧ r.offset % r.file.blockSize + (r.length - 1) % r.file.blockSize < r.file.blockSize

/-- Nothing is asked for, or the sum of size and offset does not wrap around and the request
fits the blocks.
-/
def Request.StaysInBlocks (r : Request) (cached : Bool) : Prop :=
  r.size.toNat = 0 ∨ r.size.toNat + r.offset < 2 ^ 64 ∧ r.FitsBlocks cached

/-- The call returns the bytes the file has for the request, from visited blocks that cover
their whole range, and copies nothing from outside a block.
-/
def ReadsExactly {Count : Type} [LinearOrder Count] [OrderTop Count] [One Count] [Add Count]
    (cfs : CfsState) (pread : Pread) (s : CacheManager Count BlockBuf) (r : Request)
    : Prop :=
  ∃ st,
    cachingRead cfs pread s r = .ok (r.length, st)
    ∧ st.buf = ((r.file.data.drop r.offset.toNat).take r.length.toNat).map some
    ∧ (∀ j,
        r.offset ≤ j
        → j < r.offset + r.length
        → ∃ copy ∈ st.copies,
            copy.block * r.file.blockSize ≤ j ∧ j < (copy.block + 1) * r.file.blockSize)
    ∧ ∀ copy ∈ st.copies,
        0 ≤ copy.blockOffset ∧ copy.blockOffset + copy.sizeToCopy ≤ r.file.blockSize

/-- The request is not for the log file and stays in its blocks, and no insertion for it removes the
first block of the old section.
-/
structure ReadsInBlocks {Count : Type} [LinearOrder Count] [OrderTop Count] [One Count]
    [Add Count] (args : CacheArgs) (cfs : CfsState) (s : CacheManager Count BlockBuf)
    (r : Request)
    : Prop where
  notLog : NotLog cfs r
  stays : r.StaysInBlocks (Cached s (r.blockID r.firstBlock))
  spares : r.SparesBoundaries (oldBoundary args) s

/-- A request inside a file that an `int` can measure. -/
structure Request.Proper (r : Request) : Prop where
  nonneg : 0 ≤ r.offset
  before : r.offset < r.file.stSize
  measured : r.file.stSize < 2 ^ 31

theorem Request.Proper.fileSize (h : r.Proper) : r.file.fileSize = r.file.stSize := by
  have nonneg := h.nonneg
  have before := h.before
  exact toInt_eq_self (by omega) h.measured

theorem Request.Proper.inside (h : r.Proper) : r.Inside := ⟨h.nonneg, h.fileSize ▸ h.before⟩

theorem Request.Proper.remainingData (h : r.Proper) (fits : r.size.toNat + r.offset < 2 ^ 64)
    : r.remainingData = r.length := by
  rw [remainingData_of_fits h.inside fits, h.fileSize, length]

theorem byteRequest_length {file : File} {path : Path} {offset : ℤ}
    (proper : (file.byteRequest path offset).Proper)
    : (file.byteRequest path offset).length = 1 := by
  have one : ((1 : UInt64).toNat : ℤ) = 1 := rfl
  have before : offset < file.stSize := proper.before
  change min ((1 : UInt64).toNat : ℤ) (file.stSize - offset) = 1
  rw [one]
  exact min_eq_left (Int.sub_pos_of_lt before)

/-- A single byte stays in its block. -/
theorem byteRequest_stays {file : File} {path : Path} {offset : ℤ}
    (proper : (file.byteRequest path offset).Proper) (cached : Bool)
    : (file.byteRequest path offset).StaysInBlocks cached := by
  have one : ((1 : UInt64).toNat : ℤ) = 1 := rfl
  have before : offset < file.stSize := proper.before
  have measured : file.stSize < 2 ^ 31 := proper.measured
  refine Or.inr ⟨?_, Or.inl ?_, ?_⟩
  · change ((1 : UInt64).toNat : ℤ) + offset < 2 ^ 64
    rw [one]
    linarith
  · rw [byteRequest_length proper]
    exact file.blockSize_pos
  · rw [byteRequest_length proper, Int.sub_self, Int.zero_emod, Int.add_zero]
    exact Int.emod_lt_of_pos offset file.blockSize_pos

/-- The end of the last block, in terms of remainders. -/
theorem Request.end_le_iff
    : r.blockOffset + r.remainingData ≤ r.numberOfBlocks * r.file.blockSize
      ↔ r.blockOffset + (r.remainingData - 1) % r.file.blockSize < r.file.blockSize := by
  obtain ⟨below, above, _⟩ := r.numberOfBlocks_bounds
  have remainder : (r.remainingData - 1) % r.file.blockSize
      = r.remainingData - 1 - (r.numberOfBlocks - 1) * r.file.blockSize := by
    have split' : r.remainingData - 1
        = r.remainingData - 1 - (r.numberOfBlocks - 1) * r.file.blockSize
          + (r.numberOfBlocks - 1) * r.file.blockSize := by ring
    rw [split', Int.add_mul_emod_self_right]
    rw [Int.emod_eq_of_lt (by linarith) (by linarith)]
    ring
  rw [remainder]
  constructor
  · intro fits
    linarith
  · intro fits
    have next : r.blockOffset + r.remainingData
        < r.numberOfBlocks * r.file.blockSize + 1 := by linarith
    exact Int.lt_add_one_iff.mp next

/-- Copies along a plan stay inside their blocks exactly when the plan does. -/
theorem copies_inside_iff {copies : List Copy} {count : ℕ}
    (parts : copies.map Copy.part = (List.range count).map (r.plan cached)) (size : ℤ)
    : (∀ copy ∈ copies, 0 ≤ copy.blockOffset ∧ copy.blockOffset + copy.sizeToCopy ≤ size)
      ↔ ∀ t < count, r.planOffset t + r.planSize cached t ≤ size := by
  constructor
  · intro inside t more
    have planned : r.plan cached t ∈ copies.map Copy.part := by
      rw [parts]
      exact List.mem_map_of_mem (List.mem_range.mpr more)
    obtain ⟨copy, member, part⟩ := List.mem_map.mp planned
    obtain ⟨_, sameOffset, sameSize⟩ : copy.block = _ ∧ copy.blockOffset = _
        ∧ copy.sizeToCopy = _ := by
      simpa only [Copy.part, Request.plan, Prod.mk.injEq] using part
    rw [← sameOffset, ← sameSize]
    exact (inside copy member).2
  · intro inside copy member
    have planned : copy.part ∈ (List.range count).map (r.plan cached) := by
      rw [← parts]
      exact List.mem_map_of_mem member
    obtain ⟨t, more, part⟩ := List.mem_map.mp planned
    obtain ⟨_, sameOffset, sameSize⟩ : _ = copy.block ∧ _ = copy.blockOffset
        ∧ _ = copy.sizeToCopy := by
      simpa only [Copy.part, Request.plan, Prod.mk.injEq] using part
    rw [← sameOffset, ← sameSize]
    exact ⟨(Request.planOffset_bounds t).1, inside t (List.mem_range.mp more)⟩

/-- The parts of a plan that ends inside its last block cover the whole request. -/
theorem copies_cover {copies : List Copy}
    (parts
      : copies.map Copy.part = (List.range r.numberOfBlocks.toNat).map (r.plan cached))
    (inside : r.Inside)
    (fits : r.blockOffset + r.remainingData ≤ r.numberOfBlocks * r.file.blockSize)
    {j : ℤ} (low : r.offset ≤ j) (high : j < r.offset + r.remainingData)
    : ∃ copy ∈ copies,
        copy.block * r.file.blockSize ≤ j ∧ j < (copy.block + 1) * r.file.blockSize := by
  have positive := r.file.blockSize_pos
  have begins := Request.firstBlock_mul inside
  have offset := r.blockOffset_nonneg
  have first : r.firstBlock ≤ j / r.file.blockSize :=
    (Int.le_ediv_iff_mul_le positive).mpr (by linarith)
  have last : j / r.file.blockSize < r.firstBlock + r.numberOfBlocks :=
    (Int.ediv_lt_iff_lt_mul positive).mpr (by
      rw [Int.add_mul]
      linarith)
  have planned : r.plan cached (j / r.file.blockSize - r.firstBlock).toNat
      ∈ copies.map Copy.part := by
    rw [parts]
    exact List.mem_map_of_mem (List.mem_range.mpr (by omega))
  obtain ⟨copy, member, part⟩ := List.mem_map.mp planned
  have block : copy.block = j / r.file.blockSize := by
    have same : copy.block = r.firstBlock + (j / r.file.blockSize - r.firstBlock).toNat :=
      congrArg Prod.fst part
    omega
  refine ⟨copy, member, ?_, ?_⟩
  · rw [block]
    exact Int.ediv_mul_le j positive.ne'
  · rw [block]
    exact Int.lt_ediv_add_one_mul_self j positive

theorem zeroRequest_fitsBlocks (size : UInt64) (offset : ℤ) (cached : Bool)
    : (zeroRequest size offset).FitsBlocks cached
      ↔ (min (size.toNat : ℤ) (8192 - offset) ≤ 4096 ∨ offset % 4096 = 0 ∨ cached = true)
        ∧ offset % 4096 + (min (size.toNat : ℤ) (8192 - offset) - 1) % 4096 < 4096 := by
  rw [← zeroFile_stSize, ← zeroFile_blockSize]
  rfl

section Reading

variable {cfg : Sections} {Count : Type} {files : Set File} [LinearOrder Count] [OrderTop Count]
  [One Count] [Add Count] {cfs : CfsState} {pread : Pread} {s : CacheManager Count BlockBuf}
  {history : List (BlockID × Bool)}

omit [LinearOrder Count] [OrderTop Count] [One Count] [Add Count] in
/-- The copies of a call for some bytes stay inside their blocks exactly when the request fits
the blocks.
-/
theorem Reached.inside_iff {st : ReadState Count}
    (h : Reached files cfg r s history r.numberOfBlocks.toNat st)
    (positive : 0 < r.remainingData) (data : r.remainingData = r.length)
    : (∀ copy ∈ st.copies,
        0 ≤ copy.blockOffset ∧ copy.blockOffset + copy.sizeToCopy ≤ r.file.blockSize)
      ↔ r.FitsBlocks (Cached s (r.blockID r.firstBlock)) := by
  have condition := @Request.plan_inside_iff r (Cached s (r.blockID r.firstBlock)) positive
  rw [Request.end_le_iff, data] at condition
  rw [copies_inside_iff h.copies, Request.FitsBlocks, ← Request.blockOffset, ← condition]
  exact forall_congr' (fun t => by rw [Int.lt_toNat])

/-- From a coherent cache, a call that reads exactly stays in its blocks; witness: it returns
the whole count, so it follows a plan, and its copies are the parts of this plan.
-/
theorem Coherent.stays_of_readsExactly
    {c : FrequencyCache cfg BlockID (Payload BlockBuf) Count}
    (coherent : Coherent files BlockOf s history c) (member : r.file ∈ files)
    (notLog : NotLog cfs r) (proper : r.Proper) (full : FullReads pread r)
    (exactly : ReadsExactly cfs pread s r)
    : r.StaysInBlocks (Cached s (r.blockID r.firstBlock)) := by
  obtain ⟨st, called, _, _, parts⟩ := exactly
  have before := proper.before
  rcases Nat.eq_zero_or_pos r.size.toNat with empty | some
  · exact Or.inl empty
  rcases Int.lt_or_le (r.size.toNat + r.offset) (2 ^ 64) with fits | wraps
  · have data := proper.remainingData fits
    have positive : 0 < r.remainingData := by
      rw [data, Request.length]
      omega
    obtain ⟨st', called', reached⟩ :=
      cachingRead_plan coherent member notLog proper.inside positive full
    obtain ⟨_, rfl⟩ := Prod.mk.inj (Except.ok.inj (called.symm.trans called'))
    exact Or.inr ⟨fits, (reached.inside_iff positive data).mp parts⟩
  · have nonpos := (Request.remainingData_of_wraps proper.inside wraps).le
    have returned := (Prod.mk.inj (Except.ok.inj
      (called.symm.trans (cachingRead_nothing notLog proper.inside nonpos)))).1
    simp only [Request.length] at returned
    omega

/-- A call that reads exactly is not for the log file, which is answered with an errno. -/
theorem ReadsExactly.notLog (exactly : ReadsExactly cfs pread s r)
    (before : r.offset < r.file.stSize)
    : NotLog cfs r := by
  by_contra log
  obtain ⟨st, called, _⟩ := exactly
  have returned : r.length = -enoent :=
    (Prod.mk.inj (Except.ok.inj (called.symm.trans (cachingRead_log log)))).1
  simp only [Request.length, enoent] at returned
  omega

/-- A call for no bytes reads exactly. -/
theorem Request.Proper.readsNothing (proper : r.Proper) (notLog : NotLog cfs r)
    (empty : r.size.toNat = 0)
    : ReadsExactly cfs pread s r := by
  have before := proper.before
  have length : r.length = 0 := by
    simp only [Request.length, empty]
    omega
  have start := proper.nonneg
  have bound := r.file.fileSize_lt
  have offset := proper.inside.before
  have data := proper.remainingData (by rw [empty]; push_cast; linarith)
  rw [length] at data
  refine ⟨.start s r, ?_, ?_, ?_, fun copy none => nomatch none⟩
  · rw [length]
    exact cachingRead_nothing notLog proper.inside data.le
  · rw [length]
    rfl
  · intro j low high
    omega

/-- What such a call has to read otherwise. -/
theorem Request.Proper.data (proper : r.Proper) (some : 0 < r.size.toNat)
    (fits : r.size.toNat + r.offset < 2 ^ 64)
    : r.remainingData = r.length ∧ 0 < r.remainingData := by
  have before := proper.before
  have data := proper.remainingData fits
  refine ⟨data, ?_⟩
  rw [data, Request.length]
  omega

/-- From a coherent cache over files that agree, a call that stays in its blocks reads exactly;
witness: its plan, whose bytes are those of the file.
-/
theorem Coherent.readsExactly_of_stays
    {c : FrequencyCache cfg BlockID (Payload BlockBuf) Count}
    (coherent : Coherent files BlockOf s history c) (agreeing : AgreeingBlocks files)
    (member : r.file ∈ files) (notLog : NotLog cfs r) (proper : r.Proper)
    (full : FullReads pread r)
    (stays : r.StaysInBlocks (Cached s (r.blockID r.firstBlock)))
    : ReadsExactly cfs pread s r := by
  have inside := proper.inside
  rcases Nat.eq_zero_or_pos r.size.toNat with empty | some
  · exact proper.readsNothing notLog empty
  · obtain ⟨fits, fitting⟩ := stays.resolve_left some.ne'
    obtain ⟨data, positive⟩ := proper.data some fits
    have blocks := Request.numberOfBlocks_pos positive
    obtain ⟨st, called, reached⟩ := cachingRead_plan coherent member notLog inside positive full
    have kept := fitting
    rw [Request.FitsBlocks, ← data] at kept
    have ends := Request.end_le_iff.mpr kept.2
    have planned := (Request.plan_inside_iff positive).mpr ⟨kept.1, ends⟩
    refine ⟨st, data ▸ called, ?_, ?_, (reached.inside_iff positive data).mpr fitting⟩
    · rw [reached.planned agreeing member, planBytes_eq inside positive kept.1 planned (by omega),
        Request.progress_last positive, data]
    · intro j low high
      rw [← data] at high
      exact copies_cover reached.copies inside ends low high

/-- An exact read of one byte stores what the block has there. -/
theorem ReadsExactly.byte {file : File} {path : Path} {k p : ℤ}
    (exactly : ReadsExactly cfs pread s (file.byteRequest path (k * file.blockSize + p)))
    (proper : (file.byteRequest path (k * file.blockSize + p)).Proper) (nonneg : 0 ≤ k)
    (low : 0 ≤ p) (high : p < file.blockSize)
    : ∃ st,
        cachingRead cfs pread s (file.byteRequest path (k * file.blockSize + p)) = .ok (1, st)
        ∧ st.buf = slice (file.blockBytes k) p 1 := by
  obtain ⟨st, called, stored, _⟩ := exactly
  have before : k * file.blockSize + p < file.stSize := proper.before
  rw [byteRequest_length proper] at called stored
  refine ⟨st, called, ?_⟩
  rw [stored, File.slice_blockBytes file nonneg low Int.one_nonneg high (by linarith)]
  rfl

variable (Count) in
/-- A defined call that is served a byte of another file with the id of its own. -/
theorem exists_foreign_call (args : CacheArgs) (cfs : CfsState)
    (several : 1 < args.sections.oldSize) {file other : File}
    (measured : file.stSize < 2 ^ 31) (member : file ∈ files) (otherMember : other ∈ files)
    (same : file.fileId = other.fileId) {k p : ℤ} (nonneg : 0 ≤ k)
    (otherInside : k * other.blockSize < other.fileSize) (low : 0 ≤ p) (high : p < file.blockSize)
    (inside : k * file.blockSize + p < file.fileSize)
    : ∃ (s : CacheManager Count BlockBuf) (path : Path) (st : ReadState Count),
        FsRead args cfs files s wholePread (file.byteRequest path (k * file.blockSize + p))
        ∧ (file.byteRequest path (k * file.blockSize + p)).Proper
        ∧ ReadsInBlocks args cfs s (file.byteRequest path (k * file.blockSize + p))
        ∧ cachingRead cfs wholePread s (file.byteRequest path (k * file.blockSize + p))
          = .ok (1, st)
        ∧ st.buf = slice (other.blockBytes k) p 1 := by
  have start (file : File) : 0 ≤ k * file.blockSize := Int.mul_nonneg nonneg file.blockSize_pos.le
  obtain ⟨otherPath, first, otherNotLog, read, _, cached, served⟩ :=
    exists_served_byte Count args cfs same nonneg otherInside low high inside
  have one := @byteRequest_numberOfBlocks other otherPath _ (start other) otherInside
  have reached := definedReaches_first several otherMember otherNotLog
    (byteRequest_inside (start other) otherInside)
    (one ▸ Nat.succ_le_of_lt (Nat.zero_lt_of_lt args.sections.oldStart_lt_size)) read
  obtain ⟨path, notLog⟩ := exists_notLog cfs file (k * file.blockSize + p)
  obtain ⟨st, called, _, bytes⟩ := served path notLog
  have offset : 0 ≤ k * file.blockSize + p := Int.add_nonneg (start file) low
  have proper : (file.byteRequest path (k * file.blockSize + p)).Proper :=
    ⟨offset, inside.trans_le file.fileSize_le, measured⟩
  have block : (k * file.blockSize + p) / file.blockSize = k := by
    rw [Int.add_comm, Int.add_mul_ediv_right _ _ file.blockSize_pos.ne',
      Int.ediv_eq_zero_of_lt low high, Int.zero_add]
  have spares : (file.byteRequest path (k * file.blockSize + p)).SparesBoundaries
      (oldBoundary args) first.cacheManager := by
    obtain ⟨positive, short⟩ := @byteRequest_single file path _ offset inside
    refine Request.sparesBoundaries_single positive short (fun absent => ?_)
    rw [byteRequest_blockID offset inside, block, same] at absent
    rw [Cached, absent] at cached
    cases cached
  exact ⟨first.cacheManager, path, st, ⟨reached, member, wholePread_full _⟩, proper,
    ⟨notLog, byteRequest_stays proper _, spares⟩, called, bytes⟩

/-- In every run of defined reads and renames, only calls that meet the condition are defined and
read exactly. All of these do so if, and only if, the files that share an id have the same
blocks; with a single old place no such call is for any byte.
-/
theorem fsReads_exact_iff (args : CacheArgs) (cfs : CfsState) (files : Set File)
    (measured : ∀ file ∈ files, file.stSize < 2 ^ 31)
    : (∀ (s : CacheManager Count BlockBuf) pread r,
        FsRead args cfs files s pread r
        → 0 ≤ r.offset
        → r.offset < r.file.stSize
        → ReadDefined cfs pread s r
        → ReadsExactly cfs pread s r
        → ReadsInBlocks args cfs s r)
      ∧ ((∀ (s : CacheManager Count BlockBuf) pread r,
          FsRead args cfs files s pread r
          → 0 ≤ r.offset
          → r.offset < r.file.stSize
          → ReadsInBlocks args cfs s r
          → ReadDefined cfs pread s r ∧ ReadsExactly cfs pread s r)
        ↔ (1 < oldSectionSize args.numberOfBlocks args.fOld → AgreeingBlocks files)) := by
  have oldSize := args.oldSize_eq
  refine ⟨?_, ?_, ?_⟩
  · intro s pread r call nonneg before defined exactly
    have proper : r.Proper := ⟨nonneg, before, measured r.file call.member⟩
    have notLog := exactly.notLog before
    obtain ⟨history, c, coherent⟩ := call.coherent
    exact ⟨notLog,
      coherent.stays_of_readsExactly call.member notLog proper call.full exactly,
      (call.readDefined_iff notLog proper.inside).mp defined⟩
  · intro exactly several
    refine agreeingBlocks_of_bytes measured ?_
    intro file member other otherMember same k p nonneg otherInside low high inside
    obtain ⟨s, path, st, call, proper, condition, called, bytes⟩ :=
      exists_foreign_call Count args cfs (by omega) (measured file member) member otherMember same
        nonneg otherInside low high inside
    obtain ⟨st', called', own⟩ :=
      (exactly s wholePread _ call proper.nonneg proper.before condition).2.byte proper nonneg low
        high
    cases called.symm.trans called'
    exact bytes.symm.trans own
  · intro agreeing s pread r call nonneg before condition
    obtain ⟨notLog, stays, spares⟩ := condition
    have proper : r.Proper := ⟨nonneg, before, measured r.file call.member⟩
    refine ⟨(call.readDefined_iff notLog proper.inside).mpr spares, ?_⟩
    rcases Nat.eq_zero_or_pos r.size.toNat with empty | some
    · exact proper.readsNothing notLog empty
    rcases Int.lt_or_le 1 (oldSectionSize args.numberOfBlocks args.fOld) with several | single
    · obtain ⟨history, c, coherent⟩ := call.coherent
      exact coherent.readsExactly_of_stays (agreeing several) call.member notLog proper call.full
        stays
    · have oldPositive := args.sections.oldPositive
      obtain ⟨_, positive⟩ := proper.data some (stays.resolve_left some.ne').1
      exact absurd spares (call.not_sparesBoundaries (by omega) positive)

end Reading

theorem reads_first_bytes
    : ReadDefined (.below []) wholePread
        (.new 4 (1 / 2) (1 / 4) : CacheManager Int32 BlockBuf) (zeroRequest 10 0)
      ∧ ReadsExactly (.below []) wholePread
          (.new 4 (1 / 2) (1 / 4) : CacheManager Int32 BlockBuf) (zeroRequest 10 0) := by
  have call := zeroFile_read (@definedReaches_new Int32 _ _ _ _ twoOldArgs (.below []) {zeroFile})
    10 0
  have exactly := (@fsReads_exact_iff Int32 _ _ _ _ twoOldArgs (.below []) {zeroFile}
    zeroFiles_measured).2.mpr (fun _ => zeroFile_oneDevice.distinctIds.agreeingBlocks)
  have before : (0 : ℤ) < zeroFile.stSize := zeroFile_stSize ▸ by decide
  refine exactly _ wholePread (zeroRequest 10 0) call (le_refl 0) before
    ⟨zeroRequest_notLog 10 0, Or.inr ⟨by decide, ?_⟩, ?_⟩
  · exact (zeroRequest_fitsBlocks _ _ _).mpr ⟨Or.inl (by decide), by decide⟩
  · exact zeroRequest_spares (new_represents twoOldArgs) (Nat.zero_le 1)
      ⟨le_refl 0, zeroFile_fileSize ▸ by decide⟩

/-- Two bytes across the end of the first block are not read exactly. -/
theorem straddling_read_inexact
    : FsRead twoOldArgs (.below []) {zeroFile}
        (.new 4 (1 / 2) (1 / 4) : CacheManager Int32 BlockBuf) wholePread (zeroRequest 2 4095)
      ∧ (zeroRequest 2 4095).Proper
      ∧ ReadDefined (.below []) wholePread
          (.new 4 (1 / 2) (1 / 4) : CacheManager Int32 BlockBuf) (zeroRequest 2 4095)
      ∧ ¬ ReadsExactly (.below []) wholePread
          (.new 4 (1 / 2) (1 / 4) : CacheManager Int32 BlockBuf) (zeroRequest 2 4095) := by
  have initially := @coherent_new Int32 {zeroFile} BlockOf _ twoOldArgs
  have call := zeroFile_read (@definedReaches_new Int32 _ _ _ _ twoOldArgs (.below []) {zeroFile})
    2 4095
  have proper : (zeroRequest 2 4095).Proper :=
    ⟨by decide, zeroFile_stSize ▸ by decide, zeroFile_measured⟩
  refine ⟨call, proper, ?_, fun exactly => ?_⟩
  · exact (call.readDefined_iff (zeroRequest_notLog 2 4095) proper.inside).mpr
      (zeroRequest_spares (new_represents twoOldArgs) (Nat.zero_le 1) proper.inside)
  rcases initially.stays_of_readsExactly call.member (zeroRequest_notLog 2 4095) proper call.full
    exactly with empty | ⟨_, fits⟩
  · exact absurd empty (by decide)
  · exact absurd ((zeroRequest_fitsBlocks _ _ _).mp fits).2 (by decide)

end CachingFileSystem.FileSystem
