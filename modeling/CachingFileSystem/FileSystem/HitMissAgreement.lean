import CachingFileSystem.FileSystem.ReadTransparency

/-! When a read copies the same from two caches over the same files. -/

namespace CachingFileSystem.FileSystem

open CachingFileSystem.BufferCache
open CachingFileSystem.Containers
open CachingFileSystem.ReplacementPolicy

section Agreement

variable {Count : Type} [LinearOrder Count] [OrderTop Count] [One Count] [Add Count]

/-- Both calls complete and copy the same parts of the same blocks. -/
def SameCopies (cfs : CfsState) (pread₁ pread₂ : Pread) (s₁ s₂ : CacheManager Count BlockBuf)
    (r : Request)
    : Prop :=
  ∃ ret₁ st₁ ret₂ st₂,
    cachingRead cfs pread₁ s₁ r = .ok (ret₁, st₁)
    ∧ cachingRead cfs pread₂ s₂ r = .ok (ret₂, st₂)
    ∧ st₁.copies.map Copy.part = st₂.copies.map Copy.part

/-- They also store the same bytes. Bytes that are indeterminate need not be the same. -/
def SameBytes (cfs : CfsState) (pread₁ pread₂ : Pread) (s₁ s₂ : CacheManager Count BlockBuf)
    (r : Request)
    : Prop :=
  ∃ ret₁ st₁ ret₂ st₂,
    cachingRead cfs pread₁ s₁ r = .ok (ret₁, st₁)
    ∧ cachingRead cfs pread₂ s₂ r = .ok (ret₂, st₂)
    ∧ st₁.copies.map Copy.part = st₂.copies.map Copy.part
    ∧ st₁.buf = st₂.buf
    ∧ none ∉ st₁.buf

end Agreement

namespace Request

/-- The request is for some bytes from inside the file, and asks for so few that the sum of
size and offset does not wrap around.
-/
structure Copies (r : Request) : Prop where
  inside : 0 ≤ r.offset ∧ r.offset < r.file.stSize
  some : 0 < r.size.toNat
  fits : r.size.toNat + r.offset < 2 ^ 64

variable {r : Request} {cached cached' : Bool}

/-- Plans differ exactly when several blocks are needed, the first one is not copied from its
start, and only one of the two calls finds it cached.
-/
theorem plan_eq_iff (positive : 0 < r.remainingData)
    : (List.range r.numberOfBlocks.toNat).map (r.plan cached)
        = (List.range r.numberOfBlocks.toNat).map (r.plan cached')
      ↔ r.remainingData ≤ r.file.blockSize ∨ r.blockOffset = 0 ∨ cached = cached' := by
  have blocks := numberOfBlocks_pos positive
  have several := @one_lt_numberOfBlocks_iff r
  constructor
  · intro same
    by_contra differ
    simp only [not_or, Int.not_le] at differ
    obtain ⟨long, unaligned, different⟩ := differ
    have many : (0 : ℤ) + 1 < r.numberOfBlocks := several.mpr long
    have first := List.map_inj_left.mp same 0 (List.mem_range.mpr (by omega))
    have sizes : r.planSize cached 0 = r.planSize cached' 0 :=
      congrArg (fun part : ℤ × ℤ × ℤ => part.2.2) first
    simp only [planSize, progress_succ, progress_zero, Int.natCast_zero, many, if_true] at sizes
    cases cached <;> cases cached'
    case false.false => exact different rfl
    case true.true => exact different rfl
    all_goals
      simp only [firstShare, Bool.false_eq_true, if_true, if_false] at sizes
      omega
  · intro same
    refine List.map_congr_left (fun t _ => ?_)
    have progress (t : ℕ) : r.progress cached t = r.progress cached' t := by
      cases t with
      | zero => rfl
      | succ t =>
          rw [progress_succ, progress_succ]
          split
          · next before =>
              have long : ¬ r.remainingData ≤ r.file.blockSize := by
                rw [Int.not_le, ← several]
                omega
              rcases same.resolve_left long with zero | rfl
              · rw [firstShare_eq (Or.inl zero), firstShare_eq (Or.inl zero)]
              · rfl
          · rfl
    simp only [plan, planSize, progress]

/-- If every byte of the plan is determined, it stays inside its blocks. -/
theorem plan_inside_of_determined
    (determined : none ∉ (List.range r.numberOfBlocks.toNat).flatMap (r.planBytes cached))
    {t : ℕ} (more : (t : ℤ) < r.numberOfBlocks)
    : r.planOffset t + r.planSize cached t ≤ r.file.blockSize := by
  by_contra past
  have offset := @planOffset_bounds r t
  have length : ((r.file.blockBytes (r.firstBlock + t)).length : ℤ) ≤ r.file.blockSize := by
    have taken : (r.file.blockBytes (r.firstBlock + t)).length ≤ r.file.blockSize.toNat :=
      List.length_take_le _ _
    omega
  refine determined (List.mem_flatMap.mpr ⟨t, List.mem_range.mpr (by omega), ?_⟩)
  change none ∈ slice (r.file.blockBytes (r.firstBlock + t)) (r.planOffset t) (r.planSize cached t)
  exact none_mem_slice offset.1 (by omega) (by omega)

end Request

section Reading

variable {cfg₁ cfg₂ : Sections} {Count : Type} {files : Set File} [LinearOrder Count]
  [OrderTop Count] [One Count] [Add Count] {cfs : CfsState} {pread₁ pread₂ : Pread}
  {s₁ s₂ : CacheManager Count BlockBuf} {history₁ history₂ : List (BlockID × Bool)} {r : Request}

/-- Calls that copy nothing agree. -/
theorem agree_of_nothing {ret₁ ret₂ : ℤ}
    (called₁ : cachingRead cfs pread₁ s₁ r = .ok (ret₁, .start s₁ r))
    (called₂ : cachingRead cfs pread₂ s₂ r = .ok (ret₂, .start s₂ r))
    : SameCopies cfs pread₁ pread₂ s₁ s₂ r ∧ SameBytes cfs pread₁ pread₂ s₁ s₂ r :=
  ⟨⟨_, _, _, _, called₁, called₂, rfl⟩,
    ⟨_, _, _, _, called₁, called₂, rfl, rfl, List.not_mem_nil⟩⟩

/-- Calls that follow their plans copy the same exactly when the plans are the same. -/
theorem Reached.sameCopies_iff {st₁ st₂ : ReadState Count}
    (called₁ : cachingRead cfs pread₁ s₁ r = .ok (r.remainingData, st₁))
    (called₂ : cachingRead cfs pread₂ s₂ r = .ok (r.remainingData, st₂))
    (reached₁ : Reached files cfg₁ r s₁ history₁ r.numberOfBlocks.toNat st₁)
    (reached₂ : Reached files cfg₂ r s₂ history₂ r.numberOfBlocks.toNat st₂)
    (positive : 0 < r.remainingData)
    : SameCopies cfs pread₁ pread₂ s₁ s₂ r
      ↔ r.remainingData ≤ r.file.blockSize
        ∨ r.blockOffset = 0
        ∨ Cached s₁ (r.blockID r.firstBlock) = Cached s₂ (r.blockID r.firstBlock) := by
  rw [← Request.plan_eq_iff positive, ← reached₁.copies, ← reached₂.copies]
  constructor
  · intro agree
    rcases agree with ⟨_, st, _, st', first, second, same⟩
    cases first.symm.trans called₁
    cases second.symm.trans called₂
    exact same
  · exact fun same => ⟨_, st₁, _, st₂, called₁, called₂, same⟩

/-- Where files agree, they store the same determined bytes exactly when both plans stay
inside their blocks; witness: the determined bytes of such plans are those of the file.
-/
theorem Reached.sameBytes_iff {st₁ st₂ : ReadState Count} (inside : r.Inside)
    (called₁ : cachingRead cfs pread₁ s₁ r = .ok (r.remainingData, st₁))
    (called₂ : cachingRead cfs pread₂ s₂ r = .ok (r.remainingData, st₂))
    (reached₁ : Reached files cfg₁ r s₁ history₁ r.numberOfBlocks.toNat st₁)
    (reached₂ : Reached files cfg₂ r s₂ history₂ r.numberOfBlocks.toNat st₂)
    (positive : 0 < r.remainingData) (agreeing : AgreeingBlocks files) (member : r.file ∈ files)
    : SameBytes cfs pread₁ pread₂ s₁ s₂ r
      ↔ (r.remainingData ≤ r.file.blockSize
          ∨ r.blockOffset = 0
          ∨ (Cached s₁ (r.blockID r.firstBlock) && Cached s₂ (r.blockID r.firstBlock)) = true)
        ∧ r.blockOffset + r.remainingData ≤ r.numberOfBlocks * r.file.blockSize := by
  have blocks := Request.numberOfBlocks_pos positive
  have stored₁ := reached₁.planned agreeing member
  have stored₂ := reached₂.planned agreeing member
  constructor
  · intro agree
    rcases agree with ⟨_, st, _, st', first, second, copies, bytes, determined⟩
    cases first.symm.trans called₁
    cases second.symm.trans called₂
    have again := determined
    rw [bytes, stored₂] at again
    rw [stored₁] at determined
    obtain ⟨aligned₁, fits⟩ := (Request.plan_inside_iff positive).mp
      (fun t more => Request.plan_inside_of_determined determined more)
    obtain ⟨aligned₂, _⟩ := (Request.plan_inside_iff positive).mp
      (fun t more => Request.plan_inside_of_determined again more)
    refine ⟨?_, fits⟩
    rcases aligned₁ with short | zero | cached₁
    · exact Or.inl short
    · exact Or.inr (Or.inl zero)
    · rcases aligned₂ with short | zero | cached₂
      · exact Or.inl short
      · exact Or.inr (Or.inl zero)
      · exact Or.inr (Or.inr (Bool.and_eq_true_iff.mpr ⟨cached₁, cached₂⟩))
  · intro planned
    rcases planned with ⟨aligned, fits⟩
    rw [Bool.and_eq_true_iff] at aligned
    have aligned₁ := aligned.imp_right (Or.imp_right And.left)
    have aligned₂ := aligned.imp_right (Or.imp_right And.right)
    have plans : (List.range r.numberOfBlocks.toNat).map
          (r.plan (Cached s₁ (r.blockID r.firstBlock)))
        = (List.range r.numberOfBlocks.toNat).map
          (r.plan (Cached s₂ (r.blockID r.firstBlock))) :=
      (Request.plan_eq_iff positive).mpr (aligned.imp_right (Or.imp_right
        (fun both => both.1.trans both.2.symm)))
    have bytes₁ := planBytes_eq inside positive aligned₁
      ((Request.plan_inside_iff positive).mpr ⟨aligned₁, fits⟩)
      (by omega : ((r.numberOfBlocks.toNat : ℕ) : ℤ) ≤ r.numberOfBlocks)
    have bytes₂ := planBytes_eq inside positive aligned₂
      ((Request.plan_inside_iff positive).mpr ⟨aligned₂, fits⟩)
      (by omega : ((r.numberOfBlocks.toNat : ℕ) : ℤ) ≤ r.numberOfBlocks)
    rw [← stored₁, Request.progress_last positive] at bytes₁
    rw [← stored₂, Request.progress_last positive] at bytes₂
    refine ⟨_, st₁, _, st₂, called₁, called₂, ?_, bytes₁.trans bytes₂.symm, ?_⟩
    · rw [reached₁.copies, reached₂.copies, plans]
    · rw [bytes₁]
      intro missing
      obtain ⟨byte, _, same⟩ := List.mem_map.mp missing
      cases same

/-- A request from inside the file that is no request for some bytes has nothing to read. -/
theorem Request.Inside.nothing (inside : r.Inside) (measured : r.file.stSize < 2 ^ 31)
    (idle : ¬ r.Copies)
    : r.remainingData ≤ 0 := by
  have before := inside.before
  rw [File.fileSize_eq measured] at before
  have proper : r.Proper := ⟨inside.nonneg, before, measured⟩
  rcases Int.lt_or_le (r.size.toNat + r.offset) (2 ^ 64) with fits | wraps
  · rw [proper.remainingData fits, Request.length]
    have empty : ¬ 0 < r.size.toNat := fun some => idle ⟨⟨inside.nonneg, before⟩, some, fits⟩
    omega
  · exact (Request.remainingData_of_wraps inside wraps).le

/-- A call that copies nothing, or is for the log file, leaves the variables as they were. -/
theorem cachingRead_idle (measured : r.file.stSize < 2 ^ 31)
    (idle : NotLog cfs r → ¬ r.Copies) (pread : Pread) (s : CacheManager Count BlockBuf)
    : ∃ ret, cachingRead cfs pread s r = .ok (ret, .start s r) := by
  by_cases notLog : NotLog cfs r
  · by_cases inside : r.Inside
    · exact ⟨0, cachingRead_nothing notLog inside (inside.nothing measured (idle notLog))⟩
    · exact ⟨0, cachingRead_rejected notLog inside⟩
  · exact ⟨-enoent, cachingRead_log notLog⟩

/-- What a call for some bytes computes before its loop. -/
theorem Request.Copies.data (h : r.Copies) (measured : r.file.stSize < 2 ^ 31)
    : r.Inside ∧ r.remainingData = r.length ∧ 0 < r.remainingData := by
  have proper : r.Proper := ⟨h.inside.1, h.inside.2, measured⟩
  have data := proper.remainingData h.fits
  have some := h.some
  have before := h.inside.2
  refine ⟨proper.inside, data, ?_⟩
  rw [data, Request.length]
  omega

/-- A call is defined unless it is for some bytes and an insertion for it removes the first block of
the old section.
-/
theorem FsRead.defined_iff {args : CacheArgs} {pread : Pread} {s : CacheManager Count BlockBuf}
    (call : FsRead args cfs files s pread r) (measured : r.file.stSize < 2 ^ 31)
    : ReadDefined cfs pread s r
      ↔ (NotLog cfs r → r.Copies → r.SparesBoundaries (oldBoundary args) s) := by
  constructor
  · intro defined notLog copies
    exact (call.readDefined_iff notLog (copies.data measured).1).mp defined
  · intro spares notLog inside
    by_cases copies : r.Copies
    · exact (call.readDefined_iff notLog inside).mpr (spares notLog copies) notLog inside
    · have none := Request.numberOfBlocks_nonpos (inside.nothing measured copies)
      rw [Int.toNat_of_nonpos none]
      trivial

/-- The two calls copy the same unless a request of more than one block from inside its
first one finds that block in only one of the caches.
-/
theorem Coherent.sameCopies_iff {c₁ : FrequencyCache cfg₁ BlockID (Payload BlockBuf) Count}
    {c₂ : FrequencyCache cfg₂ BlockID (Payload BlockBuf) Count}
    (coherent₁ : Coherent files BlockOf s₁ history₁ c₁)
    (coherent₂ : Coherent files BlockOf s₂ history₂ c₂) (member : r.file ∈ files)
    (measured : r.file.stSize < 2 ^ 31) (full₁ : FullReads pread₁ r) (full₂ : FullReads pread₂ r)
    : SameCopies cfs pread₁ pread₂ s₁ s₂ r
      ↔ (NotLog cfs r
          → r.Copies
          → r.length ≤ r.file.blockSize
            ∨ r.offset % r.file.blockSize = 0
            ∨ Cached s₁ (r.blockID r.firstBlock) = Cached s₂ (r.blockID r.firstBlock)) := by
  rcases Classical.em (NotLog cfs r ∧ r.Copies) with ⟨notLog, copies⟩ | idle
  · obtain ⟨inside, data, positive⟩ := copies.data measured
    obtain ⟨st₁, called₁, reached₁⟩ :=
      cachingRead_plan coherent₁ member notLog inside positive full₁
    obtain ⟨st₂, called₂, reached₂⟩ :=
      cachingRead_plan coherent₂ member notLog inside positive full₂
    have same := reached₁.sameCopies_iff called₁ called₂ reached₂ positive
    rw [data] at same
    exact same.trans ⟨fun holds _ _ => holds, fun holds => holds notLog copies⟩
  · rw [not_and] at idle
    obtain ⟨_, called₁⟩ := cachingRead_idle measured idle pread₁ s₁
    obtain ⟨_, called₂⟩ := cachingRead_idle measured idle pread₂ s₂
    exact iff_of_true (agree_of_nothing called₁ called₂).1
      (fun notLog copies => absurd copies (idle notLog))

/-- Where files agree, they also store the same determined bytes unless such a request misses
its first block in one of the caches, or a last part ends past its block.
-/
theorem Coherent.sameBytes_iff {c₁ : FrequencyCache cfg₁ BlockID (Payload BlockBuf) Count}
    {c₂ : FrequencyCache cfg₂ BlockID (Payload BlockBuf) Count}
    (coherent₁ : Coherent files BlockOf s₁ history₁ c₁)
    (coherent₂ : Coherent files BlockOf s₂ history₂ c₂) (agreeing : AgreeingBlocks files)
    (member : r.file ∈ files) (measured : r.file.stSize < 2 ^ 31)
    (full₁ : FullReads pread₁ r) (full₂ : FullReads pread₂ r)
    : SameBytes cfs pread₁ pread₂ s₁ s₂ r
      ↔ (NotLog cfs r
          → r.Copies
          → r.FitsBlocks
              (Cached s₁ (r.blockID r.firstBlock) && Cached s₂ (r.blockID r.firstBlock))) := by
  rcases Classical.em (NotLog cfs r ∧ r.Copies) with ⟨notLog, copies⟩ | idle
  · obtain ⟨inside, data, positive⟩ := copies.data measured
    obtain ⟨st₁, called₁, reached₁⟩ :=
      cachingRead_plan coherent₁ member notLog inside positive full₁
    obtain ⟨st₂, called₂, reached₂⟩ :=
      cachingRead_plan coherent₂ member notLog inside positive full₂
    have bytes := reached₁.sameBytes_iff inside called₁ called₂ reached₂ positive agreeing member
    rw [Request.end_le_iff, data] at bytes
    exact bytes.trans ⟨fun holds _ _ => holds, fun holds => holds notLog copies⟩
  · rw [not_and] at idle
    obtain ⟨_, called₁⟩ := cachingRead_idle measured idle pread₁ s₁
    obtain ⟨_, called₂⟩ := cachingRead_idle measured idle pread₂ s₂
    exact iff_of_true (agree_of_nothing called₁ called₂).2
      (fun notLog copies => absurd copies (idle notLog))

variable {args₁ args₂ : CacheArgs}

/-- A first read of a byte is defined with several old places, and gets the file's own byte. -/
theorem exists_cold_byte (several : 1 < args₁.sections.oldSize) {file : File} {path : Path}
    {k p : ℤ} (member : file ∈ files)
    (notLog : NotLog cfs (file.byteRequest path (k * file.blockSize + p)))
    (proper : (file.byteRequest path (k * file.blockSize + p)).Proper) (nonneg : 0 ≤ k)
    (low : 0 ≤ p) (high : p < file.blockSize)
    : ∃ (s : CacheManager Count BlockBuf) (st : ReadState Count),
        FsRead args₁ cfs files s wholePread (file.byteRequest path (k * file.blockSize + p))
        ∧ (file.byteRequest path (k * file.blockSize + p)).SparesBoundaries (oldBoundary args₁) s
        ∧ cachingRead cfs wholePread s (file.byteRequest path (k * file.blockSize + p))
          = .ok (1, st)
        ∧ st.buf = slice (file.blockBytes k) p 1 := by
  have full := wholePread_full (file.byteRequest path (k * file.blockSize + p))
  have alone : AgreeingBlocks {file} :=
    DistinctIds.agreeingBlocks (fun _ first _ second _ => first.trans second.symm)
  obtain ⟨st, called, own⟩ :=
    ((@coherent_new Count {file} BlockOf _ args₁).readsExactly_of_stays alone
      (Set.mem_singleton file) notLog proper full (byteRequest_stays proper _)).byte proper nonneg
      low high
  have one := @byteRequest_numberOfBlocks file path _ proper.nonneg proper.inside.before
  have room := Nat.succ_le_of_lt (Nat.zero_lt_of_lt args₁.sections.oldStart_lt_size)
  exact ⟨_, st, ⟨definedReaches_new args₁ cfs files, member, full⟩,
    sparesBoundaries_new several proper.inside (one ▸ room), called, own⟩

/-- If one of the caches has a single old place, not both spare it in a request for some bytes. -/
theorem not_both_spare (call₁ : FsRead args₁ cfs files s₁ pread₁ r)
    (call₂ : FsRead args₂ cfs files s₂ pread₂ r) (positive : 0 < r.remainingData)
    (single : ¬ (1 < args₁.sections.oldSize ∧ 1 < args₂.sections.oldSize))
    : ¬ (r.SparesBoundaries (oldBoundary args₁) s₁
        ∧ r.SparesBoundaries (oldBoundary args₂) s₂) := by
  have oldPositive₁ := args₁.sections.oldPositive
  have oldPositive₂ := args₂.sections.oldPositive
  intro both
  obtain ⟨spares₁, spares₂⟩ := both
  rcases Nat.lt_or_ge 1 args₁.sections.oldSize with several₁ | single₁
  · exact call₂.not_sparesBoundaries (by omega) positive spares₂
  · exact call₁.not_sparesBoundaries (by omega) positive spares₁

/-- In any two runs of defined reads and renames over the same files, two calls for one request are
defined and copy the same parts under this condition and no other. That they are defined and
store the same bytes has its condition too if, and only if, the files that share an id have the
same blocks; where one of the caches has a single old place, no such call is for any byte.
-/
theorem fsReads_agree_iff (args₁ args₂ : CacheArgs) (cfs : CfsState) (files : Set File)
    (measured : ∀ file ∈ files, file.stSize < 2 ^ 31)
    : (∀ (s₁ s₂ : CacheManager Count BlockBuf) pread₁ pread₂ r,
        FsRead args₁ cfs files s₁ pread₁ r
        → FsRead args₂ cfs files s₂ pread₂ r
        → (ReadDefined cfs pread₁ s₁ r
            ∧ ReadDefined cfs pread₂ s₂ r
            ∧ SameCopies cfs pread₁ pread₂ s₁ s₂ r
          ↔ (NotLog cfs r
              → r.Copies
              → r.SparesBoundaries (oldBoundary args₁) s₁
                ∧ r.SparesBoundaries (oldBoundary args₂) s₂
                ∧ (r.length ≤ r.file.blockSize
                  ∨ r.offset % r.file.blockSize = 0
                  ∨ Cached s₁ (r.blockID r.firstBlock) = Cached s₂ (r.blockID r.firstBlock)))))
      ∧ ((∀ (s₁ s₂ : CacheManager Count BlockBuf) pread₁ pread₂ r,
          FsRead args₁ cfs files s₁ pread₁ r
          → FsRead args₂ cfs files s₂ pread₂ r
          → (ReadDefined cfs pread₁ s₁ r
              ∧ ReadDefined cfs pread₂ s₂ r
              ∧ SameBytes cfs pread₁ pread₂ s₁ s₂ r
            ↔ (NotLog cfs r
                → r.Copies
                → r.SparesBoundaries (oldBoundary args₁) s₁
                  ∧ r.SparesBoundaries (oldBoundary args₂) s₂
                  ∧ r.FitsBlocks
                      (Cached s₁ (r.blockID r.firstBlock)
                        && Cached s₂ (r.blockID r.firstBlock)))))
        ↔ (1 < oldSectionSize args₁.numberOfBlocks args₁.fOld
            → 1 < oldSectionSize args₂.numberOfBlocks args₂.fOld
            → AgreeingBlocks files)) := by
  have oldSize₁ := args₁.oldSize_eq
  have oldSize₂ := args₂.oldSize_eq
  refine ⟨?_, ?_, ?_⟩
  · intro s₁ s₂ pread₁ pread₂ r call₁ call₂
    obtain ⟨history₁, c₁, coherent₁⟩ := call₁.coherent
    obtain ⟨history₂, c₂, coherent₂⟩ := call₂.coherent
    have small := measured r.file call₁.member
    rw [call₁.defined_iff small, call₂.defined_iff small,
      coherent₁.sameCopies_iff coherent₂ call₁.member small call₁.full call₂.full]
    simp only [imp_and]
  · intro agree several₁ several₂
    refine agreeingBlocks_of_bytes measured ?_
    intro file member other otherMember same k p nonneg otherInside low high inside
    obtain ⟨s, path, st, call, proper, condition, called, bytes⟩ :=
      exists_foreign_call Count args₂ cfs (by omega) (measured file member) member otherMember same
        nonneg otherInside low high inside
    obtain ⟨s', st', cold, spares, called', own⟩ :=
      @exists_cold_byte Count files _ _ _ _ cfs args₁ (by omega) file path k p member
        condition.notLog proper nonneg low high
    obtain ⟨_, _, _, st₁, _, st₂, called₁, called₂, _, stored, _⟩ :=
      (agree s' s wholePread wholePread _ cold call).mpr (fun _ copies =>
        ⟨spares, condition.spares,
          ((byteRequest_stays proper _).resolve_left (Nat.ne_of_gt copies.some)).2⟩)
    cases called₁.symm.trans called'
    cases called₂.symm.trans called
    exact bytes.symm.trans (stored.symm.trans own)
  · intro agreeing s₁ s₂ pread₁ pread₂ r call₁ call₂
    obtain ⟨history₁, c₁, coherent₁⟩ := call₁.coherent
    obtain ⟨history₂, c₂, coherent₂⟩ := call₂.coherent
    have small := measured r.file call₁.member
    rw [call₁.defined_iff small, call₂.defined_iff small]
    rcases Classical.em (1 < args₁.sections.oldSize ∧ 1 < args₂.sections.oldSize)
      with several | single
    · rw [coherent₁.sameBytes_iff coherent₂ (agreeing (by omega) (by omega)) call₁.member small
        call₁.full call₂.full]
      simp only [imp_and]
    rcases Classical.em (NotLog cfs r ∧ r.Copies) with ⟨notLog, copies⟩ | idle
    · have never := not_both_spare call₁ call₂ (copies.data small).2.2 single
      exact iff_of_false
        (fun both => never ⟨both.1 notLog copies, both.2.1 notLog copies⟩)
        (fun both => never ⟨(both notLog copies).1, (both notLog copies).2.1⟩)
    · rw [not_and] at idle
      obtain ⟨_, called₁⟩ := cachingRead_idle small idle pread₁ s₁
      obtain ⟨_, called₂⟩ := cachingRead_idle small idle pread₂ s₂
      exact iff_of_true
        ⟨fun notLog copies => absurd copies (idle notLog),
          fun notLog copies => absurd copies (idle notLog), (agree_of_nothing called₁ called₂).2⟩
        (fun notLog copies => absurd copies (idle notLog))

end Reading

theorem first_bytes_agree
    : ∃ s : CacheManager Int32 BlockBuf,
        Cached s (7, 0) = true
        ∧ ReadDefined (.below []) wholePread
            (.new 4 (1 / 2) (1 / 4) : CacheManager Int32 BlockBuf) (zeroRequest 10 0)
        ∧ ReadDefined (.below []) wholePread s (zeroRequest 10 0)
        ∧ SameBytes (.below []) wholePread wholePread (.new 4 (1 / 2) (1 / 4)) s
            (zeroRequest 10 0) := by
  obtain ⟨s, c, warm, cached, represents, few⟩ := exists_first_byte_defined
  have new := @definedReaches_new Int32 _ _ _ _ twoOldArgs (.below []) {zeroFile}
  have agree := (@fsReads_agree_iff Int32 _ _ _ _ twoOldArgs twoOldArgs (.below []) {zeroFile}
    zeroFiles_measured).2.mpr (fun _ _ => zeroFile_oneDevice.distinctIds.agreeingBlocks)
  have inside : (zeroRequest 10 0).Inside := ⟨le_refl 0, zeroFile_fileSize ▸ by decide⟩
  exact ⟨s, cached, (agree _ s _ _ _ (zeroFile_read new 10 0) (zeroFile_read warm 10 0)).mpr
    (fun _ _ => ⟨zeroRequest_spares (new_represents twoOldArgs) (Nat.zero_le 1) inside,
      zeroRequest_spares represents few inside,
      (zeroRequest_fitsBlocks _ _ _).mpr ⟨Or.inr (Or.inl (by decide)), by decide⟩⟩)⟩

/-- A request that starts inside the first block and needs the second one copies differently
once the first block is cached, although both calls are defined.
-/
theorem warm_read_differs
    : ∃ s : CacheManager Int32 BlockBuf,
        FsRead twoOldArgs (.below []) {zeroFile}
          (.new 4 (1 / 2) (1 / 4) : CacheManager Int32 BlockBuf) wholePread (zeroRequest 4097 1)
        ∧ FsRead twoOldArgs (.below []) {zeroFile} s wholePread (zeroRequest 4097 1)
        ∧ ReadDefined (.below []) wholePread
            (.new 4 (1 / 2) (1 / 4) : CacheManager Int32 BlockBuf) (zeroRequest 4097 1)
        ∧ ReadDefined (.below []) wholePread s (zeroRequest 4097 1)
        ∧ ¬ SameCopies (.below []) wholePread wholePread (.new 4 (1 / 2) (1 / 4)) s
            (zeroRequest 4097 1) := by
  obtain ⟨s, c', warm, cached, represents, few⟩ := exists_first_byte_defined
  have cold := zeroFile_read (@definedReaches_new Int32 _ _ _ _ twoOldArgs (.below []) {zeroFile})
    4097 1
  have again := zeroFile_read warm 4097 1
  have initially := @coherent_new Int32 {zeroFile} BlockOf _ twoOldArgs
  obtain ⟨_, c, coherent⟩ := again.coherent
  have before : (1 : ℤ) < zeroFile.stSize := zeroFile_stSize ▸ by decide
  have proper : (zeroRequest 4097 1).Proper := ⟨by decide, before, zeroFile_measured⟩
  have notLog := zeroRequest_notLog 4097 1
  refine ⟨s, cold, again, ?_, ?_, fun same => ?_⟩
  · exact (cold.readDefined_iff notLog proper.inside).mpr
      (zeroRequest_spares (new_represents twoOldArgs) (Nat.zero_le 1) proper.inside)
  · exact (again.readDefined_iff notLog proper.inside).mpr
      (zeroRequest_spares represents few proper.inside)
  have copies : (zeroRequest 4097 1).Copies := ⟨⟨by decide, before⟩, by decide, by decide⟩
  have id : (zeroRequest 4097 1).blockID (zeroRequest 4097 1).firstBlock = (7, 0) := by
    rw [Request.firstBlock_eq proper.inside]
    change (zeroFile.fileId, (1 : ℤ) / zeroFile.blockSize) = (7, 0)
    rw [zeroFile_fileId, zeroFile_blockSize]
    rfl
  have uncached : ¬ Cached (.new 4 (1 / 2) (1 / 4) : CacheManager Int32 BlockBuf) (7, 0) = true :=
    mt (cached_iff initially.represents _).mp List.not_mem_nil
  have condition := (initially.sameCopies_iff coherent cold.member zeroFile_measured
    cold.full again.full).mp same notLog copies
  rw [id] at condition
  change min ((4097 : UInt64).toNat : ℤ) (zeroFile.stSize - 1) ≤ zeroFile.blockSize
    ∨ (1 : ℤ) % zeroFile.blockSize = 0 ∨ _ at condition
  rw [zeroFile_stSize, zeroFile_blockSize] at condition
  rcases condition with short | aligned | alike
  · exact absurd short (by decide)
  · exact absurd aligned (by decide)
  · exact uncached (alike.trans cached)

end CachingFileSystem.FileSystem
