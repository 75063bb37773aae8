import CachingFileSystem.BufferCache.Refinement
import CachingFileSystem.ReplacementPolicy.BoundedCounts

/-! Reference counts of type `int`. Before so many operations that one could overflow, they hit,
replace and print as natural numbers would.
-/

namespace CachingFileSystem.BufferCache

open CachingFileSystem.Containers
open CachingFileSystem.ReplacementPolicy
open CachingFileSystem.Transitions

/-- An `int` counts up to its largest value. -/
theorem toInt_iterate_add_one {times : ℕ} (small : times < 2 ^ 31 - 1)
    : ((· + 1)^[times] (1 : Int32)).toInt = times + 1 := by
  induction times with
  | zero => rfl
  | succ times ih =>
      have before := ih (by omega)
      rw [Function.iterate_succ_apply', Int32.toInt_add, before]
      change Int.bmod ((times : ℤ) + 1 + 1) (2 ^ 32) = _
      rw [Int.bmod_eq_of_le_mul_two (by omega) (by omega)]
      push_cast
      rfl

/-- So fewer than `2^31 - 1` hits are all told apart. -/
theorem countsTo_int32 {bound : ℕ} (small : bound < 2 ^ 31 - 1) : CountsTo Int32 bound := by
  intro fewer more less within
  rw [Int32.lt_iff_toInt_lt, toInt_iterate_add_one (by omega), toInt_iterate_add_one (by omega)]
  omega

/-- Counts up to a number are printed as the numbers. -/
def PrintsTo (Count : Type) [One Count] [Add Count] [ToString Count] (largest : ℕ) : Prop :=
  ∀ number, 0 < number → number ≤ largest → toString (counted Count number) = toString number

theorem printsTo_int32 : PrintsTo Int32 (2 ^ 31 - 1) := by
  intro number positive small
  change toString (counted Int32 number).toInt = _
  rw [counted, toInt_iterate_add_one (by omega)]
  have value : ((number - 1 : ℕ) : ℤ) + 1 = (number : ℤ) := by omega
  rw [value]
  rfl

variable {cfg : Sections} {Count Buf : Type} [One Count] [Add Count] [ToString Count]

/-- The tables are the same. -/
theorem table_eq {most : ℕ} {ideal : FrequencyCache cfg BlockID (Payload Buf) ℕ}
    {c : FrequencyCache cfg BlockID (Payload Buf) Count} (h : CountedBy most ideal c)
    (prints : PrintsTo Count most)
    : table c = table ideal := by
  have rows : ∀ entry ∈ ideal.entries,
      tableRow entry.val.path entry.key.2 (counted Count entry.count)
        = tableRow entry.val.path entry.key.2 entry.count := by
    intro entry member
    rw [tableRow, prints _ (h.positive entry member) (h.small entry member), tableRow]
  simp only [table, h.entries, ← List.map_reverse, List.flatMap_map]
  exact List.flatMap_congr (fun entry member => rows entry (List.mem_reverse.mp member))

/-- Every operation is answered alike and adds one to a count at most; by cases on the operation. -/
theorem abstractStep_sameOutcome [LinearOrder Count] {bound most : ℕ}
    (counts : CountsTo Count bound) (prints : PrintsTo Count (bound + 1)) (below : most < bound + 1)
    {ideal : FrequencyCache cfg BlockID (Payload Buf) ℕ}
    {c : FrequencyCache cfg BlockID (Payload Buf) Count} (h : CountedBy most ideal c)
    (op : Op Buf)
    : SameOutcome (fun c ideal => CountedBy (most + 1) ideal c) (abstractStep c op)
        (abstractStep ideal op) := by
  cases op with
  | retrieveBuffer blockID =>
      obtain ⟨same, related⟩ := h.retrieve blockID
      simp only [abstractStep, same]
      exact .answered related
  | insertBlock fileId blockNumber buff path =>
      rcases h.insert counts below.le (fileId, blockNumber) ⟨buff, path.getD []⟩ with
        failed | ⟨replaced, c', ideal', inserted, idealInserted, related⟩
      · simp only [abstractStep, failed.1, failed.2]
        exact .stopped Halt.exitFailure
      · simp only [abstractStep, inserted, idealInserted]
        exact .answered related
  | updatePaths pathPrefix newPathPrefix =>
      exact .answered ((h.mapVals _).mono (Nat.le_succ most))
  | cacheToString =>
      have printed := table_eq h (fun number positive small =>
        prints number positive (small.trans below.le))
      simp only [abstractStep, printed]
      exact .answered (h.mono (Nat.le_succ most))

/-- So is every sequence, if it is short enough; by one more operation at a time. -/
theorem runAll_counted {ops : List (Op Buf)} (few : ops.length ≤ 2 ^ 31 - 1)
    : SameOutcome (fun c ideal => CountedBy ops.length ideal c)
        (runAll abstractStep ops (.empty : FrequencyCache cfg BlockID (Payload Buf) Int32))
        (runAll abstractStep ops (.empty : FrequencyCache cfg BlockID (Payload Buf) ℕ)) := by
  have counts : CountsTo Int32 (2 ^ 31 - 2) := countsTo_int32 (by decide)
  have simulates
      : ∀ most (c : FrequencyCache cfg BlockID (Payload Buf) Int32)
            (ideal : FrequencyCache cfg BlockID (Payload Buf) ℕ) (op : Op Buf),
          most < 2 ^ 31 - 1
          → CountedBy most ideal c
          → True
          → SameOutcome (fun c ideal => CountedBy (most + 1) ideal c) (abstractStep c op)
              (abstractStep ideal op) :=
    fun most c ideal op below h _ => abstractStep_sameOutcome counts printsTo_int32 below h op
  have initially : CountedBy 0 (.empty : FrequencyCache cfg BlockID (Payload Buf) ℕ)
      (.empty : FrequencyCache cfg BlockID (Payload Buf) Int32) := countedBy_empty
  have within : 0 + ops.length ≤ 2 ^ 31 - 1 := (Nat.zero_add _).le.trans few
  have run := runAll_sameOutcome_upTo simulates initially (fun _ _ => trivial) within
  exact run.mono (fun c ideal related => related.mono (Nat.zero_add _).le)

/-- A manager that counts with `int` answers every sequence of at most `2^31 - 1` operations as
the abstract cache that counts with natural numbers: the same buffers, the same replaced ids, the
same tables, the same failures. Witness: it represents the abstract cache that counts with `int`,
and that one has the entries of the other.
-/
theorem runAll_machineCounts (args : CacheArgs) {ops : List (Op Buf)}
    (real : ∀ op ∈ ops, op.Real) (few : ops.length ≤ 2 ^ 31 - 1)
    : SameOutcome
        (fun (s : CacheManager Int32 Buf)
            (ideal : FrequencyCache args.sections BlockID (Payload Buf) ℕ) =>
          ∃ c, Represents args.sections s c ∧ CountedBy ops.length ideal c)
        (runAll CacheManager.step ops (.new args.numberOfBlocks args.fOld args.fNew))
        (runAll abstractStep ops .empty) := by
  have initially : Represents args.sections
      (.new args.numberOfBlocks args.fOld args.fNew : CacheManager Int32 Buf) .empty :=
    new_represents args
  have represented := runAll_sameOutcome step_sameOutcome initially real
  exact represented.trans (runAll_counted few)

theorem runAll_machineCounts_repeated
    : SameOutcome
        (fun (s : CacheManager Int32 String)
            (ideal : FrequencyCache twoOldArgs.sections BlockID (Payload String) ℕ) =>
          ∃ c, Represents twoOldArgs.sections s c ∧ CountedBy 5 ideal c)
        (runAll CacheManager.step
          [.insertBlock 7 0 (some "data") (some ['/', 'a']), .insertBlock 7 1 none none,
            .retrieveBuffer (7, 0), .retrieveBuffer (7, 0), .cacheToString]
          (.new 4 (1 / 2) (1 / 4)))
        (runAll abstractStep
          [.insertBlock 7 0 (some "data") (some ['/', 'a']), .insertBlock 7 1 none none,
            .retrieveBuffer (7, 0), .retrieveBuffer (7, 0), .cacheToString]
          .empty) :=
  @runAll_machineCounts String twoOldArgs
    [.insertBlock 7 0 (some "data") (some ['/', 'a']), .insertBlock 7 1 none none,
      .retrieveBuffer (7, 0), .retrieveBuffer (7, 0), .cacheToString]
    (by simp [Op.Real, nullBlock]) (by decide)

end CachingFileSystem.BufferCache
