import CachingFileSystem.BufferCache.Runs

/-! The manager as a machine over its public operations, and the abstract frequency-based
cache it refines: same outputs, same victims, same failures.
-/

namespace CachingFileSystem.BufferCache

open CachingFileSystem.Containers
open CachingFileSystem.ReplacementPolicy
open CachingFileSystem.Transitions

inductive Op (Buf : Type) where
  | retrieveBuffer (blockID : BlockID)
  | insertBlock (fileId blockNumber : ℤ) (buff : Option Buf) (path : Option Path)
  | updatePaths (pathPrefix newPathPrefix : Path)
  | cacheToString

/-- What an operation answers; an insertion answers with the id it replaced. -/
inductive Output (Buf : Type) where
  | buffer (buff : Option Buf)
  | inserted (replaced : Option BlockID)
  | updated
  | text (table : List Char)
  deriving DecidableEq

/-- Only placeholders have the null block number. `caching_read` inserts numbers from zero on. -/
def Op.Real {Buf : Type} : Op Buf → Prop
  | .insertBlock _ blockNumber _ _ => blockNumber ≠ nullBlock
  | _ => True

variable {cfg : Sections} {Count Buf : Type}

section Machines

variable [LinearOrder Count] [OrderTop Count] [One Count] [Add Count] [ToString Count]

def CacheManager.step (s : CacheManager Count Buf)
    : Op Buf → Except Halt (Output Buf × CacheManager Count Buf)
  | .retrieveBuffer blockID => do
      let (buff, s) ← s.retrieveBuffer blockID
      .ok (.buffer buff, s)
  | .insertBlock fileId blockNumber buff path => do
      let (replaced, _) ← s.insertAndRemove fileId blockNumber buff path
      let s ← s.insertBlock fileId blockNumber buff path
      .ok (.inserted replaced, s)
  | .updatePaths pathPrefix newPathPrefix =>
      .ok (.updated, s.updatePaths pathPrefix newPathPrefix)
  | .cacheToString => .ok (.text s.cacheToString, s)

/-- The abstract cache under the same operations: most recent first, with no chain, map,
label or iterator.
-/
def abstractStep (c : FrequencyCache cfg BlockID (Payload Buf) Count)
    : Op Buf → Except Halt (Output Buf × FrequencyCache cfg BlockID (Payload Buf) Count)
  | .retrieveBuffer blockID =>
      .ok (.buffer ((c.retrieve blockID).1.bind Payload.buff), (c.retrieve blockID).2)
  | .insertBlock fileId blockNumber buff path =>
      match c.insert (fileId, blockNumber) ⟨buff, path.getD []⟩ with
      | some (replaced, c) => .ok (.inserted replaced, c)
      | none => .error .exitFailure
  | .updatePaths pathPrefix newPathPrefix =>
      .ok (.updated, c.mapVals (renamePayload pathPrefix newPathPrefix))
  | .cacheToString => .ok (.text (table c), c)

/-- Every operation is answered as by the abstract cache, with states that stay related;
witness: the lookup, insertion, renaming and printing lemmas.
-/
theorem step_sameOutcome (s : CacheManager Count Buf)
    (c : FrequencyCache cfg BlockID (Payload Buf) Count) (op : Op Buf)
    (h : Represents cfg s c) (real : op.Real)
    : SameOutcome (Represents cfg) (s.step op) (abstractStep c op) := by
  cases op with
  | retrieveBuffer blockID =>
      obtain ⟨s', retrieved, represents⟩ := retrieveBuffer_spec h blockID
      simp only [CacheManager.step, retrieved, ok_bind]
      exact .answered represents
  | insertBlock fileId blockNumber buff path =>
      by_cases present : (fileId, blockNumber) ∈ c.keys
      · simp only [CacheManager.step, abstractStep, insertAndRemove_of_mem h present,
          FrequencyCache.insert_of_mem present]
        exact .stopped Halt.exitFailure
      · obtain ⟨s₁, removal, _⟩ := insertAndRemove_spec h present buff path
        obtain ⟨s', c', inserted, abstract, represents⟩ :=
          insertBlock_spec h present real buff path
        simp only [CacheManager.step, abstractStep, removal, inserted, abstract, ok_bind]
        exact .answered represents
  | updatePaths pathPrefix newPathPrefix =>
      exact .answered (updatePaths_represents h pathPrefix newPathPrefix)
  | cacheToString =>
      simp only [CacheManager.step, abstractStep, cacheToString_eq h]
      exact .answered h

/-- Every sequence of operations on a new manager is answered as by the abstract cache, or
stopped by the same failure, and leaves the manager representing the abstract cache.
Witness: the one-step simulation, from a new manager on.
-/
theorem runAll_refines (args : CacheArgs) {ops : List (Op Buf)} (real : ∀ op ∈ ops, op.Real)
    : SameOutcome (Represents args.sections)
        (runAll CacheManager.step ops
          (.new args.numberOfBlocks args.fOld args.fNew : CacheManager Count Buf))
        (runAll abstractStep ops .empty) :=
  runAll_sameOutcome step_sameOutcome (new_represents args) real

end Machines

theorem runAll_refines_renamed
    : SameOutcome (Represents twoOldArgs.sections)
        (runAll CacheManager.step
          [.insertBlock 7 0 (some "data") (some ['/', 'a']), .retrieveBuffer (7, 0),
            .updatePaths ['/', 'a'] ['/', 'b'], .cacheToString]
          (.new 4 (1 / 2) (1 / 4) : CacheManager Int32 String))
        (runAll abstractStep
          [.insertBlock 7 0 (some "data") (some ['/', 'a']), .retrieveBuffer (7, 0),
            .updatePaths ['/', 'a'] ['/', 'b'], .cacheToString]
          .empty) :=
  runAll_refines twoOldArgs (by simp [Op.Real, nullBlock])

end CachingFileSystem.BufferCache
