import CachingFileSystem.Containers.NodeList
import CachingFileSystem.BufferCache.CacheBlock
import Mathlib.Data.Rat.Floor
import Mathlib.Logic.Function.Basic

/-! The buffer cache (CacheManager.h, CacheManager.cpp).
A list node holds the block its pointer refers to: a block is reached through one node only,
except between the `push_front` and the `erase` of a hit, where only the front is used.
-/

namespace CachingFileSystem.BufferCache

open CachingFileSystem.Containers

/-- Why the process stops before a call returns. -/
inductive Halt where
  | exitFailure
  | undefinedBehavior
  deriving DecidableEq, Repr

/-- An operation that is undefined when its value is absent. -/
def demand {α : Type} : Option α → Except Halt α
  | some value => .ok value
  | none => .error .undefinedBehavior

@[simp]
theorem demand_some {α : Type} (value : α) : demand (some value) = .ok value := rfl

@[simp]
theorem ok_bind {α β : Type} (value : α) (next : α → Except Halt β)
    : (Except.ok value >>= next) = next value :=
  rfl

theorem demand_eq_ok_iff {α : Type} {demanded : Option α} {value : α}
    : demand demanded = .ok value ↔ demanded = some value := by
  cases demanded with
  | none => exact iff_of_false (fun same => nomatch same) (Option.some_ne_none value).symm
  | some other => exact ⟨fun same => congrArg some (Except.ok.inj same), congrArg demand⟩

/-- The id and block number that mark a placeholder. -/
def nullBlock : ℤ := -1

structure CacheManager (Count Buf : Type) where
  numberOfBlocks : ℤ
  blocksMap : BlockID → Option Iterator
  cacheChain : NodeList (CacheBlock Count Buf)
  /-- The first block of the middle section. -/
  middleSectionIter : Option Iterator
  /-- The first block of the old section. -/
  oldSectionIter : Option Iterator

-----------------------------------------------------------------------------------------
-- Construction
-----------------------------------------------------------------------------------------

/-- The arguments `main` accepts for the cache, with the fractions as exact rationals. -/
def argsValidity (numberOfBlocks : ℤ) (fOld fNew : ℚ) : Bool :=
  !(⌊fOld * numberOfBlocks⌋ < 1
    || fOld ≥ 1
    || ⌊fNew * numberOfBlocks⌋ < 1
    || fNew ≥ 1
    || fOld + fNew > 1
    || numberOfBlocks ≤ 0)

/-- Arguments that passed the validation of `main`. -/
structure CacheArgs where
  numberOfBlocks : ℤ
  fOld : ℚ
  fNew : ℚ
  valid : argsValidity numberOfBlocks fOld fNew = true

def newSectionSize (numberOfBlocks : ℤ) (fNew : ℚ) : ℤ := ⌊fNew * numberOfBlocks⌋

def oldSectionSize (numberOfBlocks : ℤ) (fOld : ℚ) : ℤ := ⌊fOld * numberOfBlocks⌋

/-- The loop that assigns the bounds iterators, from its `i`-th node on. -/
def assignBounds (middleAt oldAt : ℤ)
    : List Iterator → ℤ → Option Iterator × Option Iterator → Option Iterator × Option Iterator
  | [], _, bounds => bounds
  | it :: rest, i, (middle, old) =>
      assignBounds middleAt oldAt rest (i + 1)
        (if i = middleAt then some it else middle, if i = oldAt then some it else old)

namespace CacheManager

variable {Count Buf : Type}

/-- The constructor fills the chain with `numberOfBlocks` placeholders. -/
def new [One Count] (numberOfBlocks : ℤ) (fOld fNew : ℚ) : CacheManager Count Buf :=
  let newSize := newSectionSize numberOfBlocks fNew
  let oldSize := oldSectionSize numberOfBlocks fOld
  let middleSize := numberOfBlocks - newSize - oldSize
  let cacheChain := (fun chain : NodeList (CacheBlock Count Buf) =>
    chain.pushFront (.new (-1) (-1) none none))^[numberOfBlocks.toNat] .empty
  let bounds := assignBounds (newSize + 1) (newSize + middleSize + 1) cacheChain.addrs 1
    (none, none)
  {
    numberOfBlocks := numberOfBlocks
    blocksMap := fun _ => none
    cacheChain := cacheChain
    middleSectionIter := bounds.1
    oldSectionIter := bounds.2
  }

-----------------------------------------------------------------------------------------
-- Lookup
-----------------------------------------------------------------------------------------

/-- `middleSectionIter--; (*middleSectionIter)->setSection(middleSection);` -/
def slideMiddle (s : CacheManager Count Buf) : Except Halt (CacheManager Count Buf) := do
  let it ← demand s.middleSectionIter
  let before ← demand (s.cacheChain.prev? it)
  let chain ← demand (s.cacheChain.modify? before (.setSection .middleSection))
  .ok { s with middleSectionIter := some before, cacheChain := chain }

/-- `oldSectionIter--; (*oldSectionIter)->setSection(oldSection);` -/
def slideOld (s : CacheManager Count Buf) : Except Halt (CacheManager Count Buf) := do
  let it ← demand s.oldSectionIter
  let before ← demand (s.cacheChain.prev? it)
  let chain ← demand (s.cacheChain.modify? before (.setSection .oldSection))
  .ok { s with oldSectionIter := some before, cacheChain := chain }

/-- Increment the block's count unless it is in the new section. -/
def countHit [One Count] [Add Count] (s : CacheManager Count Buf) (blockIter : Iterator)
    : Except Halt (CacheManager Count Buf) := do
  let block ← demand (s.cacheChain.deref? blockIter)
  if block.sectionType ≠ .newSection then
    let chain ← demand (s.cacheChain.modify? blockIter .incrementRefCount)
    .ok { s with cacheChain := chain }
  else .ok s

/-- Correct the relevant bounds and update the new bounds' section attribute. -/
def correctBounds (s : CacheManager Count Buf) (blockIter : Iterator)
    : Except Halt (CacheManager Count Buf) := do
  let block ← demand (s.cacheChain.deref? blockIter)
  match block.sectionType with
  | .newSection => .ok s
  | .middleSection => s.slideMiddle
  | .oldSection => do
      let s ← s.slideMiddle
      s.slideOld

/-- Move the block to the head, in the new section, and redirect the map to its new node. -/
def moveToHead (s : CacheManager Count Buf) (blockID : BlockID) (blockIter : Iterator)
    : Except Halt (Iterator × CacheManager Count Buf) := do
  let block ← demand (s.cacheChain.deref? blockIter)
  let chain := s.cacheChain.pushFront block
  let head ← demand chain.begin?
  let chain ← demand (chain.modify? head (.setSection .newSection))
  .ok (head, {
    s with
    cacheChain := chain.erase blockIter
    blocksMap := Function.update s.blocksMap blockID (some head)
  })

/-- Find the block; no iterator stands for `cacheChain.end()`. -/
def findBlock [One Count] [Add Count] (s : CacheManager Count Buf) (blockID : BlockID)
    : Except Halt (Option Iterator × CacheManager Count Buf) :=
  match s.blocksMap blockID with
  | none => .ok (none, s)
  | some blockIter => do
      let s ← s.countHit blockIter
      let s ← s.correctBounds blockIter
      let (head, s) ← s.moveToHead blockID blockIter
      .ok (some head, s)

/-- The buffer of the block, or null if it was not found. -/
def retrieveBuffer [One Count] [Add Count] (s : CacheManager Count Buf) (blockID : BlockID)
    : Except Halt (Option Buf × CacheManager Count Buf) := do
  let (found, s) ← s.findBlock blockID
  match found with
  | none => .ok (none, s)
  | some blockIter =>
      let block ← demand (s.cacheChain.deref? blockIter)
      .ok (block.buff, s)

-----------------------------------------------------------------------------------------
-- Insertion
-----------------------------------------------------------------------------------------

/-- Put a new block at the top and enter it in the map. -/
def putAtTop (s : CacheManager Count Buf) (block : CacheBlock Count Buf)
    : CacheManager Count Buf :=
  {
    s with
    cacheChain := s.cacheChain.pushFront block
    blocksMap := Function.update s.blocksMap block.getBlockId (some s.cacheChain.next)
  }

/-- The loop over the old section: the candidate is replaced by every block whose count is
not larger than the minimum so far.
-/
def leastReferenced [LinearOrder Count] [OrderTop Count]
    (nodes : List (Node (CacheBlock Count Buf)))
    : Count × Option (Node (CacheBlock Count Buf)) :=
  nodes.foldl
    (fun best node => if node.val.refCount ≤ best.1 then (node.val.refCount, some node) else best)
    (⊤, none)

/-- Find the least referenced block of the old section. -/
def eraseCandidateBlockIter [LinearOrder Count] [OrderTop Count] (s : CacheManager Count Buf)
    : Except Halt Iterator := do
  let old ← demand s.oldSectionIter
  let nodes ← demand (s.cacheChain.from? old)
  let node ← demand (leastReferenced nodes).2
  .ok node.addr

/-- Remove the last node if it is a placeholder, else the least referenced old block.
The id that is erased from the map is returned as well.
-/
def removeBlock [LinearOrder Count] [OrderTop Count] (s : CacheManager Count Buf)
    : Except Halt (Option BlockID × CacheManager Count Buf) := do
  let last ← demand s.cacheChain.back?
  if last.blockNumber = nullBlock then
    .ok (none, { s with cacheChain := s.cacheChain.popBack })
  else do
    let it ← s.eraseCandidateBlockIter
    let block ← demand (s.cacheChain.deref? it)
    .ok (some block.getBlockId, {
      s with
      blocksMap := Function.update s.blocksMap block.getBlockId none
      cacheChain := s.cacheChain.erase it
    })

section Insertion

variable [LinearOrder Count] [OrderTop Count] [One Count] [Add Count]

/-- The insertion up to the correction of the boundaries. -/
def insertAndRemove (s : CacheManager Count Buf) (fileId blockNumber : ℤ)
    (buff : Option Buf) (path : Option Path)
    : Except Halt (Option BlockID × CacheManager Count Buf) := do
  let (found, s) ← s.findBlock (fileId, blockNumber)
  match found with
  | some _ => .error .exitFailure
  | none => (s.putAtTop (.new fileId blockNumber buff path)).removeBlock

/-- Insert a new block; a block that is already there ends the process. -/
def insertBlock (s : CacheManager Count Buf) (fileId blockNumber : ℤ)
    (buff : Option Buf) (path : Option Path)
    : Except Halt (CacheManager Count Buf) := do
  let (_, s) ← s.insertAndRemove fileId blockNumber buff path
  let s ← s.slideMiddle
  s.slideOld

end Insertion

end CacheManager

-----------------------------------------------------------------------------------------
-- Paths
-----------------------------------------------------------------------------------------

/-- Append a slash unless there is one. The source indexes `length() - 1`; callers pass
absolute paths, and an empty string is read here as not ending in a slash.
-/
def withSlash (path : Path) : Path :=
  if path.getLast? ≠ some '/' then path ++ ['/'] else path

/-- The new path of one block: a leading `pathPrefix` (with its slash) is replaced. -/
def renamePath (pathPrefix newPathPrefix path : Path) : Path :=
  let pathPrefixStr := withSlash pathPrefix
  let pathStr := withSlash path
  if pathPrefixStr.isPrefixOf pathStr then
    let suffix := pathStr.drop pathPrefixStr.length
    let newPrefixStr :=
      if newPathPrefix.getLast? ≠ some '/' ∧ suffix.head? ≠ some '/' then newPathPrefix ++ ['/']
      else newPathPrefix
    let resPath := newPrefixStr ++ suffix
    if resPath.getLast? = some '/' then resPath.dropLast else resPath
  else path

/-- One row of the table: the path without its first character, the block number counted
from one, and the reference count.
-/
def tableRow {Count : Type} [ToString Count] (path : Path) (blockNumber : ℤ) (refCount : Count)
    : List Char :=
  path.drop 1 ++ [' '] ++ (toString (blockNumber + 1)).toList ++ [' ']
  ++ (toString refCount).toList ++ ['\n']

namespace CacheManager

variable {Count Buf : Type}

/-- Update the path of the files below the given path prefix. -/
def updatePaths (s : CacheManager Count Buf) (pathPrefix newPathPrefix : Path)
    : CacheManager Count Buf :=
  {
    s with
    cacheChain := s.cacheChain.map (fun block =>
      if block.fileId = nullBlock then block
      else block.setPath (renamePath pathPrefix newPathPrefix block.path))
  }

/-- Print the blocks from the last one to the first. -/
def cacheToString [ToString Count] (s : CacheManager Count Buf) : List Char :=
  s.cacheChain.vals.reverse.flatMap (fun block =>
    if block.blockNumber ≠ nullBlock then tableRow block.path block.blockNumber block.refCount
    else [])

end CacheManager

end CachingFileSystem.BufferCache
