import CachingFileSystem.BufferCache.CacheManager
import CachingFileSystem.Containers.MappedNodes
import CachingFileSystem.Transitions.Loops

/-! Lookups and insertions do not look at paths: they do the same when all paths are changed, and
`updatePaths` is such a change.
-/

namespace CachingFileSystem.BufferCache

open CachingFileSystem.Containers
open CachingFileSystem.Transitions

variable {Count Buf : Type}

/-- A path for every block, in terms of its id and its path. -/
abbrev PathMap := BlockID → Path → Path

namespace CacheBlock

variable {h : PathMap} (block : CacheBlock Count Buf)

def mapPath (h : PathMap) (block : CacheBlock Count Buf) : CacheBlock Count Buf :=
  block.setPath (h block.getBlockId block.path)

@[simp] theorem mapPath_getBlockId : (block.mapPath h).getBlockId = block.getBlockId := rfl
@[simp] theorem mapPath_buff : (block.mapPath h).buff = block.buff := rfl
@[simp] theorem mapPath_sectionType : (block.mapPath h).sectionType = block.sectionType := rfl

theorem setSection_mapPath (sectionType : Section)
    : (block.mapPath h).setSection sectionType = (block.setSection sectionType).mapPath h :=
  rfl

omit block in
theorem incrementRefCount_mapPath [One Count] [Add Count] (block : CacheBlock Count Buf)
    : (block.mapPath h).incrementRefCount = block.incrementRefCount.mapPath h :=
  rfl

/-- A new block under a changed path. -/
theorem new_mapPath [One Count] {fileId blockNumber : ℤ} {buff : Option Buf}
    {path path' : Option Path} (changed : h (fileId, blockNumber) (path.getD []) = path'.getD [])
    : (new fileId blockNumber buff path : CacheBlock Count Buf).mapPath h
      = new fileId blockNumber buff path' := by
  rw [mapPath, new, new, ← changed]
  rfl

end CacheBlock

namespace CacheManager

def mapPaths (h : PathMap) (s : CacheManager Count Buf) : CacheManager Count Buf :=
  { s with cacheChain := s.cacheChain.map (.mapPath h) }

/-- What renaming does to the paths of blocks. -/
def renamedPath (pathPrefix newPathPrefix : Path) : PathMap := fun id path =>
  if id.1 = nullBlock then path else renamePath pathPrefix newPathPrefix path

theorem updatePaths_eq_mapPaths (s : CacheManager Count Buf) (pathPrefix newPathPrefix : Path)
    : s.updatePaths pathPrefix newPathPrefix
      = s.mapPaths (renamedPath pathPrefix newPathPrefix) := by
  rw [updatePaths, mapPaths]
  congr 2
  funext block
  rw [CacheBlock.mapPath, renamedPath, CacheBlock.getBlockId]
  split
  · rfl
  · rfl

variable {h : PathMap} {s : CacheManager Count Buf}

/-- Changing the paths twice is one change. -/
theorem mapPaths_mapPaths (g h : PathMap) (s : CacheManager Count Buf)
    : (s.mapPaths h).mapPaths g = s.mapPaths (fun id path => g id (h id path)) := by
  simp only [mapPaths, NodeList.map_map]
  rfl

@[simp]
theorem demand_map {α β : Type} (f : α → β) (o : Option α)
    : demand (o.map f) = f <$> demand o := by
  cases o <;> rfl

@[simp]
theorem mapPaths_cacheChain : (s.mapPaths h).cacheChain = s.cacheChain.map (.mapPath h) := rfl

-----------------------------------------------------------------------------------------
-- Lookup
-----------------------------------------------------------------------------------------

theorem slideMiddle_mapPaths : (s.mapPaths h).slideMiddle = mapPaths h <$> s.slideMiddle := by
  unfold slideMiddle
  simp only [mapPaths_cacheChain, NodeList.prev?_map,
    NodeList.modify?_map (CacheBlock.setSection_mapPath · .middleSection), demand_map, map_bind,
    bind_map_left]
  rfl

theorem slideOld_mapPaths : (s.mapPaths h).slideOld = mapPaths h <$> s.slideOld := by
  unfold slideOld
  simp only [mapPaths_cacheChain, NodeList.prev?_map,
    NodeList.modify?_map (CacheBlock.setSection_mapPath · .oldSection), demand_map, map_bind,
    bind_map_left]
  rfl

theorem correctBounds_mapPaths (blockIter : Iterator)
    : (s.mapPaths h).correctBounds blockIter = mapPaths h <$> s.correctBounds blockIter := by
  unfold correctBounds
  simp only [mapPaths_cacheChain, NodeList.deref?_map, demand_map, map_bind, bind_map_left,
    CacheBlock.mapPath_sectionType]
  refine congrArg _ (funext (fun block => ?_))
  cases block.sectionType with
  | newSection => rfl
  | middleSection => exact slideMiddle_mapPaths
  | oldSection =>
      simp only [slideMiddle_mapPaths, slideOld_mapPaths, map_bind, bind_map_left]

theorem moveToHead_mapPaths (blockID : BlockID) (blockIter : Iterator)
    : (s.mapPaths h).moveToHead blockID blockIter
      = Prod.map id (mapPaths h) <$> s.moveToHead blockID blockIter := by
  unfold moveToHead
  simp only [mapPaths_cacheChain, NodeList.deref?_map, NodeList.pushFront_map,
    NodeList.begin?_map, NodeList.modify?_map (CacheBlock.setSection_mapPath · .newSection),
    demand_map, map_bind, bind_map_left, NodeList.erase_map]
  rfl

section Lookup

variable [One Count] [Add Count]

theorem countHit_mapPaths (blockIter : Iterator)
    : (s.mapPaths h).countHit blockIter = mapPaths h <$> s.countHit blockIter := by
  unfold countHit
  simp only [mapPaths_cacheChain, NodeList.deref?_map, demand_map, map_bind, bind_map_left,
    NodeList.modify?_map CacheBlock.incrementRefCount_mapPath]
  refine congrArg _ (funext (fun block => ?_))
  by_cases new : block.sectionType = .newSection
  · have same : (block.mapPath h).sectionType = .newSection := new
    rw [if_neg (not_ne_iff.mpr same), if_neg (not_ne_iff.mpr new)]
    rfl
  · have same : (block.mapPath h).sectionType ≠ .newSection := new
    rw [if_pos same, if_pos new]
    simp only [map_bind]
    rfl

theorem findBlock_mapPaths (blockID : BlockID)
    : (s.mapPaths h).findBlock blockID
      = Prod.map id (mapPaths h) <$> s.findBlock blockID := by
  have mapped : (s.mapPaths h).blocksMap = s.blocksMap := rfl
  rw [findBlock, findBlock, mapped]
  cases s.blocksMap blockID with
  | none => rfl
  | some blockIter =>
      simp only [countHit_mapPaths, correctBounds_mapPaths, moveToHead_mapPaths, map_bind,
        bind_map_left]
      rfl

/-- Lookups find the same whatever the paths are. -/
theorem retrieveBuffer_mapPaths (blockID : BlockID)
    : (s.mapPaths h).retrieveBuffer blockID
      = Prod.map id (mapPaths h) <$> s.retrieveBuffer blockID := by
  unfold retrieveBuffer
  simp only [findBlock_mapPaths, map_bind, bind_map_left]
  refine congrArg _ (funext (fun found => ?_))
  obtain ⟨found, s⟩ := found
  cases found with
  | none => rfl
  | some blockIter =>
      simp only [Prod.map_apply, id_eq, mapPaths_cacheChain, NodeList.deref?_map, demand_map,
        map_bind, bind_map_left, CacheBlock.mapPath_buff]
      rfl

end Lookup

-----------------------------------------------------------------------------------------
-- Insertion
-----------------------------------------------------------------------------------------

section Insertion

variable [LinearOrder Count] [OrderTop Count]

/-- The least referenced node is the same, as the loop compares counts only. -/
theorem leastReferenced_map (nodes : List (Node (CacheBlock Count Buf)))
    : leastReferenced (nodes.map (Node.map (.mapPath h)))
      = Prod.map id (Option.map (Node.map (.mapPath h))) (leastReferenced nodes) := by
  unfold leastReferenced
  rw [List.foldl_map]
  have init : ((⊤ : Count), (none : Option (Node (CacheBlock Count Buf))))
      = Prod.map id (Option.map (Node.map (CacheBlock.mapPath h))) (⊤, none) := rfl
  conv_lhs => rw [init]
  refine List.foldl_hom _ (fun best node => ?_)
  change (if node.val.refCount ≤ best.1 then _ else _) = _
  by_cases less : node.val.refCount ≤ best.1
  · rw [if_pos less, if_pos less]
    rfl
  · rw [if_neg less, if_neg less]

theorem eraseCandidateBlockIter_mapPaths
    : (s.mapPaths h).eraseCandidateBlockIter = s.eraseCandidateBlockIter := by
  unfold eraseCandidateBlockIter
  simp only [mapPaths_cacheChain, NodeList.from?_map, leastReferenced_map, demand_map,
    bind_map_left, Prod.map_snd]
  rfl

theorem removeBlock_mapPaths
    : (s.mapPaths h).removeBlock = Prod.map id (mapPaths h) <$> s.removeBlock := by
  unfold removeBlock
  simp only [mapPaths_cacheChain, NodeList.back?_map, NodeList.deref?_map, NodeList.popBack_map,
    NodeList.erase_map, eraseCandidateBlockIter_mapPaths, demand_map, map_bind, bind_map_left,
    CacheBlock.mapPath_getBlockId]
  refine congrArg _ (funext (fun block => ?_))
  by_cases free : block.blockNumber = nullBlock
  · have same : (block.mapPath h).blockNumber = nullBlock := free
    rw [if_pos same, if_pos free]
    rfl
  · have same : (block.mapPath h).blockNumber ≠ nullBlock := free
    rw [if_neg same, if_neg free]
    simp only [map_bind]
    rfl

variable [One Count] [Add Count]

/-- So do insertions, when the path of the new block is changed alike. -/
theorem insertAndRemove_mapPaths {fileId blockNumber : ℤ} {buff : Option Buf}
    {path path' : Option Path} (changed : h (fileId, blockNumber) (path.getD []) = path'.getD [])
    : (s.mapPaths h).insertAndRemove fileId blockNumber buff path'
      = Prod.map id (mapPaths h) <$> s.insertAndRemove fileId blockNumber buff path := by
  have top (s : CacheManager Count Buf)
      : (s.mapPaths h).putAtTop (.new fileId blockNumber buff path')
        = (s.putAtTop (.new fileId blockNumber buff path)).mapPaths h := by
    rw [← CacheBlock.new_mapPath changed, putAtTop, mapPaths_cacheChain, NodeList.pushFront_map]
    rfl
  unfold insertAndRemove
  simp only [findBlock_mapPaths, map_bind, bind_map_left]
  refine congrArg _ (funext (fun found => ?_))
  obtain ⟨found, s⟩ := found
  cases found with
  | some blockIter => rfl
  | none => simp only [Prod.map_apply, id_eq, top, removeBlock_mapPaths]

theorem insertBlock_mapPaths {fileId blockNumber : ℤ} {buff : Option Buf}
    {path path' : Option Path} (changed : h (fileId, blockNumber) (path.getD []) = path'.getD [])
    : (s.mapPaths h).insertBlock fileId blockNumber buff path'
      = mapPaths h <$> s.insertBlock fileId blockNumber buff path := by
  unfold insertBlock
  simp only [insertAndRemove_mapPaths changed, Prod.map_snd, slideMiddle_mapPaths,
    slideOld_mapPaths, map_bind, bind_map_left]

end Insertion

end CacheManager

end CachingFileSystem.BufferCache
