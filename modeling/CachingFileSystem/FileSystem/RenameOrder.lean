import CachingFileSystem.BufferCache.MappedPaths
import CachingFileSystem.FileSystem.RenamedTrees

/-! Renames and reads of open files in either order. A read looks at paths only to tell the log
from other files, so it does the same before a rename as after it, under the path of then.
-/

namespace CachingFileSystem.FileSystem

open CachingFileSystem.BufferCache
open CachingFileSystem.Containers
open CachingFileSystem.DirectoryTree
open CachingFileSystem.Transitions

-----------------------------------------------------------------------------------------
-- Reads under changed paths
-----------------------------------------------------------------------------------------

variable {Count : Type} {h : PathMap} {pread : Pread} {r : Request} {path' : Path}

def Request.withPath (path : Path) (r : Request) : Request := { r with path := path }

def ReadState.mapPaths (h : PathMap) (st : ReadState Count) : ReadState Count :=
  { st with cacheManager := st.cacheManager.mapPaths h }

section Reads

variable [LinearOrder Count] [OrderTop Count] [One Count] [Add Count]

/-- The change of paths takes that of a request's blocks to the new path. -/
def Changes (h : PathMap) (r : Request) (path' : Path) : Prop :=
  ∀ block, h (r.blockID block) r.path = path'

theorem fetchBlock_mapPaths (changes : Changes h r path') (block : ℤ) (st : ReadState Count)
    : fetchBlock pread (r.withPath path') block (st.mapPaths h)
      = Prod.map id (ReadState.mapPaths h) <$> fetchBlock pread r block st := by
  have sameID : (r.withPath path').blockID block = r.blockID block := rfl
  have sameFile : (r.withPath path').file = r.file := rfl
  have newPath : (r.withPath path').path = path' := rfl
  have cache : (st.mapPaths h).cacheManager = st.cacheManager.mapPaths h := rfl
  have changed : h (r.file.fileId, block) ((some r.path).getD []) = (some path').getD [] := by
    have new := changes block
    rwa [Request.blockID] at new
  simp only [fetchBlock, sameID, sameFile, newPath, cache, CacheManager.retrieveBuffer_mapPaths,
    map_bind, bind_map_left]
  refine congrArg _ (funext (fun blockBegin => congrArg _ (funext (fun answer => ?_))))
  obtain ⟨_ | buf, s⟩ := answer
  · simp only [Prod.map_apply, id_eq]
    rcases pread r.file (toSize r.file.blockSize) blockBegin with errno | bytes
    · rfl
    · simp only [CacheManager.insertBlock_mapPaths changed, map_bind, bind_map_left]
      refine congrArg _ (funext (fun s => ?_))
      simp only [Except.map_ok, Prod.map_apply, id_eq, ReadState.mapPaths]
  · rfl

omit [LinearOrder Count] [OrderTop Count] [One Count] [Add Count] in
theorem copyBlock_mapPaths (block : ℤ) (buf : BlockBuf) (st : ReadState Count)
    : copyBlock (r.withPath path') block buf (st.mapPaths h)
      = ReadState.mapPaths h <$> copyBlock r block buf st := by
  simp only [copyBlock, map_bind]
  rfl

theorem readBlock_mapPaths (changes : Changes h r path') (block : ℤ) (st : ReadState Count)
    : readBlock pread (r.withPath path') block (st.mapPaths h)
      = Prod.map id (ReadState.mapPaths h) <$> readBlock pread r block st := by
  simp only [readBlock, fetchBlock_mapPaths changes, map_bind, bind_map_left]
  refine congrArg _ (funext (fun answer => ?_))
  obtain ⟨errno | buf, st⟩ := answer
  · rfl
  · simp only [Prod.map_apply, id_eq, copyBlock_mapPaths, map_bind, bind_map_left]
    rfl

/-- A call does the same to a cache whose paths are changed, under the changed path and even below
another root, if it is for the log in neither.
-/
theorem cachingRead_mapPaths {cfs cfs' : CfsState} (changes : Changes h r path')
    (notLog : NotLog cfs r) (notLog' : NotLog cfs' (r.withPath path'))
    (s : CacheManager Count BlockBuf)
    : cachingRead cfs' pread (s.mapPaths h) (r.withPath path')
      = Prod.map id (ReadState.mapPaths h) <$> cachingRead cfs pread s r := by
  have refered : ¬ referingLogfile cfs (cachingFullPath cfs r.path) ≠ 0 :=
    not_ne_iff.mpr notLog.notRefered
  have refered' : ¬ referingLogfile cfs' (cachingFullPath cfs' (r.withPath path').path) ≠ 0 :=
    not_ne_iff.mpr notLog'.notRefered
  rw [cachingRead, cachingRead, cachingReadAt, cachingReadAt, if_neg refered, if_neg refered']
  change (if r.size < 0 then _ else if r.offset < 0 ∨ r.file.fileSize ≤ r.offset then _ else _) = _
  split
  · rfl
  split
  · rfl
  have start : ReadState.start (s.mapPaths h) (r.withPath path')
      = ReadState.mapPaths h (.start s r) := rfl
  have first : (r.withPath path').firstBlock = r.firstBlock := rfl
  have number : (r.withPath path').numberOfBlocks = r.numberOfBlocks := rfl
  have last : (r.withPath path').lastBlock = r.lastBlock := rfl
  simp only [start, first, number, last, forRange_map (readBlock_mapPaths changes), map_bind,
    bind_map_left]
  refine congrArg _ (funext (fun _ => congrArg _ (funext (fun answer => ?_))))
  obtain ⟨_ | errno, st⟩ := answer <;> rfl

end Reads

-----------------------------------------------------------------------------------------
-- Before and after a rename
-----------------------------------------------------------------------------------------

section Operations

variable [LinearOrder Count] [OrderTop Count] [One Count] [Add Count] [ToString Count]
  {os : OperatingSystem} {root path newpath : Location} {w w' : World Count} {reply : Reply}

/-- The same call when its file was renamed before. -/
def ClientOp.renamed (path newpath : Location) : ClientOp → ClientOp
  | .read pread r => .read pread (r.withPath (renamePath (render path) (render newpath) r.path))
  | op => op

/-- A read of an open file that is not taken for the log or for a placeholder. -/
def PlainRead (root path newpath : Location) : ClientOp → Prop
  | .read _ r =>
      r.file.fileId ≠ nullBlock
      ∧ NotLog (.below (render root)) r
      ∧ NotLog (.below (render root))
          (r.withPath (renamePath (render path) (render newpath) r.path))
  | _ => False

/-- What a rename leaves of a state. -/
def World.renamed (w : World Count) (t : FileTree) (path newpath : Location) : World Count :=
  {
    w with
    tree := t
    cacheManager := w.cacheManager.updatePaths (render path) (render newpath)
  }

theorem perform_read_renamed (t : FileTree) {op : ClientOp} (plain : PlainRead root path newpath op)
    (w : World Count)
    : perform os (.below (render root)) (w.renamed t path newpath) (op.renamed path newpath)
      = Prod.map id (fun w => w.renamed t path newpath)
        <$> perform os (.below (render root)) w op := by
  cases op with
  | read pread r =>
      obtain ⟨unmarked, notLog, notLog'⟩ := plain
      have changes : Changes (CacheManager.renamedPath (render path) (render newpath)) r
          (renamePath (render path) (render newpath) r.path) := by
        intro block
        have owner : (r.blockID block).1 = r.file.fileId := by simp only [Request.blockID]
        rw [CacheManager.renamedPath, owner, if_neg unmarked]
      simp only [ClientOp.renamed, perform, World.renamed,
        CacheManager.updatePaths_eq_mapPaths, cachingRead_mapPaths changes notLog notLog',
        map_bind, bind_map_left]
      rfl
  | getattr | fgetattr | access | openFile | flush | release | opendir | readdir | releasedir
  | rename | ioctl =>
      cases plain

/-- A state of a given tree, and what a rename leaves of it. -/
structure Renaming (first t : FileTree) (path newpath : Location) (before after : World Count)
    : Prop where
  tree : before.tree = first
  renamed : after = before.renamed t path newpath

end Operations

end CachingFileSystem.FileSystem
