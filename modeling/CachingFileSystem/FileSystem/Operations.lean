import CachingFileSystem.Containers.MachineInt
import CachingFileSystem.Transitions.Loops
import CachingFileSystem.BufferCache.CacheManager

/-! The operations that use the cache (CachingFileSystem.cpp): `caching_read` and
`caching_rename`. Integers carry the widths of their C types through explicit conversions;
a signed result out of range is undefined.
-/

namespace CachingFileSystem.FileSystem

open CachingFileSystem.BufferCache
open CachingFileSystem.Containers
open CachingFileSystem.Transitions

-----------------------------------------------------------------------------------------
-- Paths
-----------------------------------------------------------------------------------------

/-- `ENOENT` and `PATH_MAX`. -/
def enoent : ℤ := 2
def pathMax : ℕ := 4096

structure CfsState where
  rootdir : Path
  logfileFullPath : Path

/-- The state `main` sets up below a root directory. -/
def CfsState.below (rootdir : Path) : CfsState where
  rootdir := rootdir
  logfileFullPath := rootdir ++ ['/'] ++ ".filesystem.log".toList.take pathMax

/-- The full path of the file, related to the root of the file system. Nothing checks that it fits
the array of `PATH_MAX` characters it is composed in.
-/
def cachingFullPath (cfs : CfsState) (path : Path) : Path := cfs.rootdir ++ path.take pathMax

def referingLogfile (cfs : CfsState) (fpath : Path) : ℤ :=
  if fpath = cfs.logfileFullPath then -enoent else 0

-----------------------------------------------------------------------------------------
-- Files and reads
-----------------------------------------------------------------------------------------

/-- An open regular file: what `fstat` reports of it, and its bytes. Block sizes are
positive and fit the `int` they are stored in.
-/
structure File where
  stDev : UInt64
  stIno : UInt64
  stBlksize : ℤ
  data : List UInt8
  blksizePositive : 0 < stBlksize
  blksizeFits : stBlksize < 2 ^ 31

namespace File

def stSize (file : File) : ℤ := file.data.length

/-- `(int) st.st_size` and `(int) st.st_blksize`. -/
def fileSize (file : File) : ℤ := toInt file.stSize
def blockSize (file : File) : ℤ := toInt file.stBlksize

/-- `(int) st.st_ino`. -/
def fileId (file : File) : ℤ := toInt file.stIno.toNat

/-- What tells files apart. -/
def identity (file : File) : UInt64 × UInt64 := (file.stDev, file.stIno)

/-- The bytes from `k * block_size` up to the next block or the end of the file. -/
def blockBytes (file : File) (k : ℤ) : List UInt8 :=
  (file.data.drop (k * file.blockSize).toNat).take file.blockSize.toNat

end File

/-- A block buffer: the bytes `pread` stored at its start, and, for specifications only, the
file they came from. The rest of its `block_size` bytes are indeterminate.
-/
structure BlockBuf where
  origin : UInt64 × UInt64
  bytes : List UInt8
  deriving DecidableEq

/-- `pread` into a newly allocated block buffer: the bytes read, or the errno. A failed
allocation makes the buffer null, and reading into it fails.
-/
abbrev Pread := File → (count offset : ℤ) → Except ℤ (List UInt8)

structure Request where
  path : Path
  file : File
  size : UInt64
  offset : ℤ

/-- A signed result, undefined when it does not fit an `int`. -/
def checkedInt (value : ℤ) : Except Halt ℤ :=
  if toInt value = value then .ok value else .error .undefinedBehavior

namespace Request

/-- `remaining_data` before the block loop. -/
def remainingData (r : Request) : ℤ :=
  if toSize r.file.fileSize < toSize (r.size.toNat + r.offset) then
    toInt (toSize (toSize r.file.fileSize - r.offset))
  else toInt r.size.toNat

def firstBlock (r : Request) : ℤ := toInt (r.offset.tdiv r.file.blockSize)

/-- Both operands of the division are `int`s, so rounding it to a double leaves its ceiling
as it is.
-/
def numberOfBlocks (r : Request) : ℤ :=
  toInt ⌈(r.remainingData : ℚ) / (r.file.blockSize : ℚ)⌉

def lastBlock (r : Request) : ℤ := r.firstBlock + r.numberOfBlocks

/-- The id under which a block of the requested file is cached. -/
def blockID (r : Request) (block : ℤ) : BlockID := (r.file.fileId, block)

end Request

/-- One `memcpy` of the block loop. -/
structure Copy where
  block : ℤ
  source : BlockBuf
  blockOffset : ℤ
  sizeToCopy : ℤ

/-- The variables of the block loop. `buf` holds the bytes stored so far, absent where they
are indeterminate; each copy goes to `buf + buf_prog`, where the last one ended. `copies`
and `preads` (latest first, with their success) record what happened.
-/
structure ReadState (Count : Type) where
  cacheManager : CacheManager Count BlockBuf
  preadRet : ℤ
  remainingData : ℤ
  bufProg : ℤ
  res : ℤ
  buf : List (Option UInt8)
  copies : List Copy
  preads : List (BlockID × Bool)

/-- The variables before the block loop. -/
def ReadState.start {Count : Type} (s : CacheManager Count BlockBuf) (r : Request)
    : ReadState Count where
  cacheManager := s
  preadRet := 0
  remainingData := r.remainingData
  bufProg := 0
  res := 0
  buf := []
  copies := []
  preads := []

/-- The `size` bytes from `start` on, absent behind the end. -/
def slice (bytes : List UInt8) (start size : ℤ) : List (Option UInt8) :=
  (List.range size.toNat).map (fun i => bytes[start.toNat + i]?)

/-- The bytes at `block_buf + block_offset`. A negative size converts to a huge one. -/
def memcpy (source : BlockBuf) (blockOffset sizeToCopy : ℤ) : Except Halt (List (Option UInt8)) :=
  if sizeToCopy < 0 then .error .undefinedBehavior
  else .ok (slice source.bytes blockOffset sizeToCopy)

variable {Count : Type} [LinearOrder Count] [OrderTop Count] [One Count] [Add Count]

/-- Search for the block in the cache, or read it from the disk and store it there; the
errno of a failed read ends the call.
-/
def fetchBlock (pread : Pread) (r : Request) (block : ℤ) (st : ReadState Count)
    : Except Halt (Except ℤ BlockBuf × ReadState Count) := do
  let blockBegin ← checkedInt (block * r.file.blockSize)
  let (found, cacheManager) ← st.cacheManager.retrieveBuffer (r.blockID block)
  match found with
  | some blockBuf => .ok (.ok blockBuf, { st with cacheManager := cacheManager })
  | none =>
      match pread r.file (toSize r.file.blockSize) blockBegin with
      | .error errno =>
          .ok (.error errno, {
            st with
            cacheManager := cacheManager
            preadRet := -1
            preads := (r.blockID block, false) :: st.preads
          })
      | .ok bytes => do
          let blockBuf : BlockBuf := ⟨r.file.identity, bytes⟩
          let cacheManager ←
            cacheManager.insertBlock r.file.fileId block (some blockBuf) (some r.path)
          .ok (.ok blockBuf, {
            st with
            cacheManager := cacheManager
            preadRet := toInt bytes.length
            preads := (r.blockID block, true) :: st.preads
          })

/-- `block_offset`. -/
def copyOffset (r : Request) (block : ℤ) : ℤ :=
  if block = r.firstBlock then toInt (r.offset.tmod r.file.blockSize) else 0

/-- `size_to_copy`: the last block takes what remains, the first one what `pread` returned
or, when nothing was read, the rest of the block.
-/
def sizeToCopy (r : Request) (block : ℤ) (st : ReadState Count) : ℤ :=
  if block = r.lastBlock - 1 then st.remainingData
  else if block = r.firstBlock then
    if st.preadRet = 0 then r.file.blockSize - copyOffset r block else st.preadRet
  else r.file.blockSize

/-- The variables after a `memcpy`. -/
def ReadState.copied (st : ReadState Count) (copy : Copy) (bytes : List (Option UInt8))
    : ReadState Count :=
  {
    st with
    remainingData := toInt (st.remainingData - copy.sizeToCopy)
    bufProg := toInt (st.bufProg + copy.sizeToCopy)
    res := toSize (st.res + copy.sizeToCopy)
    buf := st.buf ++ bytes
    copies := st.copies ++ [copy]
  }

/-- Copy the requested part of the block to the return buffer. -/
def copyBlock (r : Request) (block : ℤ) (blockBuf : BlockBuf) (st : ReadState Count)
    : Except Halt (ReadState Count) := do
  let copy : Copy := ⟨block, blockBuf, copyOffset r block, sizeToCopy r block st⟩
  let bytes ← memcpy blockBuf copy.blockOffset copy.sizeToCopy
  .ok (st.copied copy bytes)

/-- One iteration of the block loop; it leaves the loop with an errno. -/
def readBlock (pread : Pread) (r : Request) (block : ℤ) (st : ReadState Count)
    : Except Halt (Option ℤ × ReadState Count) := do
  let (fetched, st) ← fetchBlock pread r block st
  match fetched with
  | .error errno => .ok (some errno, st)
  | .ok blockBuf => do
      let st ← copyBlock r block blockBuf st
      .ok (none, st)

/-- What `caching_read` does with its full path. -/
def cachingReadAt (cfs : CfsState) (pread : Pread) (s : CacheManager Count BlockBuf)
    (r : Request) (fpath : Path)
    : Except Halt (ℤ × ReadState Count) :=
  let start := ReadState.start s r
  if referingLogfile cfs fpath ≠ 0 then .ok (-enoent, start)
  else if r.size < 0 then .ok (0, start)
  else if r.offset < 0 ∨ r.file.fileSize ≤ r.offset then .ok (0, start)
  else do
    let _ ← checkedInt r.lastBlock
    let (left, st) ← forRange (readBlock pread r) r.numberOfBlocks.toNat r.firstBlock start
    match left with
    | some errno => .ok (-errno, st)
    | none => .ok (toInt st.res, st)

/-- Read data from an open file: the returned value and the final variables. -/
def cachingRead (cfs : CfsState) (pread : Pread) (s : CacheManager Count BlockBuf) (r : Request)
    : Except Halt (ℤ × ReadState Count) :=
  cachingReadAt cfs pread s r (cachingFullPath cfs r.path)

/-- What `caching_rename` does with its full paths. -/
def cachingRenameAt (cfs : CfsState) (rename : Path → Path → Except ℤ ℤ)
    (s : CacheManager Count BlockBuf) (path newpath fpath fnewpath : Path)
    : ℤ × CacheManager Count BlockBuf :=
  if referingLogfile cfs fpath ≠ 0 then (-enoent, s)
  else
    match rename fpath fnewpath with
    | .error errno => (-errno, s)
    | .ok res => (res, s.updatePaths path newpath)

/-- Rename a file; `rename` is the system call, with the errno of its failure. -/
def cachingRename (cfs : CfsState) (rename : Path → Path → Except ℤ ℤ)
    (s : CacheManager Count BlockBuf) (path newpath : Path)
    : ℤ × CacheManager Count BlockBuf :=
  cachingRenameAt cfs rename s path newpath (cachingFullPath cfs path)
    (cachingFullPath cfs newpath)

end CachingFileSystem.FileSystem
