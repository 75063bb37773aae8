import CachingFileSystem.FileSystem.Operations

/-! The operations that pass a client's call on to the system (CachingFileSystem.cpp). A system
call is a parameter that answers with its result or its errno; a call that changes what the
process holds takes and returns that state. Every call is logged, which no result depends on.
What an operation does with its full path is a definition of its own, ending in `At`.
-/

namespace CachingFileSystem.FileSystem

open CachingFileSystem.BufferCache
open CachingFileSystem.Containers

/-- `ENONET` (the machine is not on the network) and `EACCES`. -/
def enonet : ℤ := 64
def eacces : ℤ := 13

/-- `O_WRONLY` and `O_RDWR`. -/
def oWronly : ℤ := 1
def oRdwr : ℤ := 2

def logfileName : Path := ".filesystem.log".toList

/-- The fields of `fuse_file_info` that the operations use. -/
structure FuseFileInfo where
  flags : ℤ
  directIo : Bool
  fh : UInt64
  deriving DecidableEq

structure Dirent where
  dIno : UInt64
  dName : Path
  deriving DecidableEq

-----------------------------------------------------------------------------------------
-- Attributes and access
-----------------------------------------------------------------------------------------

section Attributes

variable {Stat : Type}

def cachingGetattrAt (cfs : CfsState) (lstat : Path → Except ℤ Stat) (fpath : Path)
    : ℤ × Option Stat :=
  let res := referingLogfile cfs fpath
  if res ≠ 0 then (res, none)
  else
    match lstat fpath with
    | .error errno => (-errno, none)
    | .ok statbuf => (0, some statbuf)

/-- Get file attributes. They are absent where the buffer is zero: FUSE passes it zeroed. -/
def cachingGetattr (cfs : CfsState) (lstat : Path → Except ℤ Stat) (path : Path)
    : ℤ × Option Stat :=
  cachingGetattrAt cfs lstat (cachingFullPath cfs path)

def cachingFgetattrAt (cfs : CfsState) (fstat : ℤ → Except ℤ Stat) (fi : FuseFileInfo)
    (fpath : Path)
    : ℤ × Option Stat :=
  if referingLogfile cfs fpath ≠ 0 then (-enonet, none)
  else
    match fstat (toInt fi.fh.toNat) with
    | .error errno => (-errno, none)
    | .ok statbuf => (0, some statbuf)

/-- Get attributes from an open file. -/
def cachingFgetattr (cfs : CfsState) (fstat : ℤ → Except ℤ Stat) (path : Path)
    (fi : FuseFileInfo)
    : ℤ × Option Stat :=
  cachingFgetattrAt cfs fstat fi (cachingFullPath cfs path)

end Attributes

def cachingAccessAt (cfs : CfsState) (access : Path → ℤ → Except ℤ Unit) (mask : ℤ)
    (fullPath : Path)
    : ℤ :=
  let res := referingLogfile cfs fullPath
  if res ≠ 0 then res
  else
    match access fullPath mask with
    | .error errno => -errno
    | .ok () => 0

/-- Check file access permissions. -/
def cachingAccess (cfs : CfsState) (access : Path → ℤ → Except ℤ Unit) (path : Path) (mask : ℤ)
    : ℤ :=
  cachingAccessAt cfs access mask (cachingFullPath cfs path)

def cachingFlushAt (cfs : CfsState) (fpath : Path) : ℤ :=
  if referingLogfile cfs fpath ≠ 0 then -enonet else 0

/-- Possibly flush cached data. -/
def cachingFlush (cfs : CfsState) (path : Path) : ℤ :=
  cachingFlushAt cfs (cachingFullPath cfs path)

/-- Print the cache table to the log file: the returned value and the text. -/
def cachingIoctl {Count Buf : Type} [ToString Count] (s : CacheManager Count Buf)
    : ℤ × List Char :=
  (0, s.cacheToString)

-----------------------------------------------------------------------------------------
-- Handles
-----------------------------------------------------------------------------------------

section Handles

variable {Held : Type}

def cachingOpenAt (cfs : CfsState) (sysOpen : Path → Held → Except ℤ ℤ × Held)
    (fi : FuseFileInfo) (held : Held) (fpath : Path)
    : ℤ × FuseFileInfo × Held :=
  if referingLogfile cfs fpath ≠ 0 then (-enonet, fi, held)
  else
    let fi := { fi with directIo := true }
    if fi.flags % 4 = oWronly ∨ fi.flags % 4 = oRdwr then (-eacces, fi, held)
    else
      match sysOpen fpath held with
      | (.error errno, held) => (-errno, fi, held)
      | (.ok fd, held) => (0, { fi with fh := .ofNat fd.toNat }, held)

/-- File open operation; `sysOpen` opens for reading and answers with a descriptor. -/
def cachingOpen (cfs : CfsState) (sysOpen : Path → Held → Except ℤ ℤ × Held) (path : Path)
    (fi : FuseFileInfo) (held : Held)
    : ℤ × FuseFileInfo × Held :=
  cachingOpenAt cfs sysOpen fi held (cachingFullPath cfs path)

def cachingReleaseAt (cfs : CfsState) (close : ℤ → Held → Except ℤ Unit × Held)
    (fi : FuseFileInfo) (held : Held) (fpath : Path)
    : ℤ × Held :=
  let res := referingLogfile cfs fpath
  if res ≠ 0 then (res, held)
  else
    match close (toInt fi.fh.toNat) held with
    | (.error errno, held) => (-errno, held)
    | (.ok (), held) => (0, held)

/-- Release an open file. What `fstat` reports of it is not used. -/
def cachingRelease (cfs : CfsState) (close : ℤ → Held → Except ℤ Unit × Held) (path : Path)
    (fi : FuseFileInfo) (held : Held)
    : ℤ × Held :=
  cachingReleaseAt cfs close fi held (cachingFullPath cfs path)

def cachingOpendirAt (cfs : CfsState) (opendir : Path → Held → Except ℤ UInt64 × Held)
    (fi : FuseFileInfo) (held : Held) (fullPath : Path)
    : ℤ × FuseFileInfo × Held :=
  let res := referingLogfile cfs fullPath
  if res ≠ 0 then (res, fi, held)
  else
    match opendir fullPath held with
    | (.error errno, held) => (-errno, fi, held)
    | (.ok dp, held) => (0, { fi with fh := dp }, held)

/-- Open directory; `opendir` answers with the address of a directory stream. -/
def cachingOpendir (cfs : CfsState) (opendir : Path → Held → Except ℤ UInt64 × Held)
    (path : Path) (fi : FuseFileInfo) (held : Held)
    : ℤ × FuseFileInfo × Held :=
  cachingOpendirAt cfs opendir fi held (cachingFullPath cfs path)

/-- Read directory: the loop over the entries `readdir` returns, up to its null. `filler` tells
whether its buffer is full; what is left of the stream is returned last. The full path that each
iteration composes is not used.
-/
def cachingReaddir {Buf : Type} (filler : Buf → Dirent → Buf × Bool) (path : Path)
    : List Dirent → Buf → ℤ × Buf × List Dirent
  | [], buf => (0, buf, [])
  | dirEnt :: rest, buf =>
      if dirEnt.dName = logfileName ∧ path = ['/'] then cachingReaddir filler path rest buf
      else
        let (buf, full) := filler buf dirEnt
        if full then (0, buf, rest) else cachingReaddir filler path rest buf

/-- Release directory. The path is compared as it is given. -/
def cachingReleasedir (cfs : CfsState) (closedir : UInt64 → Held → Except ℤ Unit × Held)
    (path : Path) (fi : FuseFileInfo) (held : Held)
    : ℤ × Held :=
  if referingLogfile cfs path ≠ 0 then (-enonet, held)
  else
    match closedir fi.fh held with
    | (.error errno, held) => (-errno, held)
    | (.ok (), held) => (0, held)

end Handles

end CachingFileSystem.FileSystem
