import CachingFileSystem.DirectoryTree.Tree
import CachingFileSystem.FileSystem.ClientOperations

/-! The machine the operations run on: a directory tree with its system calls, the descriptors
and directory streams of the process, and its cache. One client operation is one step of it.
-/

namespace CachingFileSystem.FileSystem

open CachingFileSystem.BufferCache
open CachingFileSystem.Containers
open CachingFileSystem.DirectoryTree

structure Directory where
  stDev : UInt64
  stIno : UInt64
  deriving DecidableEq

deriving instance DecidableEq for File

abbrev FileNode := Inode File Directory

abbrev FileTree := Tree File Directory

/-- `st_ino`. -/
def inode : FileNode → UInt64
  | .file file => file.stIno
  | .directory dir => dir.stIno

/-- Hard links of one file. -/
def sameInode (file other : File) : Bool := file.identity = other.identity

-----------------------------------------------------------------------------------------
-- Errors
-----------------------------------------------------------------------------------------

abbrev Errno := {errno : ℤ // 0 < errno}

def ebadf : Errno := ⟨9, by decide⟩
def emfile : Errno := ⟨24, by decide⟩
def enametoolong : Errno := ⟨36, by decide⟩

def errno : PathError → Errno
  | .noEntry => ⟨2, by decide⟩
  | .busy => ⟨16, by decide⟩
  | .notDirectory => ⟨20, by decide⟩
  | .isDirectory => ⟨21, by decide⟩
  | .invalid => ⟨22, by decide⟩
  | .notEmpty => ⟨39, by decide⟩

/-- What a system call answers. -/
abbrev Answer (α : Type) := Except Errno α

/-- The operations see the number of an errno. -/
def Answer.number {α : Type} : Answer α → Except ℤ α
  | .ok value => .ok value
  | .error err => .error err.val

-----------------------------------------------------------------------------------------
-- The tree
-----------------------------------------------------------------------------------------

/-- `NAME_MAX`. -/
def nameMax : ℕ := 255

/-- The place a path leads to, unless the path or a name in it is too long for the system. -/
def placeOf (path : Path) : Answer Location :=
  let place : Location := components path
  if path.length < pathMax ∧ ∀ name ∈ place, name.chars.length ≤ nameMax then .ok place
  else .error enametoolong

def lookup (t : FileTree) (path : Path) : Answer FileNode := do
  let place ← placeOf path
  match t.resolve place with
  | .ok node => .ok node
  | .error err => .error (errno err)

/-- The entries of a directory stream, those of the directory itself and its parent first. -/
def direntsOf (t : FileTree) (place : Location) (dir : Directory) : List Dirent :=
  let parent := ((t.get? place.dropLast).map inode).getD dir.stIno
  ⟨dir.stIno, ['.']⟩ :: ⟨parent, ['.', '.']⟩
    :: (t.children place).map (fun child => ⟨inode child.2, child.1.chars⟩)

-----------------------------------------------------------------------------------------
-- The process
-----------------------------------------------------------------------------------------

/-- What the system decides besides the tree: permissions, and the descriptors and stream
addresses it gives out, none of them in use.
-/
structure OperatingSystem where
  /-- Why `access` fails on an object, if it does. -/
  denied : FileNode → ℤ → Option Errno
  /-- Why `open` fails on an object, if it does. -/
  refusedOpen : FileNode → Option Errno
  /-- Why `opendir` fails on a directory, if it does. -/
  refusedOpendir : Directory → Option Errno
  /-- Why `rename` fails where the tree allows it, if it does: for the directory and the object
  it is of, and for the directory and the object it is to.
  -/
  refusedRename
    : Option FileNode → Option FileNode → Option FileNode → Option FileNode → Option Errno
  newDescriptor : List ℤ → Answer ℤ
  newStream : List UInt64 → Answer UInt64
  descriptorFresh : ∀ held fd, newDescriptor held = .ok fd → fd ∉ held ∧ 0 ≤ fd ∧ fd < 2 ^ 31
  streamFresh : ∀ held dp, newStream held = .ok dp → dp ∉ held

/-- The first name that is not held, of at most 1024. -/
def firstUnused {α : Type} [DecidableEq α] (name : ℕ → α) (held : List α) : Answer α :=
  match (List.range 1024).find? (fun k => name k ∉ held) with
  | some k => .ok (name k)
  | none => .error emfile

theorem firstUnused_fresh {α : Type} [DecidableEq α] {name : ℕ → α} {held : List α} {fresh : α}
    (given : firstUnused name held = .ok fresh)
    : fresh ∉ held ∧ ∃ k < 1024, fresh = name k := by
  unfold firstUnused at given
  split at given
  · next k found =>
      have unused : name k ∉ held := by simpa using List.find?_some found
      have small := List.mem_range.mp (List.mem_of_find?_eq_some found)
      obtain rfl := Except.ok.inj given
      exact ⟨unused, k, small, rfl⟩
  · cases given

/-- A system that permits everything, with 1024 descriptors and streams at most. -/
def permissive : OperatingSystem where
  denied _ _ := none
  refusedOpen _ := none
  refusedOpendir _ := none
  refusedRename _ _ _ _ := none
  newDescriptor := firstUnused Int.ofNat
  newStream := firstUnused (fun k => .ofNat (k + 1))
  descriptorFresh := by
    intro held fd given
    obtain ⟨unused, k, small, rfl⟩ := firstUnused_fresh given
    exact ⟨unused, Int.natCast_nonneg k, (Int.ofNat_lt.mpr small).trans (by decide)⟩
  streamFresh := fun held dp given => (firstUnused_fresh given).1

def OperatingSystem.renameRefused (os : OperatingSystem) (t : FileTree)
    (place newPlace : Location)
    : Option Errno :=
  os.refusedRename (t.get? place.dropLast) (t.get? place) (t.get? newPlace.dropLast)
    (t.get? newPlace)

def renameIn (os : OperatingSystem) (t : FileTree) (path newpath : Path) : Answer FileTree := do
  let place ← placeOf path
  let newPlace ← placeOf newpath
  match t.rename sameInode place newPlace with
  | .error err => .error (errno err)
  | .ok t' =>
      match os.renameRefused t place newPlace with
      | some err => .error err
      | none => .ok t'

structure World (Count : Type) where
  tree : FileTree
  cacheManager : CacheManager Count BlockBuf
  descriptors : List (ℤ × FileNode)
  streams : List (UInt64 × List Dirent)

namespace World

variable {Count : Type} (os : OperatingSystem)

def heldDescriptors (w : World Count) : List ℤ := w.descriptors.map Prod.fst

def heldStreams (w : World Count) : List UInt64 := w.streams.map Prod.fst

def access (w : World Count) (path : Path) (mask : ℤ) : Answer Unit := do
  let node ← lookup w.tree path
  match os.denied node mask with
  | some err => .error err
  | none => .ok ()

def fstat (w : World Count) (fd : ℤ) : Answer FileNode :=
  match w.descriptors.lookup fd with
  | some node => .ok node
  | none => .error ebadf

/-- An open answers with a new descriptor. -/
def openAnswer (w : World Count) (path : Path) : Answer (ℤ × FileNode) := do
  let node ← lookup w.tree path
  match os.refusedOpen node with
  | some err => .error err
  | none => do
      let fd ← os.newDescriptor w.heldDescriptors
      .ok (fd, node)

def sysOpen (path : Path) (w : World Count) : Except ℤ ℤ × World Count :=
  match w.openAnswer os path with
  | .error err => (.error err.val, w)
  | .ok (fd, node) => (.ok fd, { w with descriptors := (fd, node) :: w.descriptors })

def close (fd : ℤ) (w : World Count) : Except ℤ Unit × World Count :=
  if fd ∈ w.heldDescriptors then
    (.ok (), { w with descriptors := w.descriptors.filter (fun held => held.1 ≠ fd) })
  else (.error ebadf.val, w)

def opendirAnswer (w : World Count) (path : Path) : Answer (UInt64 × List Dirent) := do
  let node ← lookup w.tree path
  let place ← placeOf path
  match node with
  | .file _ => .error (errno .notDirectory)
  | .directory dir =>
      match os.refusedOpendir dir with
      | some err => .error err
      | none => do
          let dp ← os.newStream w.heldStreams
          .ok (dp, direntsOf w.tree place dir)

def opendir (path : Path) (w : World Count) : Except ℤ UInt64 × World Count :=
  match w.opendirAnswer os path with
  | .error err => (.error err.val, w)
  | .ok (dp, entries) => (.ok dp, { w with streams := (dp, entries) :: w.streams })

def closedir (dp : UInt64) (w : World Count) : Except ℤ Unit × World Count :=
  if dp ∈ w.heldStreams then
    (.ok (), { w with streams := w.streams.filter (fun held => held.1 ≠ dp) })
  else (.error ebadf.val, w)

end World

-----------------------------------------------------------------------------------------
-- Client operations
-----------------------------------------------------------------------------------------

/-- The calls FUSE makes. It builds paths from the names of entries; an object that has no
path any more is released under none.
-/
inductive ClientOp where
  | getattr (path : Location)
  | fgetattr (path : Location) (fi : FuseFileInfo)
  | access (path : Location) (mask : ℤ)
  | openFile (path : Location) (fi : FuseFileInfo)
  | read (pread : Pread) (r : Request)
  | flush (path : Location) (fi : FuseFileInfo)
  | release (path : Option Location) (fi : FuseFileInfo)
  | opendir (path : Location) (fi : FuseFileInfo)
  | readdir (path : Location) (fi : FuseFileInfo)
  | releasedir (path : Option Location) (fi : FuseFileInfo)
  | rename (path newpath : Location)
  | ioctl (path : Location) (fi : FuseFileInfo)

/-- The path FUSE passes on release; a dash when there is none. -/
def releasePath : Option Location → Path
  | some path => render path
  | none => ['-']

/-- What a client gets back: the return code, and what the operation stored for it. -/
structure Reply where
  code : ℤ
  stat : Option FileNode := none
  fi : Option FuseFileInfo := none
  data : List (Option UInt8) := []
  listing : List Dirent := []

variable {Count : Type} [LinearOrder Count] [OrderTop Count] [One Count] [Add Count]
  [ToString Count]

/-- One client operation. The filler takes every entry; a rename has changed the tree when
zero is returned.
-/
def perform (os : OperatingSystem) (cfs : CfsState) (w : World Count)
    : ClientOp → Except Halt (Reply × World Count)
  | .getattr path =>
      let (code, stat) := cachingGetattr cfs (fun full => (lookup w.tree full).number)
        (render path)
      .ok ({ code, stat }, w)
  | .fgetattr path fi =>
      let (code, stat) := cachingFgetattr cfs (fun fd => (w.fstat fd).number) (render path) fi
      .ok ({ code, stat }, w)
  | .access path mask =>
      let code := cachingAccess cfs (fun full mask => (w.access os full mask).number)
        (render path) mask
      .ok ({ code }, w)
  | .openFile path fi =>
      let (code, fi, w) := cachingOpen cfs (World.sysOpen os) (render path) fi w
      .ok ({ code, fi := some fi }, w)
  | .read pread r => do
      let (code, st) ← cachingRead cfs pread w.cacheManager r
      .ok ({ code, data := st.buf }, { w with cacheManager := st.cacheManager })
  | .flush path _ => .ok ({ code := cachingFlush cfs (render path) }, w)
  | .release path fi =>
      let (code, w) := cachingRelease cfs World.close (releasePath path) fi w
      .ok ({ code }, w)
  | .opendir path fi =>
      let (code, fi, w) := cachingOpendir cfs (World.opendir os) (render path) fi w
      .ok ({ code, fi := some fi }, w)
  | .readdir path fi =>
      match w.streams.lookup fi.fh with
      | none => .error .undefinedBehavior
      | some entries =>
          let (code, listing, rest) := cachingReaddir
            (fun buf dirEnt => (buf ++ [dirEnt], false)) (render path) entries []
          .ok ({ code, listing }, {
            w with
            streams := w.streams.map (fun held => if held.1 = fi.fh then (fi.fh, rest) else held)
          })
  | .releasedir path fi =>
      let (code, w) := cachingReleasedir cfs World.closedir (releasePath path) fi w
      .ok ({ code }, w)
  | .rename path newpath =>
      let renamed := renameIn os w.tree (cachingFullPath cfs (render path))
        (cachingFullPath cfs (render newpath))
      let (code, cacheManager) := cachingRename cfs
        (fun old new => Answer.number ((renameIn os w.tree old new).map (fun _ => 0)))
        w.cacheManager (render path) (render newpath)
      .ok ({ code }, {
        w with
        cacheManager := cacheManager
        tree := if code = 0 then renamed.toOption.getD w.tree else w.tree
      })
  | .ioctl _ _ => .ok ({ code := (cachingIoctl w.cacheManager).1 }, w)

/-- The world after an operation; one that does not return leaves it as it was. -/
def after (os : OperatingSystem) (cfs : CfsState) (w : World Count) (op : ClientOp)
    : World Count :=
  match perform os cfs w op with
  | .ok (_, w') => w'
  | .error _ => w

def afterAll (os : OperatingSystem) (cfs : CfsState) (w : World Count) (ops : List ClientOp)
    : World Count :=
  ops.foldl (after os cfs) w

/-- The code an operation returns, if it does. -/
def code? (os : OperatingSystem) (cfs : CfsState) (w : World Count) (op : ClientOp) : Option ℤ :=
  match perform os cfs w op with
  | .ok (reply, _) => some reply.code
  | .error _ => none

theorem performed_of_code {os : OperatingSystem} {cfs : CfsState} {w : World Count}
    {op : ClientOp} {code : ℤ} (returned : code? os cfs w op = some code)
    : ∃ reply, perform os cfs w op = .ok (reply, after os cfs w op) ∧ reply.code = code := by
  unfold code? at returned
  unfold after
  split at returned
  · next reply w' performed =>
      rw [performed]
      exact ⟨reply, rfl, Option.some.inj returned⟩
  · cases returned

/-- The handle an operation stores, if it returns. -/
def opened? (os : OperatingSystem) (cfs : CfsState) (w : World Count) (op : ClientOp)
    : Option FuseFileInfo :=
  match perform os cfs w op with
  | .ok (reply, _) => reply.fi
  | .error _ => none

theorem performed_of_opened {os : OperatingSystem} {cfs : CfsState} {w : World Count}
    {op : ClientOp} {code : ℤ} {fi : FuseFileInfo} (returned : code? os cfs w op = some code)
    (opened : opened? os cfs w op = some fi)
    : ∃ reply,
        perform os cfs w op = .ok (reply, after os cfs w op)
        ∧ reply.code = code
        ∧ reply.fi = some fi := by
  obtain ⟨reply, performed, same⟩ := performed_of_code returned
  rw [opened?, performed] at opened
  exact ⟨reply, performed, same, opened⟩

end CachingFileSystem.FileSystem
