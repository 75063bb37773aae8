import CachingFileSystem.Containers.CString
import CachingFileSystem.FileSystem.RenamedTrees

/-! The buffers of `PATH_MAX` bytes in which the operations compose full paths. What an operation
does behind the end of a buffer is undefined; the machine models it with a buffer that is large
enough.
-/

namespace CachingFileSystem.FileSystem

open CachingFileSystem.BufferCache
open CachingFileSystem.Containers
open CachingFileSystem.DirectoryTree

/-- What `caching_full_path` stores in the buffer it is given. -/
def cachingFullPathStores (cfs : CfsState) (path : Path) : Option (Stores Char) :=
  Stores.strncat (Stores.strcpy [] 0 cfs.rootdir) 0 path pathMax

/-- The buffer then holds the full path, and no more was stored; by the two copies. -/
theorem cachingFullPathStores_spec (cfs : CfsState) (path : Path)
    : ∃ m,
        cachingFullPathStores cfs path = some m
        ∧ m.Stored 0 (cachingFullPath cfs path)
        ∧ ∀ offset, offset ∈ m.offsets ↔ offset ≤ (cachingFullPath cfs path).length := by
  have root := Stores.stored_strcpy ([] : Stores Char) 0 cfs.rootdir
  obtain ⟨m, appended, stored, reach⟩ := root.strncat path pathMax
  refine ⟨m, appended, stored, ?_⟩
  intro offset
  rw [reach, Stores.mem_offsets_strcpy, cachingFullPath, List.length_append]
  simp only [Stores.offsets, List.map_nil, List.not_mem_nil, false_or, Nat.zero_le, true_and,
    Nat.zero_add]
  omega

/-- The stores of a full path stay inside a buffer of `PATH_MAX` bytes. -/
def StoresInside (cfs : CfsState) (path : Path) : Prop :=
  ∃ m, cachingFullPathStores cfs path = some m ∧ ∀ offset ∈ m.offsets, offset < pathMax

/-- The bound of `strncat` counts only what it appends: both lengths together decide. -/
theorem storesInside_iff {cfs : CfsState} {path : Path}
    : StoresInside cfs path ↔ cfs.rootdir.length + path.length < pathMax := by
  obtain ⟨m, composed, _, reach⟩ := cachingFullPathStores_spec cfs path
  have length : (cachingFullPath cfs path).length
      = cfs.rootdir.length + min pathMax path.length := by
    rw [cachingFullPath, List.length_append, List.length_take]
  constructor
  · intro inside
    obtain ⟨m', same, bounded⟩ := inside
    obtain rfl := Option.some.inj (composed.symm.trans same)
    have last := bounded _ ((reach _).mpr (Nat.le_refl _))
    omega
  · intro fits
    refine ⟨m, composed, ?_⟩
    intro offset stored
    have early := (reach offset).mp stored
    omega

-----------------------------------------------------------------------------------------
-- The calls of an operation
-----------------------------------------------------------------------------------------

/-- A computation with its calls of `caching_full_path`, each of which goes on with the path
composed.
-/
inductive Composing (α : Type) where
  | done (value : α)
  | fullPath (path : Path) (next : Path → Composing α)

namespace Composing

variable {α β : Type}

def map (f : α → β) : Composing α → Composing β
  | done value => done (f value)
  | fullPath path next => fullPath path (fun fpath => (next fpath).map f)

/-- What is computed. -/
def run (cfs : CfsState) : Composing α → α
  | done value => value
  | fullPath path next => (next (cachingFullPath cfs path)).run cfs

/-- The paths of which full paths are composed, in the order of the calls. -/
def composed (cfs : CfsState) : Composing α → List Path
  | done _ => []
  | fullPath path next => path :: (next (cachingFullPath cfs path)).composed cfs

theorem run_map (cfs : CfsState) (f : α → β) (c : Composing α)
    : (c.map f).run cfs = f (c.run cfs) := by
  induction c with
  | done value => rfl
  | fullPath path next ih => exact ih _

theorem composed_map (cfs : CfsState) (f : α → β) (c : Composing α)
    : (c.map f).composed cfs = c.composed cfs := by
  induction c with
  | done value => rfl
  | fullPath path next ih => exact congrArg (path :: ·) (ih _)

end Composing

/-- `caching_readdir` composes the path in each iteration, before the entry is looked at. -/
def readdirComposing {Buf : Type} (filler : Buf → Dirent → Buf × Bool) (path : Path)
    : List Dirent → Buf → Composing (ℤ × Buf × List Dirent)
  | [], buf => .done (0, buf, [])
  | dirEnt :: rest, buf =>
      .fullPath path (fun _ =>
        if dirEnt.dName = logfileName ∧ path = ['/'] then readdirComposing filler path rest buf
        else
          let (buf, full) := filler buf dirEnt
          if full then .done (0, buf, rest) else readdirComposing filler path rest buf)

variable {Count : Type} [LinearOrder Count] [OrderTop Count] [One Count] [Add Count]
  [ToString Count]

/-- The operations once more, with the calls where the source has them. -/
def composing (os : OperatingSystem) (cfs : CfsState) (w : World Count)
    : ClientOp → Composing (Except Halt (Reply × World Count))
  | .getattr path => .fullPath (render path) (fun fpath =>
      let (code, stat) := cachingGetattrAt cfs (fun full => (lookup w.tree full).number) fpath
      .done (.ok ({ code, stat }, w)))
  | .fgetattr path fi => .fullPath (render path) (fun fpath =>
      let (code, stat) := cachingFgetattrAt cfs (fun fd => (w.fstat fd).number) fi fpath
      .done (.ok ({ code, stat }, w)))
  | .access path mask => .fullPath (render path) (fun fpath =>
      let code := cachingAccessAt cfs (fun full mask => (w.access os full mask).number) mask fpath
      .done (.ok ({ code }, w)))
  | .openFile path fi => .fullPath (render path) (fun fpath =>
      let (code, fi, w) := cachingOpenAt cfs (World.sysOpen os) fi w fpath
      .done (.ok ({ code, fi := some fi }, w)))
  | .read pread r => .fullPath r.path (fun fpath => .done (do
      let (code, st) ← cachingReadAt cfs pread w.cacheManager r fpath
      .ok ({ code, data := st.buf }, { w with cacheManager := st.cacheManager })))
  | .flush path _ => .fullPath (render path) (fun fpath =>
      .done (.ok ({ code := cachingFlushAt cfs fpath }, w)))
  | .release path fi => .fullPath (releasePath path) (fun fpath =>
      let (code, w) := cachingReleaseAt cfs World.close fi w fpath
      .done (.ok ({ code }, w)))
  | .opendir path fi => .fullPath (render path) (fun fpath =>
      let (code, fi, w) := cachingOpendirAt cfs (World.opendir os) fi w fpath
      .done (.ok ({ code, fi := some fi }, w)))
  | .readdir path fi =>
      match w.streams.lookup fi.fh with
      | none => .done (.error .undefinedBehavior)
      | some entries =>
          (readdirComposing (fun buf dirEnt => (buf ++ [dirEnt], false)) (render path) entries
            []).map (fun (code, listing, rest) => .ok ({ code, listing }, {
              w with
              streams := w.streams.map (fun held =>
                if held.1 = fi.fh then (fi.fh, rest) else held)
            }))
  | .releasedir path fi =>
      let (code, w) := cachingReleasedir cfs World.closedir (releasePath path) fi w
      .done (.ok ({ code }, w))
  | .rename path newpath => .fullPath (render path) (fun fpath =>
      .fullPath (render newpath) (fun fnewpath =>
        let renamed := renameIn os w.tree fpath fnewpath
        let (code, cacheManager) := cachingRenameAt cfs
          (fun old new => Answer.number ((renameIn os w.tree old new).map (fun _ => 0)))
          w.cacheManager (render path) (render newpath) fpath fnewpath
        .done (.ok ({ code }, {
          w with
          cacheManager := cacheManager
          tree := if code = 0 then renamed.toOption.getD w.tree else w.tree
        }))))
  | .ioctl _ _ => .done (.ok ({ code := (cachingIoctl w.cacheManager).1 }, w))

theorem run_readdirComposing {Buf : Type} (cfs : CfsState) (filler : Buf → Dirent → Buf × Bool)
    (path : Path) (entries : List Dirent) (buf : Buf)
    : (readdirComposing filler path entries buf).run cfs
      = cachingReaddir filler path entries buf := by
  induction entries generalizing buf with
  | nil => rfl
  | cons dirEnt rest ih =>
      rw [readdirComposing, Composing.run, cachingReaddir]
      split
      · exact ih buf
      · simp only
        split
        · rfl
        · exact ih _

/-- A filler that takes every entry has the path composed once for each. -/
theorem composed_readdirComposing (cfs : CfsState) (path : Path) (entries buf : List Dirent)
    : (readdirComposing (fun buf dirEnt => (buf ++ [dirEnt], false)) path entries buf).composed cfs
      = List.replicate entries.length path := by
  induction entries generalizing buf with
  | nil => rfl
  | cons dirEnt rest ih =>
      rw [readdirComposing, Composing.composed, List.length_cons, List.replicate_succ]
      split
      · rw [ih]
      · simp only [Bool.false_eq_true, if_false, ih]

/-- The calls go on to what the operation does; by cases on the operation. -/
theorem run_composing (os : OperatingSystem) (cfs : CfsState) (w : World Count) (op : ClientOp)
    : (composing os cfs w op).run cfs = perform os cfs w op := by
  cases op with
  | readdir path fi =>
      rw [composing, perform]
      cases held : w.streams.lookup fi.fh with
      | none => rfl
      | some entries => rw [Composing.run_map, run_readdirComposing]
  | _ => rfl

-----------------------------------------------------------------------------------------
-- The paths composed
-----------------------------------------------------------------------------------------

/-- The paths an operation takes to compose full paths of them. -/
def pathArguments : ClientOp → List Path
  | .getattr path => [render path]
  | .fgetattr path _ => [render path]
  | .access path _ => [render path]
  | .openFile path _ => [render path]
  | .read _ r => [r.path]
  | .flush path _ => [render path]
  | .release path _ => [releasePath path]
  | .opendir path _ => [render path]
  | .readdir path _ => [render path]
  | .releasedir _ _ => []
  | .rename path newpath => [render path, render newpath]
  | .ioctl _ _ => []

/-- Reading a directory composes its path once for each entry; the others compose all their paths
before they check anything.
-/
def compositions (w : World Count) : ClientOp → List Path
  | .readdir path fi =>
      List.replicate ((w.streams.lookup fi.fh).getD []).length (render path)
  | op => pathArguments op

/-- The calls are those of these paths. -/
theorem composed_composing (os : OperatingSystem) (cfs : CfsState) (w : World Count)
    (op : ClientOp)
    : (composing os cfs w op).composed cfs = compositions w op := by
  cases op with
  | readdir path fi =>
      rw [composing, compositions]
      cases held : w.streams.lookup fi.fh with
      | none => rfl
      | some entries => rw [Composing.composed_map, composed_readdirComposing, Option.getD_some]
  | _ => rfl

omit [LinearOrder Count] [OrderTop Count] [One Count] [Add Count] [ToString Count] in
theorem compositions_subset (w : World Count) (op : ClientOp)
    : compositions w op ⊆ pathArguments op := by
  intro path composed
  cases op with
  | readdir _ _ => exact List.mem_singleton.mpr (List.eq_of_mem_replicate composed)
  | _ => exact composed

omit [LinearOrder Count] [OrderTop Count] [One Count] [Add Count] [ToString Count] in
/-- Only the path of a directory of which nothing is left to be read is not composed. -/
theorem composed_or_drained {w : World Count} {op : ClientOp} {path : Path}
    (argument : path ∈ pathArguments op)
    : path ∈ compositions w op
      ∨ ∃ place fi, op = .readdir place fi ∧ (w.streams.lookup fi.fh).getD [] = [] := by
  cases op with
  | readdir place fi =>
      by_cases drained : (w.streams.lookup fi.fh).getD [] = []
      · exact Or.inr ⟨place, fi, rfl, drained⟩
      · obtain rfl := List.mem_singleton.mp argument
        refine Or.inl (List.mem_replicate.mpr ⟨?_, rfl⟩)
        exact mt List.length_eq_zero_iff.mp drained
  | _ => exact Or.inl argument

/-- Reading it then returns no error, if the stream is still open. -/
theorem code_drained {os : OperatingSystem} {cfs : CfsState} {w : World Count} {place : Location}
    {fi : FuseFileInfo} {code : ℤ} (drained : (w.streams.lookup fi.fh).getD [] = [])
    (returned : code? os cfs w (.readdir place fi) = some code)
    : code = 0 := by
  simp only [code?, perform] at returned
  cases held : w.streams.lookup fi.fh with
  | none =>
      rw [held] at returned
      cases returned
  | some entries =>
      rw [held] at drained returned
      obtain rfl : entries = [] := drained
      exact (Option.some.inj returned).symm

-----------------------------------------------------------------------------------------
-- Safety
-----------------------------------------------------------------------------------------

/-- Composing full paths is safe in an operation: the stores stay inside the buffers, and paths
that do not fit are refused with an error and not composed.
-/
structure BufferSafe (os : OperatingSystem) (cfs : CfsState) (w : World Count) (op : ClientOp)
    : Prop where
  inside : ∀ path ∈ (composing os cfs w op).composed cfs, StoresInside cfs path
  refused
    : ∀ path ∈ pathArguments op,
        pathMax ≤ cfs.rootdir.length + path.length
        → path ∉ (composing os cfs w op).composed cfs ∧ ∃ code < 0, code? os cfs w op = some code

/-- No operation checks lengths, so safety leaves no path that does not fit; by what is composed
and, where nothing is, by the code returned.
-/
theorem BufferSafe.fits {os : OperatingSystem} {cfs : CfsState} {w : World Count} {op : ClientOp}
    (safe : BufferSafe os cfs w op) {path : Path} (argument : path ∈ pathArguments op)
    : cfs.rootdir.length + path.length < pathMax := by
  by_contra long
  obtain ⟨skipped, code, negative, returned⟩ := safe.refused path argument (Nat.le_of_not_lt long)
  rw [composed_composing] at skipped
  rcases composed_or_drained argument with composed | ⟨place, fi, rfl, drained⟩
  · exact skipped composed
  · obtain rfl := code_drained drained returned
    exact Int.lt_irrefl 0 negative

/-- Composing is safe exactly when every path fits behind the root directory. -/
theorem bufferSafe_iff (os : OperatingSystem) (cfs : CfsState) (w : World Count) (op : ClientOp)
    : BufferSafe os cfs w op
      ↔ ∀ path ∈ pathArguments op, cfs.rootdir.length + path.length < pathMax := by
  constructor
  · intro safe path argument
    exact safe.fits argument
  · intro fits
    refine ⟨?_, ?_⟩
    · intro path composed
      rw [composed_composing] at composed
      exact storesInside_iff.mpr (fits path (compositions_subset w op composed))
    · intro path argument long
      exact absurd (fits path argument) (Nat.not_lt.mpr long)

-----------------------------------------------------------------------------------------
-- A deep root directory
-----------------------------------------------------------------------------------------

/-- A name of `n + 1` letters. -/
def longName (n : ℕ) : Name where
  chars := List.replicate (n + 1) 'a'
  nonempty := List.cons_ne_nil 'a' (List.replicate n 'a')
  noSlash := by
    intro slash
    exact absurd (List.eq_of_mem_replicate slash) (by decide)
  unreserved := by
    rw [List.replicate_succ]
    simp

/-- Sixteen directories of 250 letters. -/
def deepRoot : Location := List.replicate 16 (longName 249)

/-- Looking up a name of 100 letters in the root of the mount. -/
def lookupLong : ClientOp := .getattr [longName 99]

theorem lookupLong_too_long
    : ¬ (CfsState.below (render deepRoot)).rootdir.length + (render [longName 99]).length
        < pathMax := by
  decide +kernel

/-- The path of the root directory fits into a buffer. The name is put behind it all the same, and
its end lies behind the buffer.
-/
theorem lookupLong_not_bufferSafe
    : (render deepRoot).length < pathMax
      ∧ ¬ StoresInside (.below (render deepRoot)) (render [longName 99])
      ∧ ¬ BufferSafe permissive (.below (render deepRoot)) smallWorld lookupLong := by
  refine ⟨by decide +kernel, mt storesInside_iff.mp lookupLong_too_long, ?_⟩
  intro safe
  exact lookupLong_too_long (safe.fits (List.mem_singleton_self (render [longName 99])))

end CachingFileSystem.FileSystem
