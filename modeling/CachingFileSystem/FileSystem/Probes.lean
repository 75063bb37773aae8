import CachingFileSystem.FileSystem.MachineSteps

/-! Calls of a client that looks for the log file, each with what it returns: one equation for
every call, from which all comparisons of two machines follow.
-/

namespace CachingFileSystem.FileSystem

open CachingFileSystem.BufferCache
open CachingFileSystem.Containers
open CachingFileSystem.DirectoryTree

/-- The calls of a client that looks for the log: files are opened for reading only, and nothing
is renamed to the name of the log.
-/
inductive Probe where
  | getattr (path : Location)
  | access (path : Location) (mask : ℤ)
  | openFile (path : Location) (fi : FuseFileInfo) (readOnly : fi.flags % 4 = 0)
  | list (path : Location) (fi : FuseFileInfo)
  | rename (path newpath : Location) (other : newpath ≠ [logName])

def Probe.path : Probe → Location
  | .getattr path | .access path _ | .openFile path _ _ | .list path _ | .rename path _ _ => path

variable {Count : Type} [LinearOrder Count] [OrderTop Count] [One Count] [Add Count]
  [ToString Count]

/-- What a probe returns: the code, and the listing of a directory that could be opened. -/
def probe (os : OperatingSystem) (cfs : CfsState) (w : World Count)
    : Probe → Except Halt ((ℤ × List Dirent) × World Count)
  | .getattr path => do
      let (reply, w) ← perform os cfs w (.getattr path)
      .ok ((reply.code, []), w)
  | .access path mask => do
      let (reply, w) ← perform os cfs w (.access path mask)
      .ok ((reply.code, []), w)
  | .openFile path fi _ => do
      let (reply, w) ← perform os cfs w (.openFile path fi)
      .ok ((reply.code, []), w)
  | .list path fi => do
      let (reply, w) ← perform os cfs w (.opendir path fi)
      if reply.code = 0 then do
        let (reply, w) ← perform os cfs w (.readdir path (reply.fi.getD fi))
        .ok ((reply.code, reply.listing), w)
      else .ok ((reply.code, []), w)
  | .rename path newpath _ => do
      let (reply, w) ← perform os cfs w (.rename path newpath)
      .ok ((reply.code, []), w)

variable {os : OperatingSystem} {root path : Location} {w : World Count} {fi : FuseFileInfo}

-----------------------------------------------------------------------------------------
-- Listings
-----------------------------------------------------------------------------------------

/-- The listing of a path shows an entry. -/
def showsEntry (path : Path) (dirEnt : Dirent) : Bool :=
  !(dirEnt.dName = logfileName ∧ path = ['/'])

/-- A reader that takes every entry gets all that are shown; by induction on the entries. -/
theorem cachingReaddir_all (path : Path) (entries buf : List Dirent)
    : cachingReaddir (fun buf dirEnt => (buf ++ [dirEnt], false)) path entries buf
      = (0, buf ++ entries.filter (showsEntry path), []) := by
  induction entries generalizing buf with
  | nil => rw [cachingReaddir, List.filter_nil, List.append_nil]
  | cons dirEnt rest ih =>
      rw [cachingReaddir]
      split
      · next log =>
          have left : ¬ showsEntry path dirEnt = true := by simp [showsEntry, log]
          rw [ih, List.filter_cons_of_neg left]
      · next other =>
          have shown : showsEntry path dirEnt = true := by
            rw [showsEntry, decide_eq_false other]
            rfl
          rw [List.filter_cons_of_pos shown]
          simp only [Bool.false_eq_true, if_false, ih, List.append_assoc, List.singleton_append]

-----------------------------------------------------------------------------------------
-- What a probe returns
-----------------------------------------------------------------------------------------

/-- The code returned for an answer of the system. -/
def Answer.code {α : Type} : Answer α → ℤ
  | .ok _ => 0
  | .error err => -err.val

theorem probe_getattr (notLog : path ≠ [logName])
    : probe os (.below (render root)) w (.getattr path)
      = .ok ((Answer.code
          (lookup w.tree (cachingFullPath (.below (render root)) (render path))), []), w) := by
  simp only [probe, perform, cachingGetattr, cachingGetattrAt,
    if_neg (mt referingLogfile_render.mp notLog)]
  cases lookup w.tree (cachingFullPath (.below (render root)) (render path)) <;> rfl

theorem probe_access {mask : ℤ} (notLog : path ≠ [logName])
    : probe os (.below (render root)) w (.access path mask)
      = .ok ((Answer.code
          (w.access os (cachingFullPath (.below (render root)) (render path)) mask), []), w) := by
  simp only [probe, perform, cachingAccess, cachingAccessAt,
    if_neg (mt referingLogfile_render.mp notLog)]
  cases w.access os (cachingFullPath (.below (render root)) (render path)) mask <;> rfl

/-- A file that is opened for reading is held when that succeeds. -/
theorem probe_openFile {readOnly : fi.flags % 4 = 0} (notLog : path ≠ [logName])
    : probe os (.below (render root)) w (.openFile path fi readOnly)
      = .ok (
          (Answer.code
            (w.openAnswer os (cachingFullPath (.below (render root)) (render path))), []),
          match w.openAnswer os (cachingFullPath (.below (render root)) (render path)) with
          | .ok opened => { w with descriptors := opened :: w.descriptors }
          | .error _ => w) := by
  have notWriting : ¬ (fi.flags % 4 = oWronly ∨ fi.flags % 4 = oRdwr) := by
    rw [readOnly]
    decide
  simp only [probe, perform, cachingOpen, cachingOpenAt,
    if_neg (mt referingLogfile_render.mp notLog), if_neg notWriting, World.sysOpen]
  cases w.openAnswer os (cachingFullPath (.below (render root)) (render path)) <;> rfl

/-- A directory that is opened is read to its end. -/
theorem probe_list (notLog : path ≠ [logName])
    : probe os (.below (render root)) w (.list path fi)
      = .ok (
          match w.opendirAnswer os (cachingFullPath (.below (render root)) (render path)) with
          | .ok (dp, entries) =>
              ((0, entries.filter (showsEntry (render path))), {
                w with
                streams := ((dp, entries) :: w.streams).map
                  (fun held => if held.1 = dp then (dp, []) else held)
              })
          | .error err => ((-err.val, []), w)) := by
  simp only [probe, perform, cachingOpendir, cachingOpendirAt,
    if_neg (mt referingLogfile_render.mp notLog), World.opendir]
  rcases w.opendirAnswer os (cachingFullPath (.below (render root)) (render path))
    with err | ⟨dp, entries⟩
  · simp only [ok_bind, if_neg (neg_errno_ne_zero err)]
  · simp only [ok_bind, if_true, Option.getD_some, List.lookup_cons_self, cachingReaddir_all,
      List.nil_append]

/-- Calls that look a path up and do not find it fail with the reason. -/
theorem probe_failed {op : Probe} {err : Errno} (notLog : op.path ≠ [logName])
    (notRename : ∀ path newpath other, op ≠ .rename path newpath other)
    (failed
      : lookup w.tree (cachingFullPath (.below (render root)) (render op.path)) = .error err)
    : probe os (.below (render root)) w op = .ok ((-err.val, []), w) := by
  cases op with
  | getattr path =>
      simp only [Probe.path] at notLog failed
      rw [probe_getattr notLog]
      rw [failed, Answer.code]
  | access path mask =>
      simp only [Probe.path] at notLog failed
      rw [probe_access notLog]
      simp only [World.access, failed, bind, Except.bind, Answer.code]
  | openFile path fi readOnly =>
      simp only [Probe.path] at notLog failed
      rw [probe_openFile notLog]
      simp only [World.openAnswer, failed, bind, Except.bind, Answer.code]
  | list path fi =>
      simp only [Probe.path] at notLog failed
      rw [probe_list notLog]
      simp only [World.opendirAnswer, failed, bind, Except.bind]
  | rename path newpath other => exact absurd rfl (notRename path newpath other)

/-- What the operations answer for the log. -/
def logCode : Probe → ℤ
  | .openFile _ _ _ => -enonet
  | _ => -enoent

theorem probe_log {op : Probe} (log : op.path = [logName])
    : probe os (.below (render root)) w op = .ok ((logCode op, []), w) := by
  have code : referingLogfile (.below (render root))
      (cachingFullPath (.below (render root)) (render [logName])) = -enoent := by
    rw [referingLogfile, if_pos]
    exact (logfileFullPath_below _).symm
  have refered : -enoent ≠ 0 := by decide
  cases op with
  | getattr path =>
      simp only [Probe.path] at log
      subst log
      simp only [probe, perform, cachingGetattr, cachingGetattrAt, code, if_pos refered, ok_bind,
        logCode]
  | access path mask =>
      simp only [Probe.path] at log
      subst log
      simp only [probe, perform, cachingAccess, cachingAccessAt, code, if_pos refered, ok_bind,
        logCode]
  | openFile path fi readOnly =>
      simp only [Probe.path] at log
      subst log
      simp only [probe, perform, cachingOpen, cachingOpenAt, code, if_pos refered, ok_bind, logCode]
  | list path fi =>
      simp only [Probe.path] at log
      subst log
      simp only [probe, perform, cachingOpendir, cachingOpendirAt, code, if_pos refered, ok_bind,
        if_neg refered, logCode]
  | rename path newpath other =>
      simp only [Probe.path] at log
      subst log
      simp only [probe, perform_rename_log, ok_bind, logCode]

end CachingFileSystem.FileSystem
