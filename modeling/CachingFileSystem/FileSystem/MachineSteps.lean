import CachingFileSystem.FileSystem.Machine

/-! What a step of the machine can do: which calls mean the log, where full paths lead, and how
each operation changes the tree, the cache and the handles.
-/

namespace CachingFileSystem.FileSystem

open CachingFileSystem.BufferCache
open CachingFileSystem.Containers
open CachingFileSystem.DirectoryTree
open CachingFileSystem.Transitions

-----------------------------------------------------------------------------------------
-- Paths
-----------------------------------------------------------------------------------------

/-- The entry of the log file. -/
def logName : Name := ⟨logfileName, by decide, by decide, by decide⟩

/-- What a short list is the beginning of is the list itself. -/
theorem eq_of_take_eq {α : Type} {whole short : List α} {n : ℕ} (begins : whole.take n = short)
    (shorter : short.length < n)
    : whole = short := by
  have length := congrArg List.length begins
  rw [List.length_take] at length
  have complete : whole.length ≤ n := by omega
  rwa [List.take_of_length_le complete] at begins

theorem logfileFullPath_below (rootdir : Path)
    : (CfsState.below rootdir).logfileFullPath = rootdir ++ render [logName] := by
  rw [CfsState.below, List.append_assoc]
  rfl

/-- A call means the log exactly when its path is the log's. -/
theorem referingLogfile_iff {rootdir path : Path}
    : referingLogfile (.below rootdir) (cachingFullPath (.below rootdir) path) ≠ 0
      ↔ path = render [logName] := by
  have check : referingLogfile (.below rootdir) (cachingFullPath (.below rootdir) path) ≠ 0
      ↔ path.take pathMax = render [logName] := by
    rw [referingLogfile, logfileFullPath_below, cachingFullPath]
    simp [CfsState.below, enoent]
  rw [check]
  refine ⟨fun begins => eq_of_take_eq begins (by decide), fun same => ?_⟩
  rw [same]
  rfl

theorem referingLogfile_render {rootdir : Path} {path : Location}
    : referingLogfile (.below rootdir) (cachingFullPath (.below rootdir) (render path)) ≠ 0
      ↔ path = [logName] :=
  referingLogfile_iff.trans render_injective.eq_iff

/-- Neither the full path nor a name in it is too long for a system call. -/
def Fits (root path : Location) : Prop :=
  (render root ++ render path).length < pathMax
  ∧ ∀ name ∈ root ++ path, name.chars.length ≤ nameMax

instance (root path : Location) : Decidable (Fits root path) :=
  inferInstanceAs (Decidable (_ ∧ _))

variable {os : OperatingSystem} {root path newpath : Location}

theorem placeOf_full
    : placeOf (cachingFullPath (.below (render root)) (render path))
      = if Fits root path then .ok (root ++ path) else .error enametoolong := by
  have nonempty : 0 < (render root).length := by
    obtain ⟨rest, slash⟩ := render_eq_slash root
    rw [slash]
    exact Nat.succ_pos _
  simp only [placeOf, cachingFullPath, CfsState.below, Fits, List.length_append,
    List.length_take]
  by_cases short : (render root).length + (render path).length < pathMax
  · have whole : (render path).length ≤ pathMax := by omega
    have place : components (render root ++ render path) = root ++ path := by
      rw [components_append_render, components_render]
    rw [List.take_of_length_le whole, place]
    simp only [Nat.min_eq_right whole]
  · have long : ¬ (render root).length + min pathMax (render path).length < pathMax := by omega
    rw [if_neg (mt And.left long), if_neg (mt And.left short)]

theorem lookup_full {t : FileTree}
    : lookup t (cachingFullPath (.below (render root)) (render path))
      = if Fits root path then
          match t.resolve (root ++ path) with
          | .ok node => .ok node
          | .error err => .error (errno err)
        else .error enametoolong := by
  rw [lookup, placeOf_full]
  split <;> rfl

/-- What a full path is found to be is at the place it leads to. -/
theorem lookup_eq_ok_iff {t : FileTree} {node : FileNode}
    : lookup t (cachingFullPath (.below (render root)) (render path)) = .ok node
      ↔ Fits root path ∧ (root ++ path, node) ∈ t.entries := by
  rw [lookup_full, ← Tree.resolve_eq_ok_iff]
  split
  · next fits => cases t.resolve (root ++ path) <;> simp [fits]
  · next long =>
      refine iff_of_false ?_ (fun both => long both.1)
      intro failed
      cases failed

theorem renameIn_full {t : FileTree}
    : renameIn os t (cachingFullPath (.below (render root)) (render path))
        (cachingFullPath (.below (render root)) (render newpath))
      = if Fits root path ∧ Fits root newpath then
          match t.rename sameInode (root ++ path) (root ++ newpath) with
          | .error err => .error (errno err)
          | .ok t' =>
              match os.renameRefused t (root ++ path) (root ++ newpath) with
              | some err => .error err
              | none => .ok t'
        else .error enametoolong := by
  rw [renameIn, placeOf_full, placeOf_full]
  by_cases fits : Fits root path <;> by_cases newFits : Fits root newpath <;>
    simp only [fits, newFits, and_self, and_false, false_and, if_true, if_false] <;> rfl

theorem renameIn_eq_ok_iff {t t' : FileTree}
    : renameIn os t (cachingFullPath (.below (render root)) (render path))
        (cachingFullPath (.below (render root)) (render newpath)) = .ok t'
      ↔ Fits root path
        ∧ Fits root newpath
        ∧ t.rename sameInode (root ++ path) (root ++ newpath) = .ok t'
        ∧ os.renameRefused t (root ++ path) (root ++ newpath) = none := by
  rw [renameIn_full, ← and_assoc]
  split
  · next fits =>
      rcases t.rename sameInode (root ++ path) (root ++ newpath) with err | t''
      · simp
      · cases os.renameRefused t (root ++ path) (root ++ newpath) <;> simp [fits]
  · next long => exact iff_of_false (fun failed => nomatch failed) (fun both => long both.1)

-----------------------------------------------------------------------------------------
-- Renaming
-----------------------------------------------------------------------------------------

variable {Count : Type} [LinearOrder Count] [OrderTop Count] [One Count] [Add Count]
  [ToString Count] {w w' : World Count} {reply : Reply}

theorem neg_errno_ne_zero (err : Errno) : -err.val ≠ 0 :=
  neg_ne_zero.mpr err.property.ne'

theorem perform_rename_log
    : perform os (.below (render root)) w (.rename [logName] newpath)
      = .ok ({ code := -enoent }, w) := by
  have failed : ¬ -enoent = 0 := by decide
  rw [perform, cachingRename, cachingRenameAt, if_pos (referingLogfile_render.mpr rfl)]
  simp only [if_neg failed]

theorem perform_rename_error {err : Errno} (notLog : path ≠ [logName])
    (called
      : renameIn os w.tree (cachingFullPath (.below (render root)) (render path))
          (cachingFullPath (.below (render root)) (render newpath))
        = .error err)
    : perform os (.below (render root)) w (.rename path newpath)
      = .ok ({ code := -err.val }, w) := by
  have failed : ¬ -err.val = 0 := neg_errno_ne_zero err
  rw [perform, cachingRename, cachingRenameAt, if_neg (mt referingLogfile_render.mp notLog)]
  simp only [called, Except.map, Answer.number, if_neg failed]

theorem perform_rename_ok {t' : FileTree} (notLog : path ≠ [logName])
    (called
      : renameIn os w.tree (cachingFullPath (.below (render root)) (render path))
          (cachingFullPath (.below (render root)) (render newpath))
        = .ok t')
    : perform os (.below (render root)) w (.rename path newpath)
      = .ok ({ code := 0 }, {
        w with
        cacheManager := w.cacheManager.updatePaths (render path) (render newpath)
        tree := t'
      }) := by
  rw [perform, cachingRename, cachingRenameAt, if_neg (mt referingLogfile_render.mp notLog)]
  simp only [called, Except.map, Answer.number, if_true, Except.toOption, Option.getD_some]

/-- A rename moves things in the tree and corrects the paths in the cache, or does nothing
because it is of the log, fails in the tree or is refused.
-/
inductive RenameResult (os : OperatingSystem) (root path newpath : Location) (w w' : World Count)
    : ℤ → Prop
  | done (notLog : path ≠ [logName]) (fits : Fits root path) (newFits : Fits root newpath)
      (renamed : w.tree.rename sameInode (root ++ path) (root ++ newpath) = .ok w'.tree)
      (cache : w'.cacheManager = w.cacheManager.updatePaths (render path) (render newpath))
      (descriptors : w'.descriptors = w.descriptors)
      (streams : w'.streams = w.streams)
      (permitted : os.renameRefused w.tree (root ++ path) (root ++ newpath) = none)
    : RenameResult os root path newpath w w' 0
  | failed (errno : Errno) (same : w' = w)
      (reason
        : path ≠ [logName]
          → Fits root path
          → Fits root newpath
          → os.renameRefused w.tree (root ++ path) (root ++ newpath) = none
          → ∀ t', w.tree.rename sameInode (root ++ path) (root ++ newpath) ≠ .ok t')
    : RenameResult os root path newpath w w' (-errno.val)

theorem perform_rename
    (performed
      : perform os (.below (render root)) w (.rename path newpath) = .ok (reply, w'))
    : RenameResult os root path newpath w w' reply.code := by
  rcases eq_or_ne path [logName] with rfl | notLog
  · cases perform_rename_log.symm.trans performed
    exact .failed ⟨enoent, by decide⟩ rfl (fun notLog => absurd rfl notLog)
  rcases called : renameIn os w.tree (cachingFullPath (.below (render root)) (render path))
    (cachingFullPath (.below (render root)) (render newpath)) with err | t'
  · cases (perform_rename_error notLog called).symm.trans performed
    refine .failed err rfl (fun _ fits newFits permitted t' renamed => ?_)
    cases called.symm.trans (renameIn_eq_ok_iff.mpr ⟨fits, newFits, renamed, permitted⟩)
  · cases (perform_rename_ok notLog called).symm.trans performed
    obtain ⟨fits, newFits, renamed, permitted⟩ := renameIn_eq_ok_iff.mp called
    exact .done notLog fits newFits renamed rfl rfl rfl permitted

-----------------------------------------------------------------------------------------
-- Reads and handles
-----------------------------------------------------------------------------------------

/-- A read changes nothing but the cache. -/
theorem perform_read {cfs : CfsState} {pread : Pread} {r : Request}
    (performed : perform os cfs w (.read pread r) = .ok (reply, w'))
    : ∃ ret last,
        cachingRead cfs pread w.cacheManager r = .ok (ret, last)
        ∧ w' = { w with cacheManager := last.cacheManager } := by
  rw [perform] at performed
  obtain ⟨⟨ret, last⟩, called, same⟩ := bind_eq_ok_iff.mp performed
  cases same
  exact ⟨ret, last, called, rfl⟩

omit [LinearOrder Count] [OrderTop Count] [One Count] [Add Count] [ToString Count] in
/-- A descriptor that is given out is not held. -/
theorem openAnswer_fresh {full : Path} {fd : ℤ} {node : FileNode}
    (answered : w.openAnswer os full = .ok (fd, node))
    : fd ∉ w.heldDescriptors ∧ 0 ≤ fd ∧ fd < 2 ^ 31 := by
  obtain ⟨found, _, permitted⟩ := bind_eq_ok_iff.mp answered
  split at permitted
  · cases permitted
  · obtain ⟨fresh, given, same⟩ := bind_eq_ok_iff.mp permitted
    cases same
    exact os.descriptorFresh _ _ given

omit [LinearOrder Count] [OrderTop Count] [One Count] [Add Count] [ToString Count] in
theorem opendirAnswer_fresh {full : Path} {dp : UInt64} {entries : List Dirent}
    (answered : w.opendirAnswer os full = .ok (dp, entries))
    : dp ∉ w.heldStreams := by
  obtain ⟨found, _, looked⟩ := bind_eq_ok_iff.mp answered
  obtain ⟨place, _, permitted⟩ := bind_eq_ok_iff.mp looked
  split at permitted
  · cases permitted
  split at permitted
  · cases permitted
  · obtain ⟨fresh, given, same⟩ := bind_eq_ok_iff.mp permitted
    cases same
    exact os.streamFresh _ _ given

variable {rootdir : Path} {fi : FuseFileInfo}

/-- An open stores a new descriptor and holds it, or fails and changes nothing. -/
inductive OpenResult (path : Location) (w w' : World Count) (reply : Reply) : Prop
  | opened (notLog : path ≠ [logName]) (code : reply.code = 0) (fd : ℤ) (node : FileNode)
      (fi : FuseFileInfo) (replied : reply.fi = some fi) (stored : fi.fh = .ofNat fd.toNat)
      (fresh : fd ∉ w.heldDescriptors) (nonneg : 0 ≤ fd) (small : fd < 2 ^ 31)
      (held : w' = { w with descriptors := (fd, node) :: w.descriptors })
  | failed (code : reply.code ≠ 0) (same : w' = w)

theorem perform_openFile
    (performed : perform os (.below rootdir) w (.openFile path fi) = .ok (reply, w'))
    : OpenResult path w w' reply := by
  rw [perform, cachingOpen, cachingOpenAt] at performed
  by_cases log : path = [logName]
  · rw [if_pos (referingLogfile_render.mpr log)] at performed
    cases performed
    exact .failed (by simp only [enonet]; decide) rfl
  · rw [if_neg (mt referingLogfile_render.mp log)] at performed
    simp only at performed
    split at performed
    · cases performed
      exact .failed (by simp only [eacces]; decide) rfl
    · unfold World.sysOpen at performed
      rcases answered : w.openAnswer os (cachingFullPath (.below rootdir) (render path))
        with err | ⟨fd, node⟩
      · rw [answered] at performed
        cases performed
        exact .failed (neg_errno_ne_zero err) rfl
      · rw [answered] at performed
        cases performed
        obtain ⟨fresh, nonneg, small⟩ := openAnswer_fresh answered
        exact .opened log rfl fd node _ rfl rfl fresh nonneg small rfl

/-- So does opening a directory. -/
inductive OpendirResult (path : Location) (w w' : World Count) (reply : Reply) : Prop
  | opened (notLog : path ≠ [logName]) (code : reply.code = 0) (dp : UInt64)
      (entries : List Dirent) (fi : FuseFileInfo) (replied : reply.fi = some fi)
      (stored : fi.fh = dp) (fresh : dp ∉ w.heldStreams)
      (held : w' = { w with streams := (dp, entries) :: w.streams })
  | failed (code : reply.code ≠ 0) (same : w' = w)

theorem perform_opendir
    (performed : perform os (.below rootdir) w (.opendir path fi) = .ok (reply, w'))
    : OpendirResult path w w' reply := by
  rw [perform, cachingOpendir, cachingOpendirAt] at performed
  by_cases log : path = [logName]
  · rw [if_pos (referingLogfile_render.mpr log)] at performed
    cases performed
    exact .failed (referingLogfile_render.mpr log) rfl
  · rw [if_neg (mt referingLogfile_render.mp log)] at performed
    unfold World.opendir at performed
    rcases answered : w.opendirAnswer os (cachingFullPath (.below rootdir) (render path))
      with err | ⟨dp, entries⟩
    · rw [answered] at performed
      cases performed
      exact .failed (neg_errno_ne_zero err) rfl
    · rw [answered] at performed
      cases performed
      exact .opened log rfl dp entries _ rfl rfl (opendirAnswer_fresh answered) rfl

theorem releasePath_eq_iff {path : Option Location}
    : releasePath path = render [logName] ↔ path = some [logName] := by
  cases path with
  | none => exact iff_of_false (by decide) (Option.some_ne_none _).symm
  | some path => rw [releasePath, render_injective.eq_iff, Option.some_inj]

/-- A release closes its descriptor unless the path is the log's. -/
theorem perform_release {path : Option Location}
    (performed : perform os (.below rootdir) w (.release path fi) = .ok (reply, w'))
    : w' = if path = some [logName] then w else (World.close (toInt fi.fh.toNat) w).2 := by
  rw [perform, cachingRelease, cachingReleaseAt] at performed
  by_cases log : path = some [logName]
  · rw [if_pos (referingLogfile_iff.mpr (releasePath_eq_iff.mpr log))] at performed
    cases performed
    rw [if_pos log]
  · rw [if_neg (mt (releasePath_eq_iff.mp ∘ referingLogfile_iff.mp) log)] at performed
    rw [if_neg log]
    rcases closed : World.close (toInt fi.fh.toNat) w with ⟨_ | _, after⟩ <;>
    · rw [closed] at performed
      cases performed
      rfl

/-- The release of a directory compares the path without the root directory. -/
theorem perform_releasedir {path : Option Location}
    (performed : perform os (.below rootdir) w (.releasedir path fi) = .ok (reply, w'))
    : w' = if releasePath path = rootdir ++ render [logName] then w
        else (World.closedir fi.fh w).2 := by
  have compared : referingLogfile (.below rootdir) (releasePath path) ≠ 0
      ↔ releasePath path = rootdir ++ render [logName] := by
    rw [referingLogfile, logfileFullPath_below]
    simp [enoent]
  rw [perform, cachingReleasedir] at performed
  by_cases log : releasePath path = rootdir ++ render [logName]
  · rw [if_pos (compared.mpr log)] at performed
    cases performed
    rw [if_pos log]
  · rw [if_neg (mt compared.mp log)] at performed
    rw [if_neg log]
    rcases closed : World.closedir fi.fh w with ⟨_ | _, after⟩ <;>
    · rw [closed] at performed
      cases performed
      rfl

omit [LinearOrder Count] [OrderTop Count] [One Count] [Add Count] [ToString Count] in
theorem close_tree (fd : ℤ) (w : World Count) : (World.close fd w).2.tree = w.tree := by
  unfold World.close
  split <;> rfl

omit [LinearOrder Count] [OrderTop Count] [One Count] [Add Count] [ToString Count] in
theorem closedir_tree (dp : UInt64) (w : World Count) : (World.closedir dp w).2.tree = w.tree := by
  unfold World.closedir
  split <;> rfl

/-- Only renaming changes the tree; by cases on the operation. -/
theorem perform_tree {op : ClientOp}
    (performed : perform os (.below rootdir) w op = .ok (reply, w'))
    (other : ∀ path newpath, op ≠ .rename path newpath)
    : w'.tree = w.tree := by
  cases op with
  | getattr | fgetattr | access | flush | ioctl =>
      cases performed
      rfl
  | openFile =>
      cases perform_openFile performed with
      | opened _ _ _ _ _ _ _ _ _ _ held => rw [held]
      | failed _ same => rw [same]
  | opendir =>
      cases perform_opendir performed with
      | opened _ _ _ _ _ _ _ _ held => rw [held]
      | failed _ same => rw [same]
  | read pread r =>
      obtain ⟨_, last, _, rfl⟩ := perform_read performed
      rfl
  | release =>
      rw [perform_release performed]
      split
      · rfl
      · exact close_tree _ w
  | releasedir =>
      rw [perform_releasedir performed]
      split
      · rfl
      · exact closedir_tree _ w
  | readdir =>
      rw [perform] at performed
      split at performed
      · cases performed
      · cases performed
        rfl
  | rename path newpath => exact absurd rfl (other path newpath)

end CachingFileSystem.FileSystem
