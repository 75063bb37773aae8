import CachingFileSystem.DirectoryTree.Absence
import CachingFileSystem.FileSystem.Probes
import CachingFileSystem.FileSystem.RenamedTrees

/-! What tells the log file from an absent one. The same operations run on two machines whose
trees differ in the entry of the log only.
-/

namespace CachingFileSystem.FileSystem

open CachingFileSystem.BufferCache
open CachingFileSystem.Containers
open CachingFileSystem.DirectoryTree
open CachingFileSystem.Transitions

variable {Count : Type} [LinearOrder Count] [OrderTop Count] [One Count] [Add Count]
  [ToString Count]

/-- Two machines, the second of which has no log file. -/
structure Hidden (root : Location) (w w' : World Count) : Prop where
  lacks : Tree.Lacks (root ++ [logName]) w.tree w'.tree
  cacheManager : w'.cacheManager = w.cacheManager
  descriptors : w'.descriptors = w.descriptors
  streams : w'.streams = w.streams

/-- A path properly below the name of the log. -/
def BelowLog (path : Location) : Prop := ∃ name rest, path = logName :: name :: rest

/-- The calls that show that the log exists. Opening it fails with another error than opening
an absent file; below it, paths that are not too long meet a file where there is nothing.
-/
def Exposes (root : Location) (t : FileTree) : Probe → Prop
  | .getattr path | .access path _ | .list path _ => BelowLog path ∧ Fits root path
  | .openFile path _ _ => path = [logName] ∨ (BelowLog path ∧ Fits root path)
  | .rename path newpath _ =>
      Fits root path
      ∧ Fits root newpath
      ∧ (BelowLog path
          ∨ (path ≠ [logName]
              ∧ BelowLog newpath
              ∧ t.directoryAt (root ++ path).dropLast = .ok ()))

/-- The log is answered for like an absent file. -/
def AnswersAbsent (op : Probe) (out : ℤ × List Dirent) : Prop :=
  op.path = [logName] → out.1 = -enoent

variable {os : OperatingSystem} {root path newpath : Location} {w w' : World Count}
  {fi : FuseFileInfo}

/-- The place of the log is at the beginning of its own path and of those below it. -/
theorem log_prefix_iff : root ++ [logName] <+: root ++ path ↔ path = [logName] ∨ BelowLog path := by
  rw [List.prefix_append_right_inj]
  constructor
  · intro leading
    obtain ⟨rest, rfl⟩ := leading
    cases rest with
    | nil => exact Or.inl rfl
    | cons name rest => exact Or.inr ⟨name, rest, rfl⟩
  · intro below
    rcases below with rfl | ⟨name, rest, rfl⟩
    · exact List.prefix_refl _
    · exact ⟨name :: rest, rfl⟩

-----------------------------------------------------------------------------------------
-- Lookups
-----------------------------------------------------------------------------------------

omit [LinearOrder Count] [OrderTop Count] [One Count] [Add Count] [ToString Count] in
/-- Elsewhere both machines find the same. -/
theorem Hidden.lookup_eq (h : Hidden root w w') (notLog : path ≠ [logName])
    (covered : ¬ (BelowLog path ∧ Fits root path))
    : lookup w'.tree (cachingFullPath (.below (render root)) (render path))
      = lookup w.tree (cachingFullPath (.below (render root)) (render path)) := by
  rw [lookup_full, lookup_full]
  split
  · next fits =>
      have apart : ¬ root ++ [logName] <+: root ++ path := fun leading =>
        (log_prefix_iff.mp leading).elim notLog (fun below => covered ⟨below, fits⟩)
      rw [h.lacks.resolve_eq apart]
  · rfl

omit [LinearOrder Count] [OrderTop Count] [One Count] [Add Count] [ToString Count] in
/-- Below the log they find nothing, for different reasons. -/
theorem Hidden.lookup_below (h : Hidden root w w') (below : BelowLog path) (fits : Fits root path)
    : lookup w.tree (cachingFullPath (.below (render root)) (render path))
        = .error (errno .notDirectory)
      ∧ lookup w'.tree (cachingFullPath (.below (render root)) (render path))
        = .error (errno .noEntry) := by
  obtain ⟨name, rest, rfl⟩ := below
  have place : root ++ logName :: name :: rest = root ++ [logName] ++ name :: rest :=
    List.append_cons _ _ _
  obtain ⟨here, there⟩ := h.lacks.resolve_beyond name rest
  rw [lookup_full, lookup_full, if_pos fits, if_pos fits, place, here, there]
  exact ⟨rfl, rfl⟩

-----------------------------------------------------------------------------------------
-- Listings
-----------------------------------------------------------------------------------------

/-- Both machines list the same, since the root is listed without the log. -/
theorem listing_eq {t t' : FileTree} (h : Tree.Lacks (root ++ [logName]) t t')
    (apart : ¬ root ++ [logName] <+: root ++ path) (dir : Directory)
    : (direntsOf t' (root ++ path) dir).filter (showsEntry (render path))
      = (direntsOf t (root ++ path) dir).filter (showsEntry (render path)) := by
  have parent : (root ++ path).dropLast ≠ root ++ [logName] := by
    intro same
    exact apart (same ▸ List.dropLast_prefix _)
  have children
      : ((t'.children (root ++ path)).map (fun child => (⟨inode child.2, child.1.chars⟩ : Dirent))
          ).filter (showsEntry (render path))
        = ((t.children (root ++ path)).map (fun child => (⟨inode child.2, child.1.chars⟩ : Dirent))
          ).filter (showsEntry (render path)) := by
    rw [h.children_eq, List.filter_map, List.filter_map, List.filter_filter]
    refine congrArg (List.map _) (List.filter_congr (fun child _ => ?_))
    rcases eq_or_ne (root ++ path ++ [child.1]) (root ++ [logName]) with log | other
    · -- only the log is left out, which the listing of the root does not show
      rw [List.append_assoc] at log
      have split := List.append_cancel_left log
      rw [← List.nil_append [logName]] at split
      obtain ⟨rfl, name⟩ := List.append_inj' split rfl
      simp [showsEntry, List.singleton_inj.mp name, logName, render]
    · rw [decide_eq_true other, Bool.and_true]
  simp only [direntsOf, h.get?_eq parent, List.filter_cons, children]

-----------------------------------------------------------------------------------------
-- Probes of other places
-----------------------------------------------------------------------------------------

omit [LinearOrder Count] [OrderTop Count] [One Count] [Add Count] [ToString Count] in
theorem Hidden.exists_tree (h : Hidden root w w')
    : ∃ t', w' = { w with tree := t' } ∧ Tree.Lacks (root ++ [logName]) w.tree t' := by
  obtain ⟨t', cacheManager, descriptors, streams⟩ := w'
  obtain ⟨lacks, rfl, rfl, rfl⟩ := h
  exact ⟨t', rfl, lacks⟩

omit [LinearOrder Count] [OrderTop Count] [One Count] [Add Count] [ToString Count] in
/-- Both machines open a directory, or fail alike. -/
theorem opendirAnswers {t' : FileTree}
    (equal
      : lookup t' (cachingFullPath (.below (render root)) (render path))
        = lookup w.tree (cachingFullPath (.below (render root)) (render path)))
    : (∃ err,
          w.opendirAnswer os (cachingFullPath (.below (render root)) (render path)) = .error err
          ∧ World.opendirAnswer os { w with tree := t' }
              (cachingFullPath (.below (render root)) (render path)) = .error err)
      ∨ ∃ dp dir,
          (root ++ path, .directory dir) ∈ w.tree.entries
          ∧ w.opendirAnswer os (cachingFullPath (.below (render root)) (render path))
            = .ok (dp, direntsOf w.tree (root ++ path) dir)
          ∧ World.opendirAnswer os { w with tree := t' }
              (cachingFullPath (.below (render root)) (render path))
            = .ok (dp, direntsOf t' (root ++ path) dir) := by
  rcases found : lookup w.tree (cachingFullPath (.below (render root)) (render path))
    with err | node
  · refine Or.inl ⟨err, ?_, ?_⟩ <;>
      simp only [World.opendirAnswer, equal, found, bind, Except.bind]
  obtain ⟨fits, member⟩ := lookup_eq_ok_iff.mp found
  have place : placeOf (cachingFullPath (.below (render root)) (render path))
      = .ok (root ++ path) := by
    rw [placeOf_full, if_pos fits]
  rcases node with file | dir
  · refine Or.inl ⟨errno .notDirectory, ?_, ?_⟩ <;>
      simp only [World.opendirAnswer, equal, found, place, bind, Except.bind]
  rcases refused : os.refusedOpendir dir with _ | err
  · have unchanged : World.heldStreams { w with tree := t' } = w.heldStreams := rfl
    rcases given : os.newStream w.heldStreams with err | dp
    · refine Or.inl ⟨err, ?_, ?_⟩ <;>
        simp only [World.opendirAnswer, equal, found, place, refused, unchanged, given, bind,
          Except.bind]
    · refine Or.inr ⟨dp, dir, member, ?_, ?_⟩ <;>
        simp only [World.opendirAnswer, equal, found, place, refused, unchanged, given, bind,
          Except.bind]
  · refine Or.inl ⟨err, ?_, ?_⟩ <;>
      simp only [World.opendirAnswer, equal, found, place, refused, bind, Except.bind]

/-- Both machines answer a probe alike, and differ in the log only afterwards. -/
def AnswersAlike (os : OperatingSystem) (root : Location) (w w' : World Count) (op : Probe)
    : Prop :=
  ∃ out v v',
    probe os (.below (render root)) w op = .ok (out, v)
    ∧ probe os (.below (render root)) w' op = .ok (out, v')
    ∧ Hidden root v v'

/-- They do where they find the same. -/
theorem Hidden.probe_same {op : Probe} (h : Hidden root w w') (notLog : op.path ≠ [logName])
    (apart : ¬ (BelowLog op.path ∧ Fits root op.path))
    (notRename : ∀ path newpath other, op ≠ .rename path newpath other)
    : AnswersAlike os root w w' op := by
  have equal := h.lookup_eq notLog apart
  obtain ⟨t', rfl, lacks⟩ := h.exists_tree
  cases op with
  | getattr path =>
      simp only [Probe.path] at notLog equal
      refine ⟨_, _, _, probe_getattr notLog, ?_, h⟩
      rw [probe_getattr notLog, equal]
  | access path mask =>
      simp only [Probe.path] at notLog equal
      refine ⟨_, _, _, probe_access notLog, ?_, h⟩
      rw [probe_access notLog]
      simp only [World.access, equal]
  | openFile path fi readOnly =>
      simp only [Probe.path] at notLog equal
      have answers : World.openAnswer os { w with tree := t' }
            (cachingFullPath (.below (render root)) (render path))
          = w.openAnswer os (cachingFullPath (.below (render root)) (render path)) := by
        simp only [World.openAnswer, equal, World.heldDescriptors]
      refine ⟨_, _, _, probe_openFile notLog, (probe_openFile notLog).trans (by rw [answers]), ?_⟩
      cases w.openAnswer os (cachingFullPath (.below (render root)) (render path)) with
      | ok opened => exact ⟨lacks, rfl, rfl, rfl⟩
      | error err => exact h
  | list path fi =>
      simp only [Probe.path] at notLog equal
      rcases @opendirAnswers Count os root path w t' equal with ⟨err, failed, failedToo⟩ | opened
      · refine ⟨(-err.val, []), w, _, ?_, ?_, h⟩
        · rw [probe_list notLog, failed]
        · rw [probe_list notLog, failedToo]
      · obtain ⟨dp, dir, member, opened, openedToo⟩ := opened
        have covered : ¬ root ++ [logName] <+: root ++ path := by
          intro leading
          obtain ⟨leaf, log⟩ := lacks.leaf
          rw [Tree.eq_of_below_file log member leading] at member
          cases Tree.unique log member
        have listed := @probe_list Count _ _ _ _ _ os root path w fi notLog
        have listedToo := @probe_list Count _ _ _ _ _ os root path { w with tree := t' } fi notLog
        rw [opened] at listed
        rw [openedToo] at listedToo
        simp only [listing_eq lacks covered] at listedToo
        refine ⟨_, _, _, listed, listedToo, ⟨lacks, rfl, rfl, ?_⟩⟩
        simp only [List.map_cons, if_true]
  | rename path newpath other => exact absurd rfl (notRename path newpath other)

-----------------------------------------------------------------------------------------
-- Renames
-----------------------------------------------------------------------------------------

/-- A rename that fails alike is answered alike. -/
theorem Hidden.rename_failed (h : Hidden root w w') (notLog : path ≠ [logName])
    (newNotLog : newpath ≠ [logName]) {err : Errno}
    (failed
      : renameIn os w.tree (cachingFullPath (.below (render root)) (render path))
          (cachingFullPath (.below (render root)) (render newpath)) = .error err)
    (failedToo
      : renameIn os w'.tree (cachingFullPath (.below (render root)) (render path))
          (cachingFullPath (.below (render root)) (render newpath)) = .error err)
    : AnswersAlike os root w w' (.rename path newpath newNotLog) := by
  refine ⟨(-err.val, []), w, w', ?_, ?_, h⟩
  · simp only [probe, perform_rename_error notLog failed, ok_bind]
  · simp only [probe, perform_rename_error notLog failedToo, ok_bind]

omit [LinearOrder Count] [OrderTop Count] [One Count] [Add Count] [ToString Count] in
/-- The system sees the same objects at other places, and refuses a rename of them alike. -/
theorem Hidden.renameRefused_eq (h : Hidden root w w') {place newPlace : Location}
    (apart : ¬ root ++ [logName] <+: place) (newApart : ¬ root ++ [logName] <+: newPlace)
    : os.renameRefused w'.tree place newPlace = os.renameRefused w.tree place newPlace := by
  have same {there : Location} (apart : ¬ root ++ [logName] <+: there)
      : w'.tree.get? there = w.tree.get? there :=
    h.lacks.get?_eq (fun hidden => apart (hidden ▸ List.prefix_refl _))
  have above {there : Location} (apart : ¬ root ++ [logName] <+: there)
      : ¬ root ++ [logName] <+: there.dropLast :=
    fun leading => apart (leading.trans (List.dropLast_prefix there))
  simp only [OperatingSystem.renameRefused, same apart, same newApart, same (above apart),
    same (above newApart)]

omit [LinearOrder Count] [OrderTop Count] [One Count] [Add Count] [ToString Count] in
/-- A rename from and to other places fails alike in both trees, or does the same in both. -/
theorem Hidden.renameIn_cases (h : Hidden root w w') (notLog : path ≠ [logName])
    (apart : ¬ BelowLog path) (newNotLog : newpath ≠ [logName]) (newApart : ¬ BelowLog newpath)
    : (∃ err,
          renameIn os w.tree (cachingFullPath (.below (render root)) (render path))
            (cachingFullPath (.below (render root)) (render newpath)) = .error err
          ∧ renameIn os w'.tree (cachingFullPath (.below (render root)) (render path))
            (cachingFullPath (.below (render root)) (render newpath)) = .error err)
      ∨ ∃ t t',
          renameIn os w.tree (cachingFullPath (.below (render root)) (render path))
            (cachingFullPath (.below (render root)) (render newpath)) = .ok t
          ∧ renameIn os w'.tree (cachingFullPath (.below (render root)) (render path))
            (cachingFullPath (.below (render root)) (render newpath)) = .ok t'
          ∧ Tree.Lacks (root ++ [logName]) t t' := by
  have sourceApart : ¬ root ++ [logName] <+: root ++ path := fun leading =>
    (log_prefix_iff.mp leading).elim notLog apart
  have targetApart : ¬ root ++ [logName] <+: root ++ newpath := fun leading =>
    (log_prefix_iff.mp leading).elim newNotLog newApart
  -- what is at or above the log is the root or above it, and so above the other place
  have above {place other : Location} (notLog : place ≠ [logName])
      (leading : root ++ place <+: root ++ [logName]) : root ++ place <+: root ++ other := by
    rw [List.prefix_append_right_inj] at leading ⊢
    rcases eq_or_ne place [] with rfl | inner
    · exact List.nil_prefix
    · exact absurd (prefix_singleton inner leading) notLog
  have outcome := @Tree.Lacks.rename_cases _ _ _ _ _ _ _ sameInode h.lacks sourceApart targetApart
    (above newNotLog) (above notLog)
  rw [renameIn_full, renameIn_full]
  split
  · rcases outcome with ⟨err, failed, failedToo⟩ | ⟨t, t', renamed, renamedToo, lacks⟩
    · rw [failed, failedToo]
      exact Or.inl ⟨_, rfl, rfl⟩
    · rw [renamed, renamedToo]
      simp only [h.renameRefused_eq sourceApart targetApart]
      rcases os.renameRefused w.tree (root ++ path) (root ++ newpath) with _ | err
      · exact Or.inr ⟨t, t', rfl, rfl, lacks⟩
      · exact Or.inl ⟨err, rfl, rfl⟩
  · exact Or.inl ⟨_, rfl, rfl⟩

/-- So it is answered alike. -/
theorem Hidden.rename_same (h : Hidden root w w') (notLog : path ≠ [logName])
    (apart : ¬ BelowLog path) (newNotLog : newpath ≠ [logName]) (newApart : ¬ BelowLog newpath)
    : AnswersAlike os root w w' (.rename path newpath newNotLog) := by
  rcases h.renameIn_cases notLog apart newNotLog newApart with
    ⟨err, failed, failedToo⟩ | ⟨t, t', renamed, renamedToo, lacks⟩
  · exact h.rename_failed notLog newNotLog failed failedToo
  · refine ⟨(0, []), {
        w with
        cacheManager := w.cacheManager.updatePaths (render path) (render newpath)
        tree := t
      }, {
        w' with
        cacheManager := w'.cacheManager.updatePaths (render path) (render newpath)
        tree := t'
      }, ?_, ?_, ⟨lacks, ?_, h.descriptors, h.streams⟩⟩
    · simp only [probe, perform_rename_ok notLog renamed, ok_bind]
    · simp only [probe, perform_rename_ok notLog renamedToo, ok_bind]
    · simp only [h.cacheManager]

/-- The directory of a place below the log is at or below the log as well. -/
theorem BelowLog.dropLast (below : BelowLog path)
    : root ++ [logName] <+: (root ++ path).dropLast := by
  obtain ⟨name, rest, rfl⟩ := below
  rw [List.dropLast_append_of_ne_nil (List.cons_ne_nil _ _), List.prefix_append_right_inj,
    List.dropLast_cons_of_ne_nil (List.cons_ne_nil _ _)]
  exact List.cons_prefix_cons.mpr ⟨rfl, List.nil_prefix⟩

/-- The directory of another place is not. -/
theorem not_log_prefix_dropLast (notLog : path ≠ [logName]) (apart : ¬ BelowLog path)
    : ¬ root ++ [logName] <+: (root ++ path).dropLast := fun leading =>
  (log_prefix_iff.mp (leading.trans (List.dropLast_prefix _))).elim notLog apart

omit [LinearOrder Count] [OrderTop Count] [One Count] [Add Count] [ToString Count] in
/-- A rename that has to go through the log fails on both machines, with different errors. -/
theorem Hidden.rename_exposed (h : Hidden root w w') (fits : Fits root path)
    (newFits : Fits root newpath)
    (below
      : BelowLog path
        ∨ (path ≠ [logName]
            ∧ BelowLog newpath
            ∧ w.tree.directoryAt (root ++ path).dropLast = .ok ()))
    : renameIn os w.tree (cachingFullPath (.below (render root)) (render path))
          (cachingFullPath (.below (render root)) (render newpath))
        = .error (errno .notDirectory)
      ∧ renameIn os w'.tree (cachingFullPath (.below (render root)) (render path))
          (cachingFullPath (.below (render root)) (render newpath))
        = .error (errno .noEntry) := by
  have failed : w.tree.rename sameInode (root ++ path) (root ++ newpath) = .error .notDirectory
      ∧ w'.tree.rename sameInode (root ++ path) (root ++ newpath) = .error .noEntry := by
    rcases Classical.em (BelowLog path) with inside | outside
    · exact h.lacks.rename_source_below inside.dropLast
    · obtain ⟨notLog, newInside, parent⟩ := below.resolve_left outside
      exact h.lacks.rename_target_below (not_log_prefix_dropLast notLog outside) parent
        newInside.dropLast
  rw [renameIn_full, renameIn_full, if_pos ⟨fits, newFits⟩, if_pos ⟨fits, newFits⟩, failed.1,
    failed.2]
  exact ⟨rfl, rfl⟩

/-- Any other rename has the same outcome on both machines. -/
theorem Hidden.rename_hidden (h : Hidden root w w') (newNotLog : newpath ≠ [logName])
    (notLog : path ≠ [logName])
    (hidden : ¬ Exposes root w.tree (.rename path newpath newNotLog))
    : AnswersAlike os root w w' (.rename path newpath newNotLog) := by
  rcases Classical.em (Fits root path ∧ Fits root newpath) with fits | long
  · have apart : ¬ BelowLog path := fun below => hidden ⟨fits.1, fits.2, Or.inl below⟩
    rcases Classical.em (BelowLog newpath) with below | newApart
    · -- the source is in no directory, which both machines notice first
      have outside := @not_log_prefix_dropLast root path notLog apart
      rcases parent : w.tree.directoryAt (root ++ path).dropLast with err | _
      · have parentToo := (h.lacks.directoryAt_eq outside).trans parent
        refine h.rename_failed notLog newNotLog (?_ : _ = Except.error (errno err)) ?_
        · rw [renameIn_full, if_pos fits, Tree.rename_source_error parent]
        · rw [renameIn_full, if_pos fits, Tree.rename_source_error parentToo]
      · exact absurd ⟨fits.1, fits.2, Or.inr ⟨notLog, below, parent⟩⟩ hidden
    · exact h.rename_same notLog apart newNotLog newApart
  · refine h.rename_failed notLog newNotLog (?_ : _ = Except.error enametoolong) ?_
    · rw [renameIn_full, if_neg long]
    · rw [renameIn_full, if_neg long]

-----------------------------------------------------------------------------------------
-- Sequences of probes
-----------------------------------------------------------------------------------------

/-- A probe that does not expose the log. -/
theorem Hidden.step_hidden (h : Hidden root w w') {op : Probe}
    (hidden : ¬ Exposes root w.tree op)
    : ∃ out v v',
        probe os (.below (render root)) w op = .ok (out, v)
        ∧ probe os (.below (render root)) w' op = .ok (out, v')
        ∧ Hidden root v v'
        ∧ AnswersAbsent op out := by
  rcases eq_or_ne op.path [logName] with log | notLog
  · refine ⟨(logCode op, []), w, w', probe_log log, probe_log log, h, fun _ => ?_⟩
    cases op with
    | openFile => exact absurd (Or.inl log) hidden
    | _ => rfl
  · have answers : AnswersAlike os root w w' op := by
      cases op with
      | rename path newpath other => exact h.rename_hidden other notLog hidden
      | openFile path fi readOnly =>
          refine h.probe_same notLog (fun below => hidden (Or.inr below)) ?_
          intro _ _ _ same
          cases same
      | getattr | access | list =>
          refine h.probe_same notLog hidden ?_
          intro _ _ _ same
          cases same
    obtain ⟨out, v, v', first, second, next⟩ := answers
    exact ⟨out, v, v', first, second, next, fun log => absurd log notLog⟩

/-- A path below the log that is looked up gives different errors. -/
theorem Hidden.lookup_exposed (h : Hidden root w w') {op : Probe}
    (below : BelowLog op.path ∧ Fits root op.path)
    (notRename : ∀ path newpath other, op ≠ .rename path newpath other)
    : probe os (.below (render root)) w op = .ok ((-(errno .notDirectory).val, []), w)
      ∧ probe os (.below (render root)) w' op = .ok ((-(errno .noEntry).val, []), w') := by
  have notLog : op.path ≠ [logName] := by
    obtain ⟨name, rest, split⟩ := below.1
    rw [split]
    intro same
    cases same
  obtain ⟨met, missing⟩ := h.lookup_below below.1 below.2
  exact ⟨probe_failed notLog notRename met, probe_failed notLog notRename missing⟩

/-- A probe that does. -/
theorem Hidden.step_exposed (h : Hidden root w w') {op : Probe}
    (exposed : Exposes root w.tree op) {out : ℤ × List Dirent} {v v' : World Count}
    (first : probe os (.below (render root)) w op = .ok (out, v))
    (second : probe os (.below (render root)) w' op = .ok (out, v'))
    : ¬ AnswersAbsent op out := by
  have different {err err' : Errno} (distinct : err.val ≠ err'.val)
      (one : probe os (.below (render root)) w op = .ok ((-err.val, []), w))
      (other : probe os (.below (render root)) w' op = .ok ((-err'.val, []), w'))
      : False := by
    cases first.symm.trans one
    have codes := congrArg Prod.fst (Prod.mk.inj (Except.ok.inj (second.symm.trans other))).1
    exact distinct (neg_injective codes)
  have looked (notRename : ∀ path newpath other, op ≠ .rename path newpath other)
      (below : BelowLog op.path ∧ Fits root op.path) : False := by
    obtain ⟨one, other⟩ := h.lookup_exposed below notRename
    exact different (by decide) one other
  cases op with
  | openFile path fi readOnly =>
      rcases exposed with log | below
      · intro absent
        cases first.symm.trans (probe_log log)
        have codes : -enonet = -enoent := absent log
        exact absurd codes (by decide)
      · refine (looked ?_ below).elim
        intro _ _ _ same
        cases same
  | rename path newpath newNotLog =>
      obtain ⟨fits, newFits, below⟩ := exposed
      have notLog : path ≠ [logName] := by
        rcases below with ⟨name, rest, rfl⟩ | ⟨notLog, _⟩
        · intro same
          cases same
        · exact notLog
      obtain ⟨failed, failedToo⟩ := @Hidden.rename_exposed _ os _ _ _ _ _ h fits newFits below
      refine (@different (errno .notDirectory) (errno .noEntry) (by decide) ?_ ?_).elim
      · simp only [probe, perform_rename_error notLog failed, ok_bind]
      · simp only [probe, perform_rename_error notLog failedToo, ok_bind]
  | getattr | access | list =>
      refine (looked ?_ exposed).elim
      intro _ _ _ same
      cases same

/-- Both machines return the same codes and listings, and answer for the log like for an absent
file.
-/
def Concealed (os : OperatingSystem) (root : Location) (w w' : World Count) (ops : List Probe)
    : Prop :=
  ∃ outs last last',
    runAll (probe os (.below (render root))) ops w = .ok (outs, last)
    ∧ runAll (probe os (.below (render root))) ops w' = .ok (outs, last')
    ∧ List.Forall₂ AnswersAbsent ops outs

/-- Two machines that differ in the entry of the log conceal it exactly in the sequences without
a probe that exposes it.
-/
theorem concealed_iff (h : Hidden root w w') (ops : List Probe)
    : Concealed os root w w' ops
      ↔ ∀ front op back,
          ops = front ++ op :: back
          → ∀ outs between,
              runAll (probe os (.below (render root))) front w = .ok (outs, between)
              → ¬ Exposes root between.tree op :=
  runAll_agree_iff (fun _ _ _ related hidden => related.step_hidden hidden)
    (fun _ _ _ related exposed _ _ _ first second => related.step_exposed exposed first second)
    h ops

/-- The tree without `/.filesystem.log`. -/
def unloggedTree : FileTree :=
  .ofEntries [([], .directory ⟨1, 2⟩), ([nameA], .file file7)] (by decide)

def unloggedWorld : World Int32 := { smallWorld with tree := unloggedTree }

theorem unloggedWorld_hidden : Hidden [] loggedWorld unloggedWorld where
  lacks := ⟨⟨logFile, by decide⟩, by decide⟩
  cacheManager := rfl
  descriptors := rfl
  streams := rfl

/-- Asking for the attributes of the log, listing the root, and renaming another file. -/
theorem concealed_listing
    : Concealed permissive [] loggedWorld unloggedWorld
        [.getattr [logName], .list [] readOnly, .rename [nameA] [nameB] (by decide)] := by
  have apart (path : Location) (short : path.length ≤ 1) : ¬ BelowLog path := by
    intro below
    obtain ⟨name, rest, rfl⟩ := below
    simp at short
  refine (concealed_iff unloggedWorld_hidden _).mpr ?_
  intro front op back split outs between _ exposed
  have member : op ∈ [.getattr [logName], .list [] readOnly,
      .rename [nameA] [nameB] (by decide)] := by
    rw [split]
    exact List.mem_append_right _ List.mem_cons_self
  simp only [List.mem_cons, List.not_mem_nil, or_false] at member
  rcases member with rfl | rfl | rfl
  · exact apart _ (by decide) exposed.1
  · exact apart _ (by decide) exposed.1
  · obtain ⟨_, _, below | ⟨_, below, _⟩⟩ := exposed
    · exact apart _ (by decide) below
    · exact apart _ (by decide) below

/-- Below the log a lookup fails with `ENOTDIR` where it otherwise fails with `ENOENT`, and
opening the log fails with `ENONET`.
-/
theorem log_distinguished
    : Hidden [] loggedWorld unloggedWorld
      ∧ ¬ Concealed permissive [] loggedWorld unloggedWorld [.getattr [logName, nameA]]
      ∧ ¬ Concealed permissive [] loggedWorld unloggedWorld [.openFile [logName] readOnly rfl] := by
  refine ⟨unloggedWorld_hidden, fun concealed => ?_, fun concealed => ?_⟩
  · obtain ⟨outs, last, last', ran, ran', _⟩ := concealed
    have met : (runAll (probe permissive (.below (render []))) [.getattr [logName, nameA]]
        loggedWorld).toOption.map Prod.fst = some [(-20, [])] := by
      decide +kernel
    have missing : (runAll (probe permissive (.below (render []))) [.getattr [logName, nameA]]
        unloggedWorld).toOption.map Prod.fst = some [(-2, [])] := by
      decide +kernel
    rw [ran] at met
    rw [ran'] at missing
    exact absurd (met.symm.trans missing) (by decide)
  · obtain ⟨outs, last, _, ran, _, absent⟩ := concealed
    have code : (runAll (probe permissive (.below (render []))) [.openFile [logName] readOnly rfl]
        loggedWorld).toOption.map Prod.fst = some [(-64, [])] := by
      decide +kernel
    rw [ran] at code
    cases code
    exact absurd ((List.forall₂_cons.mp absent).1 rfl) (by decide)

end CachingFileSystem.FileSystem
