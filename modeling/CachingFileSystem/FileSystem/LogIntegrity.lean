import CachingFileSystem.FileSystem.RenamedTrees

/-! Which operations take the name of the log away from it: renaming compares its old path with
the log's, but not its new one.
-/

namespace CachingFileSystem.FileSystem

open CachingFileSystem.BufferCache
open CachingFileSystem.Containers
open CachingFileSystem.DirectoryTree
open CachingFileSystem.Transitions

/-- The entry of the log denotes the file with this identity. -/
def LogAt (root : Location) (log : UInt64 × UInt64) (t : FileTree) : Prop :=
  ∃ file, (root ++ [logName], .file file) ∈ t.entries ∧ file.identity = log

/-- A rename of another file to the name of the log, with a path that is not too long, which the
system does not refuse.
-/
def TakesLogName (os : OperatingSystem) (root : Location) (log : UInt64 × UInt64) (t : FileTree)
    : ClientOp → Prop
  | .rename path newpath =>
      newpath = [logName]
      ∧ Fits root path
      ∧ os.renameRefused t (root ++ path) (root ++ newpath) = none
      ∧ ∃ file, (root ++ path, .file file) ∈ t.entries ∧ file.identity ≠ log
  | _ => False

variable {os : OperatingSystem} {root path newpath : Location} {log : UInt64 × UInt64}
  {t t' : FileTree}

/-- A rename moves neither the log nor what takes another name. -/
theorem RenamedBelow.logAt (moved : RenamedBelow root path newpath t t') (h : LogAt root log t)
    (notLog : path ≠ [logName]) (newNotLog : newpath ≠ [logName])
    : LogAt root log t' := by
  obtain ⟨file, member, identity⟩ := h
  refine ⟨file, (moved.mem_iff _ _).mpr ⟨[logName], member, ?_, Tree.relocate_outside ?_⟩, identity⟩
  · exact fun leading => newNotLog (prefix_singleton moved.target leading)
  · exact fun leading => notLog (prefix_singleton moved.source leading)

/-- The log keeps its name in a rename of something else unless that takes the name. -/
theorem LogAt.renamed_iff (h : LogAt root log t) (notLog : path ≠ [logName])
    (fits : Fits root path)
    (permitted : os.renameRefused t (root ++ path) (root ++ newpath) = none)
    (renamed : t.rename sameInode (root ++ path) (root ++ newpath) = .ok t')
    : LogAt root log t' ↔ ¬ TakesLogName os root log t (.rename path newpath) := by
  have here := h
  obtain ⟨file, member, identity⟩ := here
  rcases Tree.rename_cases renamed with ⟨kept, rfl⟩ | moved
  · refine iff_of_true h (fun takes => ?_)
    obtain ⟨rfl, _, _, other, otherMember, different⟩ := takes
    rcases kept with same | linked
    · exact notLog (List.append_cancel_left same)
    · rw [Tree.sameFile, Tree.get?_eq_some_iff.mpr otherMember,
        Tree.get?_eq_some_iff.mpr member] at linked
      exact different ((of_decide_eq_true linked).trans identity)
  · have movedBelow := Renamed.below moved
    rcases eq_or_ne newpath [logName] with rfl | newNotLog
    · obtain ⟨other, otherMember, different⟩ := moved.replacedFile file member
      have differs : other.identity ≠ log := identity ▸ of_decide_eq_false different
      have replaced : (root ++ [logName], .file other) ∈ t'.entries :=
        (movedBelow.mem_iff _ _).mpr
          ⟨path, otherMember, fun leading => moved.movable.outside
            ((List.prefix_append_right_inj root).mpr leading), Tree.relocate_source⟩
      refine iff_of_false (fun still => ?_)
        (not_not.mpr ⟨rfl, fits, permitted, other, otherMember, differs⟩)
      obtain ⟨last, lastMember, lastIdentity⟩ := still
      cases Tree.unique lastMember replaced
      exact differs lastIdentity
    · exact iff_of_true (movedBelow.logAt h notLog newNotLog) (fun takes => newNotLog takes.1)

variable {Count : Type} [LinearOrder Count] [OrderTop Count] [One Count] [Add Count]
  [ToString Count] {w w' : World Count} {op : ClientOp} {reply : Reply}

/-- Every other operation leaves the name to the log; the rename that takes it does not fail. -/
theorem LogAt.step_iff (h : LogAt root log w.tree) (logFits : Fits root [logName])
    (performed : perform os (.below (render root)) w op = .ok (reply, w'))
    : LogAt root log w'.tree ↔ ¬ TakesLogName os root log w.tree op := by
  rcases Classical.em (∃ path newpath, op = .rename path newpath) with isRename | other
  · obtain ⟨path, newpath, rfl⟩ := isRename
    have result := perform_rename performed
    generalize reply.code = code at result
    cases result with
    | done notLog fits _ renamed _ _ _ permitted =>
        exact h.renamed_iff notLog fits permitted renamed
    | failed errno same reason =>
        subst same
        refine iff_of_true h (fun takes => ?_)
        obtain ⟨rfl, fits, permitted, file, member, different⟩ := takes
        obtain ⟨log, logMember, identity⟩ := h
        have notLog : path ≠ [logName] := by
          intro same
          subst same
          cases Tree.unique member logMember
          exact different identity
        have unlinked : sameInode file log = false :=
          decide_eq_false (fun same => different (same.trans identity))
        obtain ⟨t', renamed⟩ := Tree.exists_rename_file member logMember unlinked
          (fun same => notLog (List.append_cancel_left same))
        exact reason notLog fits logFits permitted t' renamed
  · have notRename : ∀ path newpath, op ≠ .rename path newpath :=
      fun path newpath same => other ⟨path, newpath, same⟩
    rw [perform_tree performed notRename]
    refine iff_of_true h (fun takes => ?_)
    cases op with
    | rename path newpath => exact notRename path newpath rfl
    | _ => exact takes

/-- Any operations, in worlds where the log can be opened by its full path, as by `main`. -/
def clientSystem (os : OperatingSystem) (root : Location) (log : UInt64 × UInt64)
    : System (World Count) ClientOp where
  start := fun w =>
    ∃ file,
      lookup w.tree (CfsState.below (render root)).logfileFullPath = .ok (.file file)
      ∧ file.identity = log
  step := fun w op w' => ∃ reply, perform os (.below (render root)) w op = .ok (reply, w')

theorem logfileFullPath_eq
    : (CfsState.below (render root)).logfileFullPath
      = cachingFullPath (.below (render root)) (render [logName]) :=
  logfileFullPath_below _

/-- In runs without a rename of another file to the name of the log, the entry of the log
denotes the log file; in each state reached the next operation leaves it so exactly when it is
no such rename.
-/
theorem run_logAt {labels : List ClientOp}
    (run
      : ((clientSystem os root log).restrict (fun w op => ¬ TakesLogName os root log w.tree op)).Run
          labels w)
    : LogAt root log w.tree
      ∧ ∀ op reply w',
          perform os (.below (render root)) w op = .ok (reply, w')
          → (LogAt root log w'.tree ↔ ¬ TakesLogName os root log w.tree op) := by
  have kept : Fits root [logName] ∧ LogAt root log w.tree := by
    refine System.Run.invariant (fun _ w => Fits root [logName] ∧ LogAt root log w.tree) ?_ ?_ run
    · intro w start
      obtain ⟨file, opened, identity⟩ := start
      rw [logfileFullPath_eq] at opened
      obtain ⟨fits, member⟩ := lookup_eq_ok_iff.mp opened
      exact ⟨fits, file, member, identity⟩
    · intro labels op w w' before next
      obtain ⟨fits, here⟩ := before
      obtain ⟨allowed, reply, performed⟩ := next
      exact ⟨fits, (here.step_iff fits performed).mpr allowed⟩
  exact ⟨kept.2, fun op reply w' performed => kept.2.step_iff kept.1 performed⟩

theorem loggedWorld_start
    : (clientSystem permissive [] logFile.identity).start loggedWorld := by
  refine ⟨logFile, ?_, rfl⟩
  rw [logfileFullPath_eq]
  exact lookup_eq_ok_iff.mpr ⟨by decide, by decide⟩

/-- The log itself is not renamed, and another file is renamed to another name. -/
theorem run_logAt_otherName
    : LogAt [] logFile.identity
        (afterAll permissive (.below (render [])) loggedWorld
          [.rename [logName] [nameB], .rename [nameA] [nameB]]).tree := by
  have first : code? permissive (.below (render [])) loggedWorld
      (.rename [logName] [nameB]) = some (-2) := by
    decide +kernel
  have second : code? permissive (.below (render []))
      (after permissive (.below (render [])) loggedWorld (.rename [logName] [nameB]))
      (.rename [nameA] [nameB]) = some 0 := by
    decide +kernel
  obtain ⟨_, first, _⟩ := performed_of_code first
  obtain ⟨_, second, _⟩ := performed_of_code second
  have otherName (t : FileTree) (path : Location)
      : ¬ TakesLogName permissive [] logFile.identity t (.rename path [nameB]) :=
    fun takes => absurd takes.1 (by decide)
  exact (run_logAt (.step (.step (.start loggedWorld_start) ⟨otherName _ _, _, first⟩)
    ⟨otherName _ _, _, second⟩)).1

/-- The file `/a` replaces the log. -/
theorem renamed_over_log
    : (clientSystem permissive [] logFile.identity).Run [.rename [nameA] [logName]]
        (after permissive (.below (render [])) loggedWorld (.rename [nameA] [logName]))
      ∧ ¬ LogAt [] logFile.identity
          (after permissive (.below (render [])) loggedWorld (.rename [nameA] [logName])).tree := by
  have code : code? permissive (.below (render [])) loggedWorld
      (.rename [nameA] [logName]) = some 0 := by
    decide +kernel
  obtain ⟨reply, performed, _⟩ := performed_of_code code
  refine ⟨.step (.start loggedWorld_start) ⟨reply, performed⟩, ?_⟩
  intro still
  obtain ⟨file, member, identity⟩ := still
  have replaced : ([] ++ [logName], .file file7)
      ∈ (after permissive (.below (render [])) loggedWorld
          (.rename [nameA] [logName])).tree.entries := by
    decide +kernel
  cases Tree.unique member replaced
  exact absurd identity (by decide)

end CachingFileSystem.FileSystem
