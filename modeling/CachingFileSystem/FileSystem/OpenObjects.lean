import CachingFileSystem.FileSystem.Handles

/-! What is behind the handles of the process: which steps change it, and that it stays the object
that was opened until the handle is released, wherever that object is renamed to.
-/

namespace CachingFileSystem.FileSystem

open CachingFileSystem.BufferCache
open CachingFileSystem.Containers
open CachingFileSystem.DirectoryTree
open CachingFileSystem.Transitions

section Tables

variable {κ α : Type} [DecidableEq κ] {table : List (κ × α)} {key other : κ} {value : α}

/-- Removing another key leaves what a table has under a key; by induction on the table. -/
theorem lookup_filter_ne (apart : key ≠ other)
    : (table.filter (fun held => held.1 ≠ other)).lookup key = table.lookup key := by
  induction table with
  | nil => rfl
  | cons head rest ih =>
      rcases eq_or_ne head.1 other with same | different
      · rw [List.filter_cons_of_neg (by simp [same]), ih, List.lookup_cons, same,
          beq_eq_false_iff_ne.mpr apart]
      · rw [List.filter_cons_of_pos (by simp [different]), List.lookup_cons, List.lookup_cons, ih]

theorem mem_of_lookup (found : table.lookup key = some value) : (key, value) ∈ table := by
  obtain ⟨_, _, split, _⟩ := List.lookup_eq_some_iff.mp found
  rw [split]
  exact List.mem_append_right _ List.mem_cons_self

end Tables

-----------------------------------------------------------------------------------------
-- Descriptors
-----------------------------------------------------------------------------------------

variable {Count : Type}

/-- What an operation does to the descriptors: it opens what the tree has at a path, closes one or
leaves them alone.
-/
inductive DescriptorsAfter (root : Location) (w w' : World Count) : ClientOp → Prop
  | opened {path fi fd node} (found : (root ++ path, node) ∈ w.tree.entries)
      (fresh : fd ∉ w.heldDescriptors) (held : w'.descriptors = (fd, node) :: w.descriptors)
    : DescriptorsAfter root w w' (.openFile path fi)
  | closed {path fi}
      (rest : w'.descriptors = w.descriptors.filter (fun held => held.1 ≠ toInt fi.fh.toNat))
    : DescriptorsAfter root w w' (.release path fi)
  | kept {op} (same : w'.descriptors = w.descriptors) : DescriptorsAfter root w w' op

/-- The handle is not released. -/
def Unreleased (fh : UInt64) (op : ClientOp) : Prop :=
  ∀ path fi, op = .release path fi → toInt fi.fh.toNat ≠ toInt fh.toNat

/-- What is behind a handle that is not released stays there. -/
theorem DescriptorsAfter.lookup {root : Location} {w w' : World Count} {op : ClientOp}
    (after : DescriptorsAfter root w w' op) {fh : UInt64} {node : FileNode}
    (held : w.descriptors.lookup (toInt fh.toNat) = some node) (unreleased : Unreleased fh op)
    : w'.descriptors.lookup (toInt fh.toNat) = some node := by
  cases after with
  | @opened path fi fd _ _ fresh opened =>
      have known := List.mem_map_of_mem (f := Prod.fst) (mem_of_lookup held)
      have apart : toInt fh.toNat ≠ fd := by
        intro same
        simp only [same] at known
        exact fresh known
      rw [opened, List.lookup_cons, beq_eq_false_iff_ne.mpr apart]
      exact held
  | closed rest =>
      rw [rest, lookup_filter_ne (unreleased _ _ rfl).symm]
      exact held
  | kept same => rw [same, held]

variable [LinearOrder Count] [OrderTop Count] [One Count] [Add Count] [ToString Count]
  {os : OperatingSystem} {root path place : Location} {w w' : World Count} {op : ClientOp}
  {reply : Reply} {fi opened : FuseFileInfo}

/-- An open that succeeds finds its object in the tree. -/
theorem found_of_openFile
    (performed : perform os (.below (render root)) w (.openFile path fi) = .ok (reply, w'))
    (code : reply.code = 0) (replied : reply.fi = some opened)
    : ∃ node,
        (root ++ path, node) ∈ w.tree.entries
        ∧ toInt opened.fh.toNat ∉ w.heldDescriptors
        ∧ w'.descriptors = (toInt opened.fh.toNat, node) :: w.descriptors := by
  rw [perform, cachingOpen, cachingOpenAt] at performed
  by_cases log : path = [logName]
  · rw [if_pos (referingLogfile_render.mpr log)] at performed
    cases performed
    cases code
  rw [if_neg (mt referingLogfile_render.mp log)] at performed
  simp only at performed
  split at performed
  · cases performed
    cases code
  · unfold World.sysOpen at performed
    rcases answered : w.openAnswer os (cachingFullPath (.below (render root)) (render path))
      with err | ⟨fd, node⟩
    · rw [answered] at performed
      cases performed
      exact absurd code (neg_errno_ne_zero err)
    · rw [answered] at performed
      cases performed
      obtain rfl := Option.some.inj replied
      obtain ⟨fresh, nonneg, small⟩ := openAnswer_fresh answered
      obtain ⟨node', found, permitted⟩ := bind_eq_ok_iff.mp answered
      split at permitted
      · cases permitted
      · obtain ⟨_, _, same⟩ := bind_eq_ok_iff.mp permitted
        cases same
        refine ⟨node, (lookup_eq_ok_iff.mp found).2, ?_, ?_⟩
        · rw [toInt_ofNat nonneg small]
          exact fresh
        · rw [toInt_ofNat nonneg small]

/-- Descriptors change with opens and releases only; by cases on the operation. -/
theorem perform_descriptors
    (performed : perform os (.below (render root)) w op = .ok (reply, w'))
    : DescriptorsAfter root w w' op := by
  cases op with
  | getattr | fgetattr | access | flush | ioctl =>
      cases performed
      exact .kept rfl
  | openFile path fi =>
      cases perform_openFile performed with
      | failed _ same => exact .kept (by rw [same])
      | opened _ code _ _ opened replied _ _ _ _ _ =>
          obtain ⟨node, found, fresh, held⟩ := found_of_openFile performed code replied
          exact .opened found fresh held
  | opendir path fi =>
      cases perform_opendir performed with
      | failed _ same => exact .kept (by rw [same])
      | opened _ _ _ _ _ _ _ _ held => exact .kept (by rw [held])
  | read pread r =>
      obtain ⟨_, _, _, rfl⟩ := perform_read performed
      exact .kept rfl
  | release path fi =>
      rw [perform_release performed]
      split
      · exact .kept rfl
      · unfold World.close
        split
        · exact .closed rfl
        · exact .kept rfl
  | releasedir path fi =>
      rw [perform_releasedir performed]
      split
      · exact .kept rfl
      · unfold World.closedir
        split <;> exact .kept rfl
  | readdir path fi =>
      rw [perform] at performed
      split at performed
      · cases performed
      · cases performed
        exact .kept rfl
  | rename path newpath =>
      have result := perform_rename performed
      generalize reply.code = code at result
      cases result with
      | done _ _ _ _ _ descriptors => exact .kept descriptors
      | failed _ same => exact .kept (by rw [same])

/-- What is behind a handle stays there until it is released; by induction on the operations. -/
theorem lookup_afterAll (os : OperatingSystem) (root : Location) {fh : UInt64} {node : FileNode}
    (held : w.descriptors.lookup (toInt fh.toNat) = some node) {ops : List ClientOp}
    (unreleased : ∀ op ∈ ops, Unreleased fh op)
    : (afterAll os (.below (render root)) w ops).descriptors.lookup (toInt fh.toNat)
      = some node := by
  induction ops generalizing w with
  | nil => exact held
  | cons op rest ih =>
      refine ih ?_ (fun op member => unreleased op (List.mem_cons_of_mem _ member))
      unfold after
      split
      · next reply w' performed =>
          exact (perform_descriptors performed).lookup held (unreleased op List.mem_cons_self)
      · exact held

/-- A handle stands for the object that was opened. Whatever is renamed, replaced or opened until
it is released, its attributes are those of that object, under any path but the log's, and so is
the file that is read through it.
-/
theorem opened_stays
    (performed : perform os (.below (render root)) w (.openFile path fi) = .ok (reply, w'))
    (code : reply.code = 0) (replied : reply.fi = some opened) {ops : List ClientOp}
    (unreleased : ∀ op ∈ ops, Unreleased opened.fh op)
    : ∃ node,
        (root ++ path, node) ∈ w.tree.entries
        ∧ (afterAll os (.below (render root)) w' ops).descriptors.lookup (toInt opened.fh.toNat)
          = some node
        ∧ ∀ place,
            place ≠ [logName]
            → perform os (.below (render root)) (afterAll os (.below (render root)) w' ops)
                (.fgetattr place opened)
              = .ok ({ code := 0, stat := some node },
                  afterAll os (.below (render root)) w' ops) := by
  obtain ⟨node, found, _, opens⟩ := found_of_openFile performed code replied
  have first : w'.descriptors.lookup (toInt opened.fh.toNat) = some node := by
    rw [opens]
    exact List.lookup_cons_self
  have held := lookup_afterAll os root first unreleased
  refine ⟨node, found, held, ?_⟩
  intro place notLog
  rw [perform, cachingFgetattr, cachingFgetattrAt, if_neg (mt referingLogfile_render.mp notLog)]
  simp only [World.fstat, held, Answer.number]

/-- A file that is opened as `/a` has the same attributes through its handle as `/b`. -/
theorem opened_stays_renamed
    : (perform permissive (.below (render []))
        (afterAll permissive (.below (render [])) openSession.world [.rename [nameA] [nameB]])
        (.fgetattr [nameB] ⟨0, true, 0⟩)).toOption.map (fun answer => answer.1.stat)
      = some (some (.file file7)) := by
  obtain ⟨reply, performed, code, replied⟩ := performed_of_opened
    (show code? permissive (.below (render [])) loggedWorld openA = some 0 by decide +kernel)
    (show opened? permissive (.below (render [])) loggedWorld openA = some ⟨0, true, 0⟩ by
      decide +kernel)
  have unreleased : ∀ op ∈ [ClientOp.rename [nameA] [nameB]], Unreleased 0 op := by
    intro op member path fi same
    rw [List.mem_singleton.mp member] at same
    cases same
  obtain ⟨node, found, _, attributes⟩ := opened_stays performed code replied unreleased
  have known : ([] ++ [nameA], .file file7) ∈ loggedWorld.tree.entries := by decide
  obtain rfl := Tree.unique found known
  have answered := attributes [nameB] (by decide)
  rw [openSession, answered]
  rfl

end CachingFileSystem.FileSystem
