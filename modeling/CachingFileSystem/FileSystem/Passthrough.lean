import CachingFileSystem.FileSystem.ReadTransparency
import CachingFileSystem.FileSystem.OpenObjects

/-! The mounted file system against one that has no cache: its files are read through the handles
that are open on them, and a read returns the bytes that the file has there.
-/

namespace CachingFileSystem.FileSystem

open CachingFileSystem.BufferCache
open CachingFileSystem.Containers
open CachingFileSystem.DirectoryTree
open CachingFileSystem.ReplacementPolicy
open CachingFileSystem.Transitions

-----------------------------------------------------------------------------------------
-- Without a cache
-----------------------------------------------------------------------------------------

def ClientOp.isRead : ClientOp → Bool
  | .read _ _ => true
  | _ => false

/-- What clients ask for; a read is of what its handle has open. -/
inductive Call where
  | read (path : Location) (fi : FuseFileInfo) (size : UInt64) (offset : ℤ)
  | other (op : ClientOp) (noRead : op.isRead = false)

/-- What a mount has besides its cache. -/
structure Passthrough where
  tree : FileTree
  descriptors : List (ℤ × FileNode)
  streams : List (UInt64 × List Dirent)

def World.passthrough {Count : Type} (w : World Count) : Passthrough :=
  ⟨w.tree, w.descriptors, w.streams⟩

/-- A machine whose cache holds nothing. -/
def Passthrough.bare (s : Passthrough) : World Int32 where
  tree := s.tree
  cacheManager := ⟨0, fun _ => none, .empty, none, none⟩
  descriptors := s.descriptors
  streams := s.streams

/-- The bytes of the file that were asked for; nothing outside it and of the log. -/
def readReply (file : File) (path : Location) (size : UInt64) (offset : ℤ) : Reply :=
  if path = [logName] then { code := -enoent }
  else if offset < 0 ∨ file.stSize ≤ offset then { code := 0 }
  else
    let length := min (size.toNat : ℤ) (file.stSize - offset)
    { code := length, data := ((file.data.drop offset.toNat).take length.toNat).map some }

/-- A call that is answered without a cache. All but reads are operations that do not use it. -/
inductive Passthrough.Step (os : OperatingSystem) (root : Location) (s : Passthrough)
    : Call × Reply → Passthrough → Prop
  | read {path fi size offset file}
      (held : s.descriptors.lookup (toInt fi.fh.toNat) = some (.file file))
    : Step os root s (.read path fi size offset, readReply file path size offset) s
  | other {op noRead reply w'}
      (performed : perform os (.below (render root)) s.bare op = .ok (reply, w'))
    : Step os root s (.other op noRead, reply) w'.passthrough

def passthroughSystem (os : OperatingSystem) (root : Location) (t : FileTree)
    : System Passthrough (Call × Reply) where
  start := fun s => s = ⟨t, [], []⟩
  step := Passthrough.Step os root

-----------------------------------------------------------------------------------------
-- The mount
-----------------------------------------------------------------------------------------

variable {Count : Type} [LinearOrder Count] [OrderTop Count] [One Count] [Add Count]
  [ToString Count]

/-- A call that the mount answers; `pread` is the system call with which it reads blocks. -/
inductive MountStep (os : OperatingSystem) (pread : Pread) (root : Location) (w : World Count)
    : Call × Reply → World Count → Prop
  | read {path fi size offset file reply w'}
      (held : w.descriptors.lookup (toInt fi.fh.toNat) = some (.file file))
      (performed
        : perform os (.below (render root)) w (.read pread ⟨render path, file, size, offset⟩)
          = .ok (reply, w'))
    : MountStep os pread root w (.read path fi size offset, reply) w'
  | other {op noRead reply w'}
      (performed : perform os (.below (render root)) w op = .ok (reply, w'))
    : MountStep os pread root w (.other op noRead, reply) w'

/-- A new mount of a tree. -/
def mountSystem (args : CacheArgs) (os : OperatingSystem) (pread : Pread) (root : Location)
    (t : FileTree)
    : System (World Count) (Call × Reply) where
  start := fun w =>
    w = ⟨t, .new args.numberOfBlocks args.fOld args.fNew, [], []⟩
  step := MountStep os pread root

/-- A read of a file stays in the blocks it visits, as far as the cache has the first of them. -/
def StaysInside (w : World Count) : Call → Prop
  | .read path fi size offset =>
      ∀ file,
        w.descriptors.lookup (toInt fi.fh.toNat) = some (.file file)
        → path ≠ [logName]
        → 0 ≤ offset
        → offset < file.stSize
        → let r : Request := ⟨render path, file, size, offset⟩
          r.StaysInBlocks (Cached w.cacheManager (r.blockID r.firstBlock))
  | .other _ _ => True

def treeFiles (t : FileTree) : Set File := {file | ∃ place, (place, .file file) ∈ t.entries}

/-- Blocks of these files are read in full. -/
def ReadsBlocks (files : Set File) (pread : Pread) : Prop :=
  ∀ file ∈ files, ∀ k,
    0 ≤ k
    → k * file.blockSize < file.fileSize
    → pread file (toSize file.blockSize) (k * file.blockSize) = .ok (file.blockBytes k)

/-- What holds of a mount over files that do not change: its cache is coherent, and all files in
the tree and behind handles are among them.
-/
structure Mounts (files : Set File) (cfg : Sections) (w : World Count) : Prop where
  coherent
    : ∃ history,
        ∃ c : FrequencyCache cfg BlockID (Payload BlockBuf) Count,
          Coherent files BlockOf w.cacheManager history c
  inTree : treeFiles w.tree ⊆ files
  opened : ∀ fd file, (fd, .file file) ∈ w.descriptors → file ∈ files

section Reads

variable {files : Set File} {cfg : Sections} {os : OperatingSystem} {pread : Pread}
  {root path newpath : Location} {w w' : World Count} {op : ClientOp} {reply : Reply}

theorem ReadsBlocks.sound (h : ReadsBlocks files pread) : PreadSound files BlockOf pread := by
  intro file member k bytes nonneg inside read
  cases (h file member k nonneg inside).symm.trans read
  rfl

theorem ReadsBlocks.full (h : ReadsBlocks files pread) {r : Request} (member : r.file ∈ files)
    (inside : r.Inside)
    : FullReads pread r := by
  intro block low high
  obtain ⟨nonneg, within⟩ := Request.visited_inside inside low high
  exact h r.file member block nonneg within

theorem notLog_of_ne {r : Request} (named : r.path = render path) (notLog : path ≠ [logName])
    : NotLog (.below (render root)) r := by
  intro same
  have log : referingLogfile (.below (render root))
      (cachingFullPath (.below (render root)) (render path)) ≠ 0 := by
    rw [← named, referingLogfile, if_pos same]
    decide
  exact notLog (referingLogfile_render.mp log)

/-- Whatever a read returns, the mount stays as it is but for its cache. -/
theorem Mounts.after_read (h : Mounts files cfg w) (reads : ReadsBlocks files pread) {r : Request}
    (member : r.file ∈ files)
    (performed : perform os (.below (render root)) w (.read pread r) = .ok (reply, w'))
    : Mounts files cfg w' ∧ w'.passthrough = w.passthrough := by
  obtain ⟨ret, last, called, rfl⟩ := perform_read performed
  obtain ⟨history, c, coherent⟩ := h.coherent
  obtain ⟨c', coherent'⟩ := (coherent.serving member reads.sound called).coherent
  exact ⟨⟨⟨_, c', coherent'⟩, h.inTree, h.opened⟩, rfl⟩

/-- A read of a mounted file is answered as without a cache; by where its offset is. -/
theorem Mounts.read (h : Mounts files cfg w) (os : OperatingSystem) (root : Location)
    (agreeing : AgreeingBlocks files) (measured : ∀ file ∈ files, file.stSize < 2 ^ 31)
    (reads : ReadsBlocks files pread)
    {fi : FuseFileInfo} {size : UInt64} {offset : ℤ} {file : File}
    (held : w.descriptors.lookup (toInt fi.fh.toNat) = some (.file file))
    (stays : StaysInside w (.read path fi size offset))
    : ∃ w',
        perform os (.below (render root)) w (.read pread ⟨render path, file, size, offset⟩)
        = .ok (readReply file path size offset, w') := by
  have member : file ∈ files := h.opened _ file (mem_of_lookup held)
  have short := measured file member
  rw [readReply]
  by_cases log : path = [logName]
  · refine ⟨w, ?_⟩
    have refered : referingLogfile (.below (render root))
        (cachingFullPath (.below (render root)) (render path)) ≠ 0 :=
      referingLogfile_render.mpr log
    rw [if_pos log, perform, cachingRead, cachingReadAt, if_pos refered]
    rfl
  have notLog : NotLog (.below (render root)) ⟨render path, file, size, offset⟩ :=
    notLog_of_ne rfl log
  rw [if_neg log]
  by_cases outside : offset < 0 ∨ file.stSize ≤ offset
  · refine ⟨w, ?_⟩
    have rejected : ¬ (Request.mk (render path) file size offset).Inside := by
      intro inside
      have nonneg := inside.nonneg
      have before := inside.before
      rw [File.fileSize_eq short] at before
      simp only at nonneg before
      omega
    rw [if_pos outside, perform, cachingRead_rejected notLog rejected]
    rfl
  · obtain ⟨nonneg, within⟩ := not_or.mp outside
    have proper : (Request.mk (render path) file size offset).Proper :=
      ⟨not_lt.mp nonneg, not_le.mp within, short⟩
    obtain ⟨history, c, coherent⟩ := h.coherent
    obtain ⟨st, called, stored, _⟩ :=
      coherent.readsExactly_of_stays agreeing member notLog proper
        (reads.full member proper.inside) (stays file held log proper.nonneg proper.before)
    refine ⟨{ w with cacheManager := st.cacheManager }, ?_⟩
    rw [if_neg outside, perform, called, ok_bind]
    simp only [stored]
    rfl

end Reads

-----------------------------------------------------------------------------------------
-- Other operations
-----------------------------------------------------------------------------------------

/-- The answer, and what the mount has besides its cache. -/
def forget {Count : Type} : Except Halt (Reply × World Count) → Except Halt (Reply × Passthrough)
  | .ok (reply, w) => .ok (reply, w.passthrough)
  | .error halt => .error halt

section Others

variable {files : Set File} {cfg : Sections} {os : OperatingSystem} {cfs : CfsState}
  {root path newpath : Location} {w w' : World Count} {op : ClientOp} {reply : Reply}

/-- Only reads use the cache; by cases on the operation. -/
theorem perform_bare (noRead : op.isRead = false)
    : forget (perform os cfs w op) = forget (perform os cfs w.passthrough.bare op) := by
  cases op with
  | read => cases noRead
  | getattr | fgetattr | access | flush | ioctl => rfl
  | openFile path fi =>
      simp only [perform, cachingOpen, cachingOpenAt]
      split
      · rfl
      split
      · rfl
      · unfold World.sysOpen
        have same : w.openAnswer os (cachingFullPath cfs (render path))
            = w.passthrough.bare.openAnswer os (cachingFullPath cfs (render path)) := rfl
        rw [same]
        rcases w.passthrough.bare.openAnswer os (cachingFullPath cfs (render path)) with
          err | ⟨fd, node⟩ <;>
        rfl
  | release path fi =>
      simp only [perform, cachingRelease, cachingReleaseAt]
      split
      · rfl
      · unfold World.close
        have same : w.heldDescriptors = w.passthrough.bare.heldDescriptors := rfl
        rw [same]
        by_cases held : toInt fi.fh.toNat ∈ w.passthrough.bare.heldDescriptors
        · rw [if_pos held, if_pos held]
          rfl
        · rw [if_neg held, if_neg held]
          rfl
  | opendir path fi =>
      simp only [perform, cachingOpendir, cachingOpendirAt]
      split
      · rfl
      · unfold World.opendir
        have same : w.opendirAnswer os (cachingFullPath cfs (render path))
            = w.passthrough.bare.opendirAnswer os (cachingFullPath cfs (render path)) := rfl
        rw [same]
        rcases w.passthrough.bare.opendirAnswer os (cachingFullPath cfs (render path)) with
          err | ⟨dp, entries⟩ <;>
        rfl
  | readdir path fi =>
      simp only [perform]
      have same : w.streams = w.passthrough.bare.streams := rfl
      rw [same]
      split <;> rfl
  | releasedir path fi =>
      simp only [perform, cachingReleasedir]
      split
      · rfl
      · unfold World.closedir
        have same : w.heldStreams = w.passthrough.bare.heldStreams := rfl
        rw [same]
        by_cases held : fi.fh ∈ w.passthrough.bare.heldStreams
        · rw [if_pos held, if_pos held]
          rfl
        · rw [if_neg held, if_neg held]
          rfl
  | rename path newpath =>
      simp only [perform, cachingRename, cachingRenameAt]
      split
      · rfl
      · have same : w.tree = w.passthrough.bare.tree := rfl
        rw [same]
        split <;> rfl

/-- So the mount answers them as a machine with an empty cache does. -/
theorem perform_bare_iff (noRead : op.isRead = false) {s : Passthrough}
    : (∃ w', perform os cfs w op = .ok (reply, w') ∧ w'.passthrough = s)
      ↔ ∃ v, perform os cfs w.passthrough.bare op = .ok (reply, v) ∧ v.passthrough = s := by
  have same := @perform_bare Count _ _ _ _ _ os cfs w op noRead
  have answered {Count' : Type} (outcome : Except Halt (Reply × World Count'))
      : (∃ w', outcome = .ok (reply, w') ∧ w'.passthrough = s)
        ↔ forget outcome = .ok (reply, s) := by
    rcases outcome with halt | ⟨reply', w'⟩
    · refine iff_of_false ?_ ?_
      · intro h
        obtain ⟨_, h, _⟩ := h
        cases h
      · intro h
        cases h
    · constructor
      · intro h
        obtain ⟨_, h, rfl⟩ := h
        cases h
        rfl
      · intro h
        cases h
        exact ⟨w', rfl, rfl⟩
  rw [answered, answered, same]

/-- What is in the tree after an operation was there before; by the rename. -/
theorem treeFiles_subset
    (performed : perform os (.below (render root)) w op = .ok (reply, w'))
    : treeFiles w'.tree ⊆ treeFiles w.tree := by
  by_cases renames : ∃ path newpath, op = .rename path newpath
  · obtain ⟨path, newpath, rfl⟩ := renames
    have result := perform_rename performed
    generalize reply.code = code at result
    cases result with
    | failed _ same => rw [same]
    | done _ _ _ renamed =>
        rcases Tree.rename_cases renamed with ⟨_, same⟩ | moved
        · rw [same]
        · intro file here
          obtain ⟨place, here⟩ := here
          obtain ⟨old, before, _⟩ := moved.mem_iff.mp here
          exact ⟨old, before⟩
  · rw [perform_tree performed (fun path newpath same => renames ⟨path, newpath, same⟩)]

/-- A file behind a handle was behind it before or is in the tree. -/
theorem opened_of_performed
    (performed : perform os (.below (render root)) w op = .ok (reply, w')) {fd : ℤ} {file : File}
    (held : (fd, .file file) ∈ w'.descriptors)
    : (fd, .file file) ∈ w.descriptors ∨ file ∈ treeFiles w.tree := by
  cases perform_descriptors performed with
  | kept same => exact Or.inl (same ▸ held)
  | closed rest =>
      rw [rest] at held
      exact Or.inl (List.mem_of_mem_filter held)
  | opened found _ opened =>
      rw [opened] at held
      rcases List.mem_cons.mp held with same | before
      · cases same
        exact Or.inr ⟨_, found⟩
      · exact Or.inl before

/-- All but reads and renames leave the cache as it is; by cases on the operation. -/
theorem perform_cache (performed : perform os (.below (render root)) w op = .ok (reply, w'))
    (noRead : op.isRead = false)
    : w'.cacheManager = w.cacheManager
      ∨ ∃ rename path newpath,
          op = .rename path newpath
          ∧ w'.cacheManager
            = (cachingRename (.below (render root)) rename w.cacheManager (render path)
                (render newpath)).2 := by
  cases op with
  | read => cases noRead
  | getattr | fgetattr | access | flush | ioctl =>
      cases performed
      exact Or.inl rfl
  | openFile =>
      cases perform_openFile performed with
      | opened _ _ _ _ _ _ _ _ _ _ held => exact Or.inl (by rw [held])
      | failed _ same => exact Or.inl (by rw [same])
  | opendir =>
      cases perform_opendir performed with
      | opened _ _ _ _ _ _ _ _ held => exact Or.inl (by rw [held])
      | failed _ same => exact Or.inl (by rw [same])
  | release =>
      rw [perform_release performed]
      unfold World.close
      split
      · exact Or.inl rfl
      · split <;> exact Or.inl rfl
  | releasedir =>
      rw [perform_releasedir performed]
      unfold World.closedir
      split
      · exact Or.inl rfl
      · split <;> exact Or.inl rfl
  | readdir =>
      rw [perform] at performed
      split at performed
      · cases performed
      · cases performed
        exact Or.inl rfl
  | rename path newpath =>
      rw [perform] at performed
      cases performed
      exact Or.inr ⟨fun old new => Answer.number ((renameIn os w.tree old new).map (fun _ => 0)),
        path, newpath, rfl, rfl⟩

/-- The other operations keep what holds of a mount. -/
theorem Mounts.after_other (h : Mounts files cfg w) (noRead : op.isRead = false)
    (performed : perform os (.below (render root)) w op = .ok (reply, w'))
    : Mounts files cfg w' where
  coherent := by
    obtain ⟨history, c, coherent⟩ := h.coherent
    rcases perform_cache performed noRead with same | ⟨rename, path, newpath, _, renamed⟩
    · exact ⟨history, c, same ▸ coherent⟩
    · obtain ⟨c', coherent'⟩ := coherent.renamed rename (render path) (render newpath)
      exact ⟨history, c', renamed ▸ coherent'⟩
  inTree := (treeFiles_subset performed).trans h.inTree
  opened := by
    intro fd file held
    rcases opened_of_performed performed held with before | present
    · exact h.opened fd file before
    · exact h.inTree present

end Others

-----------------------------------------------------------------------------------------
-- Refinement
-----------------------------------------------------------------------------------------

section Refinement

variable {files : Set File} {cfg : Sections} {os : OperatingSystem} {pread : Pread}
  {root : Location} {w w' : World Count} {call : Call} {reply : Reply} {s : Passthrough}

/-- Every step of the mount keeps what holds of it. -/
theorem Mounts.step (h : Mounts files cfg w) (reads : ReadsBlocks files pread)
    (next : MountStep os pread root w (call, reply) w')
    : Mounts files cfg w' := by
  cases next with
  | read held performed =>
      exact (h.after_read reads (h.opened _ _ (mem_of_lookup held)) performed).1
  | @other op noRead _ _ performed => exact h.after_other noRead performed

/-- A call that stays inside its blocks is answered by the mount exactly as without a cache. -/
theorem Mounts.step_iff (h : Mounts files cfg w) (agreeing : AgreeingBlocks files)
    (measured : ∀ file ∈ files, file.stSize < 2 ^ 31) (reads : ReadsBlocks files pread)
    (stays : StaysInside w call)
    : (∃ w', MountStep os pread root w (call, reply) w' ∧ w'.passthrough = s)
      ↔ Passthrough.Step os root w.passthrough (call, reply) s := by
  constructor
  · intro answered
    obtain ⟨w', next, rfl⟩ := answered
    cases next with
    | @read path fi size offset file _ _ held performed =>
        obtain ⟨v, exactly⟩ := h.read os root agreeing measured reads held stays
        cases exactly.symm.trans performed
        rw [(h.after_read reads (h.opened _ _ (mem_of_lookup held)) performed).2]
        exact .read held
    | @other op noRead _ _ performed =>
        obtain ⟨v, performed', same⟩ := (perform_bare_iff noRead).mp ⟨w', performed, rfl⟩
        rw [← same]
        exact .other performed'
  · intro next
    cases next with
    | @read path fi size offset file held =>
        obtain ⟨w', performed⟩ :=
          h.read os root agreeing measured reads held stays
        have same := (h.after_read reads (h.opened _ _ (mem_of_lookup held)) performed).2
        exact ⟨w', .read held performed, same⟩
    | @other op noRead _ v performed =>
        obtain ⟨w', performed', same⟩ := (perform_bare_iff noRead).mpr ⟨v, performed, rfl⟩
        exact ⟨w', .other performed', same⟩

omit [LinearOrder Count] [OrderTop Count] [Add Count] [ToString Count] in
theorem mounts_new (args : CacheArgs) (t : FileTree)
    : Mounts (treeFiles t) args.sections
        (⟨t, .new args.numberOfBlocks args.fOld args.fNew, [], []⟩ : World Count) where
  coherent := ⟨[], .empty, coherent_new args⟩
  inTree := subset_rfl
  opened := by
    intro _ _ none
    cases none

/-- The mount refines the file system without a cache. Runs whose reads stay inside their blocks
have the same calls and answers there, and from every state they reach a call that stays inside is
answered exactly as there.
-/
theorem mountRun_passthrough {args : CacheArgs} {t : FileTree}
    (agreeing : AgreeingBlocks (treeFiles t))
    (measured : ∀ file ∈ treeFiles t, file.stSize < 2 ^ 31)
    (reads : ReadsBlocks (treeFiles t) pread) {labels : List (Call × Reply)}
    (run
      : ((mountSystem args os pread root t).restrict (fun w label => StaysInside w label.1)).Run
          labels w)
    : (passthroughSystem os root t).Run labels w.passthrough
      ∧ ∀ call reply s,
          StaysInside w call
          → ((∃ w', MountStep os pread root w (call, reply) w' ∧ w'.passthrough = s)
              ↔ Passthrough.Step os root w.passthrough (call, reply) s) := by
  have reached
      : Mounts (treeFiles t) args.sections w
        ∧ (passthroughSystem os root t).Run labels w.passthrough := by
    refine System.Run.invariant
      (fun labels w =>
        Mounts (treeFiles t) args.sections w
        ∧ (passthroughSystem os root t).Run labels w.passthrough) ?_ ?_ run
    · intro w start
      obtain rfl : w = _ := start
      exact ⟨mounts_new args t, .start rfl⟩
    · intro labels label w w' before next
      obtain ⟨mounts, direct⟩ := before
      obtain ⟨call, reply⟩ := label
      obtain ⟨stays, next⟩ := next
      exact ⟨mounts.step reads next, .step direct
        ((mounts.step_iff agreeing measured reads stays).mp ⟨w', next, rfl⟩)⟩
  exact ⟨reached.2, fun call reply s stays => reached.1.step_iff agreeing measured reads stays⟩

end Refinement

-----------------------------------------------------------------------------------------
-- A small mount
-----------------------------------------------------------------------------------------

theorem smallTree_agreeing : AgreeingBlocks (treeFiles smallTree) := by
  refine DistinctIds.agreeingBlocks ?_
  intro file member other otherMember same
  obtain ⟨_, here⟩ := member
  obtain ⟨_, there⟩ := otherMember
  rcases mem_smallTree here with ⟨_, rfl⟩ | ⟨_, rfl⟩ <;>
    rcases mem_smallTree there with ⟨_, rfl⟩ | ⟨_, rfl⟩
  · rfl
  · exact absurd same (by decide)
  · exact absurd same (by decide)
  · rfl

theorem smallTree_measured : ∀ file ∈ treeFiles smallTree, file.stSize < 2 ^ 31 := by
  intro file member
  obtain ⟨_, here⟩ := member
  rcases mem_smallTree here with ⟨_, rfl⟩ | ⟨_, rfl⟩ <;> decide

def openB : ClientOp := .openFile [nameB] readOnly

def readThroughB : Call := .read [nameE] readOnly 1 0

/-- Opening `/b`, and reading its byte through the handle under another path. -/
theorem mountRun_passthrough_small
    : ∃ (opened read : Reply) (w : World Int32),
        read.code = 1
        ∧ (passthroughSystem permissive [] smallTree).Run
            [(readThroughB, read), (.other openB rfl, opened)] w.passthrough := by
  obtain ⟨opened, openStep, _⟩ := performed_of_code
    (show code? permissive (.below (render [])) smallWorld openB = some 0 by decide +kernel)
  have held : (after permissive (.below (render [])) smallWorld openB).descriptors.lookup
      (toInt readOnly.fh.toNat) = some (.file file8) := by
    decide +kernel
  obtain ⟨read, readStep, code⟩ := performed_of_code
    (show code? permissive (.below (render []))
        (after permissive (.below (render [])) smallWorld openB)
        (.read wholePread (file8.byteRequest (render [nameE]) 0)) = some 1 by
      decide +kernel)
  have stays : StaysInside (after permissive (.below (render [])) smallWorld openB)
      readThroughB := by
    intro file there _ nonneg before
    have same := Option.some.inj (there.symm.trans held)
    obtain rfl : file = file8 := Inode.file.inj same
    exact byteRequest_stays ⟨nonneg, before, by decide⟩ _
  have run : ((mountSystem twoOldArgs permissive wholePread [] smallTree).restrict
      (fun w label => StaysInside w label.1)).Run
      [(readThroughB, read), (.other openB rfl, opened)]
      (after permissive (.below (render []))
        (after permissive (.below (render [])) smallWorld openB)
        (.read wholePread (file8.byteRequest (render [nameE]) 0))) :=
    .step (.step (.start rfl) ⟨trivial, .other openStep⟩) ⟨stays, .read held readStep⟩
  refine ⟨opened, read, _, code,
    (mountRun_passthrough smallTree_agreeing smallTree_measured ?_ run).1⟩
  intro file _ k _ _
  exact wholePread_block file k

end CachingFileSystem.FileSystem
