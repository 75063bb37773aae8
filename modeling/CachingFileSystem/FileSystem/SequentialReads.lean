import CachingFileSystem.FileSystem.Passthrough

/-! Files that are read from their beginning on through one handle, in pieces that start at block
boundaries, while other calls come in between.
-/

namespace CachingFileSystem.FileSystem

open CachingFileSystem.BufferCache
open CachingFileSystem.Containers
open CachingFileSystem.DirectoryTree
open CachingFileSystem.Transitions

/-- How many of the calls read through the handle. -/
def readsThrough (fh : UInt64) : List (Call × Reply) → ℕ
  | [] => 0
  | (.read _ fi _ _, _) :: earlier =>
      if fi.fh = fh then readsThrough fh earlier + 1 else readsThrough fh earlier
  | (.other _ _, _) :: earlier => readsThrough fh earlier

/-- What they returned, the earliest first. -/
def received (fh : UInt64) : List (Call × Reply) → List (Option UInt8)
  | [] => []
  | (.read _ fi _ _, reply) :: earlier =>
      if fi.fh = fh then received fh earlier ++ reply.data else received fh earlier
  | (.other _ _, _) :: earlier => received fh earlier

/-- Reads through the handle ask for one piece after the other, under any path but the log's, and
it is not released. Other calls are free, reads through other handles included.
-/
def Sequential (fh size : UInt64) : List (Call × Reply) → Prop
  | [] => True
  | (.read path fi size' offset, _) :: earlier =>
      (fi.fh = fh
        → path ≠ [logName]
          ∧ size' = size
          ∧ offset = ((size.toNat * readsThrough fh earlier : ℕ) : ℤ))
      ∧ Sequential fh size earlier
  | (.other op _, _) :: earlier => Unreleased fh op ∧ Sequential fh size earlier

/-- A request that starts at a block boundary stays in its blocks. -/
theorem Request.stays_of_aligned {r : Request} {cached : Bool}
    (aligned : r.offset % r.file.blockSize = 0) (nowrap : r.size.toNat + r.offset < 2 ^ 64)
    : r.StaysInBlocks cached := by
  refine Or.inr ⟨nowrap, Or.inr (Or.inl aligned), ?_⟩
  rw [aligned, Int.zero_add]
  exact Int.emod_lt_of_pos _ r.file.blockSize_pos

/-- The end of a piece that begins inside a file below `2^31` bytes does not wrap around: either it
is the first piece, or the pieces are no longer than the file.
-/
theorem piece_nowrap {file : File} {size : UInt64} {count : ℕ} (measured : file.stSize < 2 ^ 31)
    (before : ((size.toNat * count : ℕ) : ℤ) < file.stSize)
    : (size.toNat : ℤ) + ((size.toNat * count : ℕ) : ℤ) < 2 ^ 64 := by
  cases count with
  | zero =>
      have bound := size.toNat_lt
      rw [Nat.mul_zero]
      omega
  | succ count =>
      have piece : size.toNat ≤ size.toNat * (count + 1) :=
        Nat.le_mul_of_pos_right size.toNat (Nat.succ_pos count)
      omega

/-- The piece that begins where the pieces before end adds what the file has there. -/
theorem readReply_data {file : File} {path : Location} {size : UInt64} {count : ℕ}
    (notLog : path ≠ [logName])
    : (file.data.take (size.toNat * count)).map some
        ++ (readReply file path size ((size.toNat * count : ℕ) : ℤ)).data
      = (file.data.take (size.toNat * (count + 1))).map some := by
  rw [readReply, if_neg notLog, Nat.mul_succ]
  generalize size.toNat * count = start
  split
  · next outside =>
      have behind : file.data.length ≤ start := by
        simp only [File.stSize] at outside
        omega
      rw [List.take_of_length_le behind, List.take_of_length_le (by omega)]
      exact List.append_nil _
  · next inside =>
      have within : start < file.data.length := by
        simp only [File.stSize] at inside
        omega
      have clipped : (file.data.drop start).take
          (min (size.toNat : ℤ) (file.stSize - (start : ℤ))).toNat
          = (file.data.drop start).take size.toNat := by
        rw [List.take_eq_take_iff, List.length_drop, File.stSize]
        omega
      simp only [Int.toNat_natCast, clipped]
      rw [← List.map_append, ← List.take_add]

-----------------------------------------------------------------------------------------
-- Runs
-----------------------------------------------------------------------------------------

variable {Count : Type} [LinearOrder Count] [OrderTop Count] [One Count] [Add Count]
  [ToString Count]

/-- A mount that has the file open, and what was received of it. -/
structure Receiving (files : Set File) (cfg : ReplacementPolicy.Sections) (fh size : UInt64)
    (file : File) (labels : List (Call × Reply)) (w : World Count)
    : Prop where
  mounts : Mounts files cfg w
  held : w.descriptors.lookup (toInt fh.toNat) = some (.file file)
  bytes
    : received fh labels = (file.data.take (size.toNat * readsThrough fh labels)).map some

variable {files : Set File} {cfg : ReplacementPolicy.Sections} {os : OperatingSystem}
  {pread : Pread} {root : Location} {w w' : World Count} {fh size : UInt64} {file : File}
  {labels : List (Call × Reply)}

/-- Every call keeps it so while the file is read piece by piece; by what the call is. -/
theorem Receiving.step (h : Receiving files cfg fh size file labels w)
    (agreeing : AgreeingBlocks files) (measured : ∀ file ∈ files, file.stSize < 2 ^ 31)
    (reads : ReadsBlocks files pread) (aligned : file.blockSize ∣ size.toNat)
    {label : Call × Reply}
    (sequential : Sequential fh size (label :: labels))
    (next : MountStep os pread root w label w')
    : Receiving files cfg fh size file (label :: labels) w' := by
  obtain ⟨call, reply⟩ := label
  have mounts := h.mounts.step reads next
  cases next with
  | @read path fi size' offset file' _ _ held performed =>
      have member := h.mounts.opened _ _ (mem_of_lookup held)
      have same := (h.mounts.after_read reads member performed).2
      have descriptors : w'.descriptors = w.descriptors := congrArg Passthrough.descriptors same
      refine ⟨mounts, descriptors ▸ h.held, ?_⟩
      by_cases through : fi.fh = fh
      · obtain ⟨notLog, rfl, rfl⟩ := sequential.1 through
        subst through
        have sameFile : file = file' := Inode.file.inj (Option.some.inj (h.held.symm.trans held))
        subst sameFile
        have stays : StaysInside w (.read path fi size'
            ((size'.toNat * readsThrough fi.fh labels : ℕ) : ℤ)) := by
          intro other there _ _ before
          have sameFile : file = other := Inode.file.inj (Option.some.inj (h.held.symm.trans there))
          subst sameFile
          refine Request.stays_of_aligned ?_ (piece_nowrap (measured file member) before)
          change ((size'.toNat * readsThrough fi.fh labels : ℕ) : ℤ) % file.blockSize = 0
          rw [Int.natCast_mul]
          exact Int.emod_eq_zero_of_dvd (aligned.mul_right _)
        obtain ⟨_, answered⟩ := h.mounts.read os root agreeing measured reads held stays
        cases answered.symm.trans performed
        rw [received, if_pos rfl, readsThrough, if_pos rfl, h.bytes]
        exact readReply_data notLog
      · rw [received, if_neg through, readsThrough, if_neg through]
        exact h.bytes
  | @other op noRead _ _ performed =>
      obtain ⟨unreleased, _⟩ := sequential
      exact ⟨mounts, (perform_descriptors performed).lookup h.held unreleased, h.bytes⟩

/-- A file that is opened and then read in pieces of a fixed size, a multiple of its block size,
arrives byte by byte as it was when it was opened, as far as it was read. Other calls may come in
between: reads of any kind, renames of the file and of others, opens and releases. Under the log's
path the file is not read, which a rename could give it.
-/
theorem mountRun_sequential {args : CacheArgs} {t : FileTree} {path : Location}
    {fi opened : FuseFileInfo} {reply : Reply} {w'' : World Count} {earlier : List (Call × Reply)}
    (agreeing : AgreeingBlocks (treeFiles t))
    (measured : ∀ file ∈ treeFiles t, file.stSize < 2 ^ 31)
    (reads : ReadsBlocks (treeFiles t) pread)
    (run : (mountSystem args os pread root t).Run earlier w)
    (performed : perform os (.below (render root)) w (.openFile path fi) = .ok (reply, w'))
    (code : reply.code = 0) (replied : reply.fi = some opened)
    (steps : Steps (MountStep os pread root) w' labels w'')
    (sequential : Sequential opened.fh size labels)
    (found : (root ++ path, .file file) ∈ w.tree.entries)
    (aligned : file.blockSize ∣ size.toNat)
    : received opened.fh labels
      = (file.data.take (size.toNat * readsThrough opened.fh labels)).map some := by
  have mounts : Mounts (treeFiles t) args.sections w := by
    refine System.Run.invariant (fun _ w => Mounts (treeFiles t) args.sections w) ?_ ?_ run
    · intro w start
      obtain rfl : w = _ := start
      exact mounts_new args t
    · intro _ label w w' before next
      exact before.step reads next
  obtain ⟨node, there, _, opens⟩ := found_of_openFile performed code replied
  obtain rfl := Tree.unique there found
  have start : Receiving (treeFiles t) args.sections opened.fh size file [] w' := by
    refine ⟨mounts.after_other rfl performed, ?_, rfl⟩
    rw [opens]
    exact List.lookup_cons_self
  have receiving : Sequential opened.fh size labels
      → Receiving (treeFiles t) args.sections opened.fh size file labels w'' := by
    refine steps.invariant (fun labels w =>
      Sequential opened.fh size labels
        → Receiving (treeFiles t) args.sections opened.fh size file labels w)
      (fun _ => start) ?_
    intro labels w label w' before next sequential
    refine (before ?_).step agreeing measured reads aligned sequential next
    obtain ⟨_ | _, _⟩ := label <;> exact sequential.2
  exact (receiving sequential).bytes

def openedB : FuseFileInfo := ⟨0, true, 0⟩

def pieceOfB (path : Location) (offset : ℤ) : ClientOp :=
  .read wholePread ⟨render path, file8, 4096, offset⟩

def renameB : ClientOp := .rename [nameB] [nameE]

/-- `/b` is opened and read up to its end, and renamed to `/e` in between. -/
theorem mountRun_sequential_renamed
    : ∃ first renamed last : Reply,
        received 0
          [
            (.read [nameE] openedB 4096 4096, last),
            (.other renameB rfl, renamed),
            (.read [nameB] openedB 4096 0, first)
          ]
        = [some 1] := by
  have opens : code? permissive (.below (render [])) smallWorld openB = some 0 := by
    decide +kernel
  have stored : opened? permissive (.below (render [])) smallWorld openB = some openedB := by
    decide +kernel
  have readsFirst : code? permissive (.below (render []))
      (after permissive (.below (render [])) smallWorld openB) (pieceOfB [nameB] 0) = some 1 := by
    decide +kernel
  have renames : code? permissive (.below (render []))
      (afterAll permissive (.below (render [])) smallWorld [openB, pieceOfB [nameB] 0]) renameB
      = some 0 := by
    decide +kernel
  have readsLast : code? permissive (.below (render []))
      (afterAll permissive (.below (render [])) smallWorld
        [openB, pieceOfB [nameB] 0, renameB]) (pieceOfB [nameE] 4096) = some 0 := by
    decide +kernel
  have heldFirst : (after permissive (.below (render [])) smallWorld openB).descriptors.lookup
      (toInt openedB.fh.toNat) = some (.file file8) := by
    decide +kernel
  have heldLast : (afterAll permissive (.below (render [])) smallWorld
      [openB, pieceOfB [nameB] 0, renameB]).descriptors.lookup (toInt openedB.fh.toNat)
      = some (.file file8) := by
    decide +kernel
  obtain ⟨reply, performed, code, replied⟩ := performed_of_opened opens stored
  obtain ⟨first, firstStep, _⟩ := performed_of_code readsFirst
  obtain ⟨renamed, renameStep, _⟩ := performed_of_code renames
  obtain ⟨last, lastStep, _⟩ := performed_of_code readsLast
  refine ⟨first, renamed, last, ?_⟩
  have run : (mountSystem twoOldArgs permissive wholePread [] smallTree).Run [] smallWorld :=
    .start rfl
  have noRead : renameB.isRead = false := rfl
  have steps := ((Steps.none.more (MountStep.read heldFirst firstStep)).more
    (@MountStep.other _ _ _ _ _ _ _ _ _ _ _ noRead _ _ renameStep)).more
    (MountStep.read heldLast lastStep)
  have sequential : Sequential 0 4096
      [
        (.read [nameE] openedB 4096 4096, last),
        (.other renameB noRead, renamed),
        (.read [nameB] openedB 4096 0, first)
      ] := by
    refine ⟨fun _ => ⟨by decide, rfl, rfl⟩, fun _ _ same => ?_, fun _ => ⟨by decide, rfl, rfl⟩,
      trivial⟩
    cases same
  have reads : ReadsBlocks (treeFiles smallTree) wholePread :=
    fun file _ k _ _ => wholePread_block file k
  have found : ([] ++ [nameB], .file file8) ∈ smallWorld.tree.entries := by decide
  exact mountRun_sequential smallTree_agreeing smallTree_measured reads run performed code replied
    steps sequential found (by decide)

end CachingFileSystem.FileSystem
