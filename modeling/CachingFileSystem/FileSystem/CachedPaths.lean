import CachingFileSystem.FileSystem.RenamedTrees

/-! The path kept with a cached block is the current path of the file it was read from, for as
long as that file exists.
-/

namespace CachingFileSystem.FileSystem

open CachingFileSystem.BufferCache
open CachingFileSystem.Containers
open CachingFileSystem.DirectoryTree
open CachingFileSystem.ReplacementPolicy
open CachingFileSystem.Transitions

def filesBelow (root : Location) (t : FileTree) : Set File :=
  {file | ∃ place, (root ++ place, .file file) ∈ t.entries}

/-- Inode numbers that survive the conversion to an `int`. -/
def PositiveInodes (files : Set File) : Prop :=
  ∀ file ∈ files, 0 < file.stIno.toNat ∧ file.stIno.toNat < 2 ^ 31

def SameDevice (files : Set File) : Prop :=
  ∀ file ∈ files, ∀ other ∈ files, file.stDev = other.stDev

/-- A block of a file of the first tree, under the path that the file has in the second. -/
structure PathFollows (root : Location) (first t : FileTree) (file : File) (id : BlockID)
    (payload : Payload BlockBuf)
    : Prop where
  known : file ∈ filesBelow root first
  owner : id.1 = file.fileId
  content : ∃ bytes, payload.buff = some ⟨file.identity, bytes⟩
  current : ∀ place, (root ++ place, .file file) ∈ t.entries → payload.path = render place

variable {root path newpath place : Location} {first t t' : FileTree}

/-- A positive inode number is no placeholder's mark. -/
theorem PositiveInodes.unmarked {files : Set File} (h : PositiveInodes files) {file : File}
    (member : file ∈ files)
    : file.fileId ≠ nullBlock := by
  obtain ⟨low, high⟩ := h file member
  have number : file.fileId = file.stIno.toNat := toInt_eq_self (by omega) (by omega)
  rw [number, nullBlock]
  omega

/-- Without hard links an identity belongs to one file. -/
theorem LinkFree.identified (h : LinkFree root t)
    : ∀ file ∈ filesBelow root t, ∀ other ∈ filesBelow root t,
        file.identity = other.identity → file = other := by
  intro file here other there same
  obtain ⟨place, member⟩ := here
  obtain ⟨otherPlace, otherMember⟩ := there
  have one : place = otherPlace := h.noHardLinks _ _ _ _ member otherMember same
  subst one
  cases Tree.unique member otherMember
  rfl

/-- What a read stores follows the file that was read. -/
theorem LinkFree.pathFollows (h : LinkFree root t) {r : Request} {block : ℤ}
    {id : BlockID} {payload : Payload BlockBuf}
    (known : r.file ∈ filesBelow root first)
    (current : (root ++ place, .file r.file) ∈ t.entries) (named : r.path = render place)
    (inserted : Inserted r block id payload)
    : PathFollows root first t r.file id payload := by
  obtain ⟨rfl, bytes, rfl⟩ := inserted
  have owner : (r.blockID block).1 = r.file.fileId := by simp only [Request.blockID]
  refine ⟨known, owner, ⟨bytes, rfl⟩, fun other there => ?_⟩
  rw [h.noHardLinks _ _ _ _ there current rfl]
  exact named

/-- A rename rewrites the path to the one the file has then; witness: the place it was at. -/
theorem PathFollows.renamed {file : File} {id : BlockID} {payload : Payload BlockBuf}
    (h : PathFollows root first t file id payload)
    (inodes : PositiveInodes (filesBelow root first))
    (moved : RenamedBelow root path newpath t t')
    : PathFollows root first t' file id
        (renamePayload (render path) (render newpath) id payload) := by
  have unmarked : id.1 ≠ nullBlock := by
    rw [h.owner]
    exact inodes.unmarked h.known
  have rewritten : renamePayload (render path) (render newpath) id payload
      = ⟨payload.buff, renamePath (render path) (render newpath) payload.path⟩ := by
    rw [renamePayload, if_neg unmarked]
  rw [rewritten]
  refine ⟨h.known, h.owner, h.content, fun place there => ?_⟩
  obtain ⟨old, before, _, rfl⟩ := (moved.mem_iff _ _).mp there
  rw [h.current old before]
  exact moved.renamePath old

/-- So does renaming a place to itself, since the root is no file. -/
theorem PathFollows.renamed_self {file : File} {id : BlockID} {payload : Payload BlockBuf}
    (h : PathFollows root first t file id payload) (links : LinkFree root t)
    : PathFollows root first t file id
        (renamePayload (render path) (render path) id payload) := by
  unfold renamePayload
  split
  · exact h
  · refine ⟨h.known, h.owner, h.content, fun place there => ?_⟩
    rw [h.current place there]
    exact renamePath_self (links.file_ne_nil there)

/-- What holds between the first state of a run and a later one. -/
structure Following (root : Location) (first : FileTree) (cfg : Sections) {Count : Type}
    (w : World Count)
    : Prop where
  links : LinkFree root w.tree
  known : filesBelow root w.tree ⊆ filesBelow root first
  stored
    : Holds cfg (fun id payload => ∃ file, PathFollows root first w.tree file id payload)
        w.cacheManager

variable {Count : Type} [LinearOrder Count] [OrderTop Count] [One Count] [Add Count]
  [ToString Count] {os : OperatingSystem} {cfg : Sections} {w w' : World Count} {op : ClientOp}

/-- Every step keeps the paths current. -/
theorem Following.step (h : Following root first cfg w)
    (inodes : PositiveInodes (filesBelow root first))
    (next : TreeStep os root w op w')
    : Following root first cfg w' := by
  cases next with
  | read current named performed =>
      obtain ⟨ret, last, called, rfl⟩ := perform_read performed
      refine ⟨h.links, h.known, ?_⟩
      refine h.stored.cachingRead (fun block id payload _ inserted => ?_) called
      exact ⟨_, h.links.pathFollows (h.known ⟨_, current⟩) current named inserted⟩
  | rename performed succeeded =>
      obtain ⟨renamed, cache⟩ := renamed_of_success performed succeeded
      rcases h.links.rename_cases renamed with ⟨rfl, same⟩ | moved
      · refine ⟨same ▸ h.links, same ▸ h.known, ?_⟩
        rw [cache, same]
        refine h.stored.updatePaths (fun id payload stored => ?_)
        obtain ⟨file, follows⟩ := stored
        exact ⟨file, follows.renamed_self h.links⟩
      · refine ⟨h.links.renamed moved, fun file there => ?_, ?_⟩
        · obtain ⟨place, now⟩ := there
          obtain ⟨old, before, _, _⟩ := (moved.mem_iff _ _).mp now
          exact h.known ⟨old, before⟩
        · rw [cache]
          refine h.stored.updatePaths (fun id payload stored => ?_)
          obtain ⟨file, follows⟩ := stored
          exact ⟨file, follows.renamed inodes moved⟩

/-- In every state that reads under current paths and successful renames reach, a cached block
whose file still exists carries that file's current path: the file its bytes came from and,
where the inode number alone names a file, the file of that number.
-/
theorem run_cachedPaths {args : CacheArgs} {labels : List ClientOp}
    (links : LinkFree root first) (inodes : PositiveInodes (filesBelow root first))
    (run : (treeSystem args os root first).Run labels w)
    : ∀ block ∈ w.cacheManager.cacheChain.vals,
        block.blockNumber ≠ nullBlock
        → ∃ origin bytes,
            block.buff = some ⟨origin, bytes⟩
            ∧ ∀ place file,
                (root ++ place, .file file) ∈ w.tree.entries
                → (origin = file.identity → block.path = render place)
                  ∧ (SameDevice (filesBelow root first)
                      → block.fileId = file.fileId
                      → block.path = render place) := by
  have following : Following root first args.sections w := by
    refine System.Run.invariant (fun _ w => Following root first args.sections w) ?_ ?_ run
    · intro w start
      obtain ⟨rfl, cache⟩ := start
      refine ⟨links, subset_rfl, ?_⟩
      rw [cache]
      exact holds_new args
    · intro labels op w w' following next
      exact following.step inodes next
  intro block member real
  obtain ⟨owner, follows⟩ := following.stored.of_real member real
  obtain ⟨bytes, content⟩ := follows.content
  refine ⟨owner.identity, bytes, content, fun place file there => ?_⟩
  have known : file ∈ filesBelow root first := following.known ⟨place, there⟩
  constructor
  · intro same
    obtain rfl := links.identified _ follows.known _ known same
    exact follows.current place there
  · intro device sameId
    have oneDevice : OneDevice (filesBelow root first) :=
      ⟨links.identified, device, fun file member => (inodes file member).2⟩
    obtain rfl := oneDevice.distinctIds _ follows.known _ known (follows.owner.symm.trans sameId)
    exact follows.current place there

def replaceB : ClientOp := .rename [nameE, nameA] [nameB]

def nestedWorld : World Int32 :=
  afterAll permissive (.below (render [])) smallWorld [readDA, moveD, replaceB]

/-- The block of `/d/a` after `/d` is renamed to `/e` and then `/e/a` onto `/b`. -/
theorem run_cachedPaths_nested
    : (treeSystem twoOldArgs permissive [] smallTree).Run [replaceB, moveD, readDA] nestedWorld
      ∧ ∃ block ∈ nestedWorld.cacheManager.cacheChain.vals,
          block.fileId = file7.fileId ∧ block.path = render [nameB] := by
  have replaced : code? permissive (.below (render []))
      (afterAll permissive (.below (render [])) smallWorld [readDA, moveD]) replaceB = some 0 := by
    decide +kernel
  obtain ⟨_, replaced, done⟩ := performed_of_code replaced
  have run : (treeSystem twoOldArgs permissive [] smallTree).Run [replaceB, moveD, readDA]
      nestedWorld :=
    .step (.step (.step (.start ⟨rfl, rfl⟩) readDA_step) moveD_step) (.rename replaced done)
  refine ⟨run, ?_⟩
  have cached : ∃ block ∈ nestedWorld.cacheManager.cacheChain.vals,
      block.fileId = file7.fileId ∧ block.blockNumber ≠ nullBlock := by
    decide +kernel
  obtain ⟨block, member, owner, real⟩ := cached
  have inodes : PositiveInodes (filesBelow [] smallTree) := by
    intro file there
    obtain ⟨place, here⟩ := there
    rcases mem_smallTree here with ⟨_, rfl⟩ | ⟨_, rfl⟩ <;> decide
  have device : SameDevice (filesBelow [] smallTree) := by
    intro file there other otherThere
    obtain ⟨place, here⟩ := there
    obtain ⟨otherPlace, otherHere⟩ := otherThere
    rcases mem_smallTree here with ⟨_, rfl⟩ | ⟨_, rfl⟩ <;>
      rcases mem_smallTree otherHere with ⟨_, rfl⟩ | ⟨_, rfl⟩ <;> rfl
  obtain ⟨_, _, _, follows⟩ := run_cachedPaths smallTree_linkFree inodes run block member real
  have now : ([] ++ [nameB], .file file7) ∈ nestedWorld.tree.entries := by decide +kernel
  exact ⟨block, member, owner, (follows [nameB] file7 now).2 device owner⟩

end CachingFileSystem.FileSystem
