import CachingFileSystem.FileSystem.RenamedTrees

/-! When a cached path names one file. A rename onto a cached file leaves that file's blocks
under a path that is another file's from then on.
-/

namespace CachingFileSystem.FileSystem

open CachingFileSystem.BufferCache
open CachingFileSystem.Containers
open CachingFileSystem.DirectoryTree
open CachingFileSystem.ReplacementPolicy
open CachingFileSystem.Transitions

/-- Blocks under one path are blocks of one file. -/
def PathsIdentify {Count : Type} (s : CacheManager Count BlockBuf) : Prop :=
  ∀ block ∈ s.cacheChain.vals, ∀ other ∈ s.cacheChain.vals,
    block.blockNumber ≠ nullBlock
    → other.blockNumber ≠ nullBlock
    → block.path = other.path
    → block.fileId = other.fileId

instance {Count : Type} (s : CacheManager Count BlockBuf) : Decidable (PathsIdentify s) :=
  inferInstanceAs (Decidable (∀ block ∈ s.cacheChain.vals, ∀ other ∈ s.cacheChain.vals, _))

/-- A block is not under the new path of a rename, nor has it a path to be rewritten and the id
of placeholders, whose paths are left alone.
-/
def UnclaimedBlock (path newpath : Location) (id : BlockID) (payload : Payload BlockBuf) : Prop :=
  payload.path ≠ render newpath
  ∧ (id.1 = nullBlock → (withSlash (render path)).isPrefixOf (withSlash payload.path) = false)

instance (path newpath : Location) (id : BlockID) (payload : Payload BlockBuf)
    : Decidable (UnclaimedBlock path newpath id payload) :=
  inferInstanceAs (Decidable (_ ∧ _))

/-- No cached block is in the way of a rename. -/
def Unclaimed {Count : Type} (s : CacheManager Count BlockBuf) : ClientOp → Prop
  | .rename path newpath =>
      path = newpath
      ∨ ∀ block ∈ s.cacheChain.vals,
          block.blockNumber ≠ nullBlock
          → UnclaimedBlock path newpath block.getBlockId ⟨block.buff, block.path⟩
  | _ => True

/-- A block of a file of the tree, under its path. -/
def Owned (root : Location) (t : FileTree) (id : BlockID) (payload : Payload BlockBuf) : Prop :=
  ∃ place file,
    (root ++ place, .file file) ∈ t.entries
    ∧ id.1 = file.fileId
    ∧ payload.path = render place

variable {root path newpath : Location} {t t' : FileTree} {id : BlockID}
  {payload : Payload BlockBuf}

/-- A rename keeps the owner of a block that it does not replace. -/
theorem Owned.renamed (h : Owned root t id payload)
    (moved : RenamedBelow root path newpath t t')
    (unclaimed : UnclaimedBlock path newpath id payload)
    : Owned root t' id (renamePayload (render path) (render newpath) id payload) := by
  obtain ⟨place, file, member, owner, named⟩ := h
  obtain ⟨other, corrected⟩ := unclaimed
  have outside : ¬ newpath <+: place := by
    intro leading
    rw [moved.replaced _ _ member leading] at named
    exact other named
  refine ⟨Tree.relocate path newpath place, file,
    (moved.mem_iff _ _).mpr ⟨place, member, outside, rfl⟩, owner, ?_⟩
  unfold renamePayload
  split
  · next marked =>
      have apart : ¬ path <+: place := by
        intro leading
        have prefixed := corrected marked
        rw [named, withSlash_render, withSlash_render, Bool.eq_false_iff] at prefixed
        exact prefixed (List.isPrefixOf_iff_prefix.mpr (below_prefix_iff.mpr leading))
      rw [named, Tree.relocate_outside apart]
  · rw [named]
    exact moved.renamePath place

variable {Count : Type} {cfg : Sections} {w w' : World Count} {op : ClientOp}

/-- A state of a tree without hard links in which every cached block is owned. -/
structure AllOwned (root : Location) (cfg : Sections) (w : World Count) : Prop where
  links : LinkFree root w.tree
  owned : Holds cfg (Owned root w.tree) w.cacheManager

/-- Owned blocks under one path have one owner: the file at that place. -/
theorem AllOwned.pathsIdentify (h : AllOwned root cfg w) : PathsIdentify w.cacheManager := by
  intro block member other otherMember real otherReal same
  obtain ⟨place, file, here, owner, named⟩ := h.owned.of_real member real
  obtain ⟨otherPlace, otherFile, there, otherOwner, otherNamed⟩ :=
    h.owned.of_real otherMember otherReal
  have place : place = otherPlace :=
    render_injective (named.symm.trans (same.trans otherNamed))
  subst place
  cases Tree.unique here there
  exact owner.trans otherOwner.symm

variable [LinearOrder Count] [OrderTop Count] [One Count] [Add Count] [ToString Count]
  {os : OperatingSystem}

/-- Reads keep all blocks owned, and so do renames with no block in their way. -/
theorem AllOwned.step (h : AllOwned root cfg w) (unclaimed : Unclaimed w.cacheManager op)
    (next : TreeStep os root w op w')
    : AllOwned root cfg w' := by
  cases next with
  | read current named performed =>
      obtain ⟨ret, last, called, rfl⟩ := perform_read performed
      refine ⟨h.links, ?_⟩
      refine h.owned.cachingRead (fun block id payload _ inserted => ?_) called
      obtain ⟨owner, path⟩ := inserted.owner
      exact ⟨_, _, current, owner, path.trans named⟩
  | @rename _ path newpath _ performed succeeded =>
      obtain ⟨renamed, cache⟩ := renamed_of_success performed succeeded
      rcases h.links.rename_cases renamed with ⟨rfl, same⟩ | moved
      · refine ⟨same ▸ h.links, ?_⟩
        rw [cache, same]
        refine h.owned.updatePaths (fun id payload owned => ?_)
        obtain ⟨place, file, member, owner, named⟩ := owned
        unfold renamePayload
        split
        · exact ⟨place, file, member, owner, named⟩
        · refine ⟨place, file, member, owner, ?_⟩
          rw [named]
          exact renamePath_self (h.links.file_ne_nil member)
      · refine ⟨h.links.renamed moved, ?_⟩
        rw [cache]
        rcases unclaimed with same | unclaimed
        · exact absurd (same ▸ List.prefix_refl _) moved.apart
        · have kept : Holds cfg (fun id payload =>
              Owned root w.tree id payload ∧ UnclaimedBlock path newpath id payload)
              w.cacheManager :=
            h.owned.and unclaimed
          refine kept.updatePaths (fun id payload owned => ?_)
          exact owned.1.renamed moved owned.2

/-- A rename of a cached file onto a cached file with another id gives two files one path: the
block that moves is rewritten, the one that is replaced keeps its path.
-/
theorem AllOwned.renamed_onto (h : AllOwned root cfg w)
    (next : TreeStep os root w (.rename path newpath) w') (distinct : path ≠ newpath)
    {block other : CacheBlock Count BlockBuf} (member : block ∈ w.cacheManager.cacheChain.vals)
    (otherMember : other ∈ w.cacheManager.cacheChain.vals) (real : block.blockNumber ≠ nullBlock)
    (otherReal : other.blockNumber ≠ nullBlock) (here : block.path = render path)
    (unmarked : block.fileId ≠ nullBlock) (there : other.path = render newpath)
    (different : block.fileId ≠ other.fileId)
    : ¬ PathsIdentify w'.cacheManager := by
  intro identify
  cases next with
  | rename performed succeeded =>
      obtain ⟨renamed, cache⟩ := renamed_of_success performed succeeded
      rcases h.links.rename_cases renamed with ⟨same, _⟩ | moved
      · exact distinct same
      · have renamedPath : renamePath (render path) (render newpath) block.path
            = render newpath := by
          rw [here, moved.renamePath, Tree.relocate_source]
        have keptPath : renamePath (render path) (render newpath) other.path = other.path := by
          rw [there, moved.renamePath, Tree.relocate_outside moved.apart]
        have moved := mem_updatePaths (render path) (render newpath) member unmarked
        have kept := mem_updatePaths_of_eq otherMember keptPath
        rw [← cache] at moved kept
        exact different (identify _ moved _ kept real otherReal (renamedPath.trans there.symm))

/-- In runs whose renames have no cached block in their way every cached path names one file. A
rename of a cached file onto a cached file with another id gives two files one path.
-/
theorem run_pathsIdentify {first : FileTree} {args : CacheArgs} {labels : List ClientOp}
    (links : LinkFree root first)
    (run
      : ((treeSystem args os root first).restrict (fun w op => Unclaimed w.cacheManager op)).Run
          labels w)
    : PathsIdentify w.cacheManager
      ∧ ∀ path newpath w',
          TreeStep os root w (.rename path newpath) w'
          → path ≠ newpath
          → ∀ block ∈ w.cacheManager.cacheChain.vals,
              ∀ other ∈ w.cacheManager.cacheChain.vals,
                block.blockNumber ≠ nullBlock
                → other.blockNumber ≠ nullBlock
                → block.path = render path
                → block.fileId ≠ nullBlock
                → other.path = render newpath
                → block.fileId ≠ other.fileId
                → ¬ PathsIdentify w'.cacheManager := by
  have owned : AllOwned root args.sections w := by
    refine System.Run.invariant (fun _ w => AllOwned root args.sections w) ?_ ?_ run
    · intro w start
      obtain ⟨rfl, cache⟩ := start
      refine ⟨links, ?_⟩
      rw [cache]
      exact holds_new args
    · intro labels op w w' before next
      exact before.step next.1 next.2
  refine ⟨owned.pathsIdentify, ?_⟩
  intro path newpath w' next distinct block member other otherMember real otherReal here unmarked
    there different
  exact owned.renamed_onto next distinct member otherMember real otherReal here unmarked there
    different

def readB : ClientOp := .read wholePread (file8.byteRequest (render [nameB]) 0)

/-- Reading `/b` after `/d/a`. -/
theorem readB_step
    : TreeStep permissive [] (after permissive (.below (render [])) smallWorld readDA) readB
        (afterAll permissive (.below (render [])) smallWorld [readDA, readB]) := by
  have code : code? permissive (.below (render []))
      (after permissive (.below (render [])) smallWorld readDA) readB = some 1 := by
    decide +kernel
  obtain ⟨_, performed, _⟩ := performed_of_code code
  have current : ([] ++ [nameB], .file file8)
      ∈ (after permissive (.below (render [])) smallWorld readDA).tree.entries := by
    decide +kernel
  exact .read current rfl performed

/-- Blocks of the files `/d/a` and `/b`, when `/d` is renamed to `/e`. -/
theorem run_pathsIdentify_directory
    : PathsIdentify
        (afterAll permissive (.below (render [])) smallWorld
          [readDA, readB, moveD]).cacheManager := by
  have free : Unclaimed
      (afterAll permissive (.below (render [])) smallWorld [readDA, readB]).cacheManager moveD := by
    refine Or.inr ?_
    decide +kernel
  have code : code? permissive (.below (render []))
      (afterAll permissive (.below (render [])) smallWorld [readDA, readB]) moveD = some 0 := by
    decide +kernel
  obtain ⟨_, performed, done⟩ := performed_of_code code
  have run : ((treeSystem twoOldArgs permissive [] smallTree).restrict
      (fun w op => Unclaimed w.cacheManager op)).Run [moveD, readB, readDA]
      (afterAll permissive (.below (render [])) smallWorld [readDA, readB, moveD]) :=
    .step (.step (.step (.start ⟨rfl, rfl⟩) ⟨trivial, readDA_step⟩) ⟨trivial, readB_step⟩)
      ⟨free, .rename performed done⟩
  exact (run_pathsIdentify smallTree_linkFree run).1

def replaceByA : ClientOp := .rename [nameD, nameA] [nameB]

def ambiguousWorld : World Int32 :=
  afterAll permissive (.below (render [])) smallWorld [readDA, readB, replaceByA]

/-- Blocks of inodes 7 and 8 are both cached under `/b` after `/d/a` is renamed onto `/b`. -/
theorem renamed_onto_cached
    : LinkFree [] smallTree
      ∧ (treeSystem twoOldArgs permissive [] smallTree).Run [replaceByA, readB, readDA]
          ambiguousWorld
      ∧ ¬ PathsIdentify ambiguousWorld.cacheManager := by
  have replaced : code? permissive (.below (render []))
      (afterAll permissive (.below (render [])) smallWorld [readDA, readB]) replaceByA
        = some 0 := by
    decide +kernel
  obtain ⟨_, replaced, done⟩ := performed_of_code replaced
  refine ⟨smallTree_linkFree, .step (.step (.step (.start ⟨rfl, rfl⟩) readDA_step) readB_step)
    (.rename replaced done), ?_⟩
  decide +kernel

end CachingFileSystem.FileSystem
