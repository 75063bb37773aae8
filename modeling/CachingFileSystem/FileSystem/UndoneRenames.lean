import CachingFileSystem.DirectoryTree.RenameBack
import CachingFileSystem.FileSystem.RenamedTrees

/-! Renaming back. The path of every cached block is that of something in the tree, so no block is
under a path where nothing is, and a rename to such a path can be undone in the cache as well.
-/

namespace CachingFileSystem.FileSystem

open CachingFileSystem.BufferCache
open CachingFileSystem.Containers
open CachingFileSystem.DirectoryTree
open CachingFileSystem.ReplacementPolicy
open CachingFileSystem.Transitions

-----------------------------------------------------------------------------------------
-- Paths of cached blocks
-----------------------------------------------------------------------------------------

/-- The directory that is mounted exists. -/
def Rooted (root : Location) (t : FileTree) : Prop := ∃ dir, (root, .directory dir) ∈ t.entries

/-- A block whose path is kept up has the path of something below the root. -/
def PathPresent (root : Location) (t : FileTree) (id : BlockID) (payload : Payload BlockBuf)
    : Prop :=
  id.1 ≠ nullBlock
  → ∃ place node,
      place ≠ []
      ∧ (root ++ place, node) ∈ t.entries
      ∧ payload.path = render place

variable {root path newpath place : Location} {t t' : FileTree}

/-- Nothing moves the root. -/
theorem RenamedBelow.root_mem (moved : RenamedBelow root path newpath t t') {node : FileNode}
    (rooted : (root, node) ∈ t.entries)
    : (root, node) ∈ t'.entries := by
  have stays := (moved.mem_iff [] node).mpr ⟨[], by rwa [List.append_nil],
    fun top => moved.target (List.prefix_nil.mp top),
    Tree.relocate_outside (fun top => moved.source (List.prefix_nil.mp top))⟩
  rwa [List.append_nil] at stays

theorem Rooted.renamed (rooted : Rooted root t)
    (renamed : t.rename sameInode (root ++ path) (root ++ newpath) = .ok t')
    : Rooted root t' := by
  obtain ⟨dir, member⟩ := rooted
  rcases Tree.rename_cases renamed with ⟨_, rfl⟩ | moved
  · exact ⟨dir, member⟩
  · exact ⟨dir, (Renamed.below moved).root_mem member⟩

/-- Where something was, or where it moves to, there is something after a rename: what was
replaced leaves its place to what replaces it, and links to one file both stay.
-/
theorem Rooted.exists_relocated (rooted : Rooted root t)
    (renamed : t.rename sameInode (root ++ path) (root ++ newpath) = .ok t') {node : FileNode}
    (member : (root ++ place, node) ∈ t.entries) (inner : place ≠ [])
    : Tree.relocate path newpath place ≠ []
      ∧ ∃ other, (root ++ Tree.relocate path newpath place, other) ∈ t'.entries := by
  rcases Tree.rename_cases renamed with ⟨same | linked, rfl⟩ | moved
  · obtain rfl := List.append_cancel_left same
    rw [Tree.relocate_self]
    exact ⟨inner, node, member⟩
  · unfold Tree.sameFile at linked
    split at linked
    · next file other here there =>
        have source := Tree.get?_eq_some_iff.mp here
        have target := Tree.get?_eq_some_iff.mp there
        by_cases below : path <+: place
        · obtain ⟨rest, rfl⟩ := below
          rw [← List.append_assoc] at member
          have top : rest = [] := by
            have equal := Tree.eq_of_below_file source member (List.prefix_append _ _)
            exact List.append_cancel_left (equal.trans (List.append_nil _).symm)
          subst top
          rw [List.append_nil, Tree.relocate_source]
          refine ⟨?_, _, target⟩
          intro empty
          obtain ⟨dir, directory⟩ := rooted
          rw [empty, List.append_nil] at target
          cases Tree.unique target directory
        · rw [Tree.relocate_outside below]
          exact ⟨inner, node, member⟩
    · cases linked
  · have below := Renamed.below moved
    by_cases inside : newpath <+: place
    · have same := below.replaced _ _ member inside
      subst same
      rw [Tree.relocate_outside below.apart]
      refine ⟨inner, ?_⟩
      obtain ⟨source, present⟩ := moved.present
      refine ⟨source, moved.mem_iff.mpr ⟨_, present, moved.movable.outside, ?_⟩⟩
      exact Tree.relocate_source
    · have there := (below.mem_iff _ node).mpr ⟨place, member, inside, rfl⟩
      refine ⟨?_, node, there⟩
      rw [Tree.relocate]
      split
      · exact List.append_ne_nil_of_left_ne_nil below.target _
      · exact inner

/-- So a rename leaves every block under the path of something. -/
theorem PathPresent.renamed {id : BlockID} {payload : Payload BlockBuf}
    (h : PathPresent root t id payload) (rooted : Rooted root t)
    (renamed : t.rename sameInode (root ++ path) (root ++ newpath) = .ok t')
    : PathPresent root t' id (renamePayload (render path) (render newpath) id payload) := by
  intro unmarked
  obtain ⟨place, node, inner, member, named⟩ := h unmarked
  obtain ⟨innerThen, other, there⟩ := rooted.exists_relocated renamed member inner
  refine ⟨_, other, innerThen, there, ?_⟩
  rw [renamePayload, if_neg unmarked, named]
  exact renamePath_relocate (fun _ => innerThen)

/-- The mounted directory exists, and so does what the cached blocks are named after. -/
structure PathsPresent (root : Location) (cfg : Sections) {Count : Type} (w : World Count)
    : Prop where
  rooted : Rooted root w.tree
  present : Holds cfg (PathPresent root w.tree) w.cacheManager

variable {Count : Type} {cfg : Sections} {w w' : World Count}

/-- In particular a block of the chain whose path a rename may change. -/
theorem PathsPresent.of_member (h : PathsPresent root cfg w) {block : CacheBlock Count BlockBuf}
    (member : block ∈ w.cacheManager.cacheChain.vals) (unmarked : block.fileId ≠ nullBlock)
    : ∃ place node,
        place ≠ [] ∧ (root ++ place, node) ∈ w.tree.entries ∧ block.path = render place := by
  have real : block.blockNumber ≠ nullBlock := by
    obtain ⟨c, represents, _⟩ := h.present
    obtain ⟨nulls, chain, null, _⟩ := represents.chain
    have inChain : block.entry ∈ w.cacheManager.entries := List.mem_map_of_mem member
    rw [chain] at inChain
    rcases List.mem_append.mp inChain with entry | placeholder
    · exact represents.real _ entry
    · exact absurd (congrArg Prod.fst (null _ placeholder)) unmarked
  exact h.present.of_real member real unmarked

variable [LinearOrder Count] [OrderTop Count] [One Count] [Add Count] [ToString Count]
  {os : OperatingSystem}

/-- Reads under current paths and renames keep it so. -/
theorem PathsPresent.step {op : ClientOp} (h : PathsPresent root cfg w)
    (next : TreeStep os root w op w')
    : PathsPresent root cfg w' := by
  cases next with
  | @read _ _ _ _ place current named performed =>
      obtain ⟨ret, last, called, rfl⟩ := perform_read performed
      refine ⟨h.rooted, h.present.cachingRead (fun block id payload _ inserted => ?_) called⟩
      intro _
      have inner : place ≠ [] := by
        intro top
        obtain ⟨dir, rooted⟩ := h.rooted
        rw [top, List.append_nil] at current
        cases Tree.unique current rooted
      exact ⟨place, _, inner, current, inserted.owner.2.trans named⟩
  | rename performed succeeded =>
      obtain ⟨renamed, cache⟩ := renamed_of_success performed succeeded
      refine ⟨h.rooted.renamed renamed, ?_⟩
      rw [cache]
      exact h.present.updatePaths (fun id payload present => present.renamed h.rooted renamed)

/-- It is so in every state that reads under current paths and renames reach. -/
theorem run_pathsPresent {args : CacheArgs} {first : FileTree} {labels : List ClientOp}
    (rooted : Rooted root first) (run : (treeSystem args os root first).Run labels w)
    : PathsPresent root args.sections w := by
  refine System.Run.invariant (fun _ w => PathsPresent root args.sections w) ?_ ?_ run
  · intro w start
    obtain ⟨rfl, cache⟩ := start
    refine ⟨rooted, ?_⟩
    rw [cache]
    exact holds_new args
  · intro labels op w w' before next
    exact before.step next

-----------------------------------------------------------------------------------------
-- Renaming back
-----------------------------------------------------------------------------------------

/-- A rename that succeeds to a path where nothing was, which is not the log's. -/
structure FreeRename (os : OperatingSystem) (root : Location) (w : World Count)
    (move : Location × Location) (w' : World Count)
    : Prop where
  notLog : move.2 ≠ [logName]
  free : ∀ node, (root ++ move.2, node) ∉ w.tree.entries
  succeeded
    : ∃ reply,
        perform os (.below (render root)) w (.rename move.1 move.2) = .ok (reply, w')
        ∧ reply.code = 0

theorem PathsPresent.of_freeRename {move : Location × Location} (h : PathsPresent root cfg w)
    (renamed : FreeRename os root w move w')
    : PathsPresent root cfg w' := by
  obtain ⟨_, performed, succeeded⟩ := renamed.succeeded
  exact h.step (.rename performed succeeded)

/-- The path of a place not below the new path is rewritten back to what it was. -/
theorem RenamedBelow.comes_back (moved : RenamedBelow root path newpath t t')
    (inner : place ≠ []) (outside : ¬ newpath <+: place)
    : BufferCache.renamePath (render newpath) (render path)
        (BufferCache.renamePath (render path) (render newpath) (render place))
      = render place := by
  have back : Tree.relocate newpath path (Tree.relocate path newpath place) = place :=
    Tree.relocate_back outside
  rw [moved.renamePath, renamePath_relocate (fun _ => by rwa [back]), back]

omit [LinearOrder Count] [OrderTop Count] [One Count] [Add Count] [ToString Count] in
/-- Paths that all come back leave the cache as it was. -/
theorem updatePaths_back {s : CacheManager Count BlockBuf} {old new : Path}
    (back
      : ∀ block ∈ s.cacheChain.vals,
          block.fileId ≠ nullBlock
          → renamePath new old (renamePath old new block.path) = block.path)
    : (s.updatePaths old new).updatePaths new old = s := by
  have nodes : ((s.updatePaths old new).updatePaths new old).cacheChain.nodes
      = s.cacheChain.nodes := by
    simp only [CacheManager.updatePaths, NodeList.map, List.map_map]
    refine (List.map_congr_left (fun node member => ?_)).trans (List.map_id _)
    have block : node.val ∈ s.cacheChain.vals := List.mem_map_of_mem member
    by_cases marked : node.val.fileId = nullBlock
    · simp only [Function.comp_apply, Node.map, if_pos marked]
      rfl
    · simp only [Function.comp_apply, Node.map, if_neg marked, CacheBlock.setPath,
        back _ block marked]
      rfl
  obtain ⟨_, _, ⟨_, _, _, _, _⟩, _, _⟩ := s
  simp only [CacheManager.updatePaths, NodeList.map] at nodes ⊢
  simp only [nodes]

/-- The system refuses no rename that the tree allows. -/
def OperatingSystem.RefusesNoRename (os : OperatingSystem) : Prop :=
  ∀ source moved target replaced, os.refusedRename source moved target replaced = none

/-- A free rename is undone by the opposite one, which is free as well: the tree, the paths of the
cached blocks and all else are what they were.
-/
theorem PathsPresent.back {move : Location × Location} (h : PathsPresent root cfg w)
    (permits : os.RefusesNoRename) (renamed : FreeRename os root w move w')
    : FreeRename os root w' move.swap w := by
  obtain ⟨path, newpath⟩ := move
  obtain ⟨notLog, free, reply, performed, succeeded⟩ := renamed
  have result := perform_rename performed
  rw [succeeded] at result
  generalize zero : (0 : ℤ) = code at result
  cases result with
  | failed err =>
      have positive := err.property
      omega
  | done sourceNotLog fits newFits inTree cache descriptors streams =>
      have moved := Tree.renamed_of_absent inTree free
      have below := Renamed.below moved
      have treeBack := Tree.rename_back moved free
      have cacheBack : w'.cacheManager.updatePaths (render newpath) (render path)
          = w.cacheManager := by
        rw [cache]
        refine updatePaths_back (fun block member unmarked => ?_)
        obtain ⟨place, node, inner, there, named⟩ := h.of_member member unmarked
        rw [named]
        refine below.comes_back inner (fun leading => ?_)
        exact Tree.not_below_of_absent free there ((List.prefix_append_right_inj root).mpr leading)
      refine ⟨sourceNotLog, moved.vacant, ?_⟩
      have called := renameIn_eq_ok_iff.mpr ⟨newFits, fits, treeBack, permits _ _ _ _⟩
      refine ⟨{ code := 0 }, (perform_rename_ok notLog called).trans ?_, rfl⟩
      rw [cacheBack, descriptors, streams]

/-- After any reads under current paths and any renames, renames to free paths are all undone by
the opposite renames in the opposite order: the tree, the handles and the whole cache are what
they were, and every rename back succeeds if the system refuses none.
-/
theorem run_renamesUndone {args : CacheArgs} {first : FileTree} {labels : List ClientOp}
    {moves : List (Location × Location)} (permits : os.RefusesNoRename)
    (rooted : Rooted root first) (run : (treeSystem args os root first).Run labels w)
    (renamed : Steps (FreeRename os root) w moves w')
    : Steps (FreeRename os root) w' (moves.reverse.map Prod.swap) w := by
  have keeps (w : World Count) (move : Location × Location) (w' : World Count)
      (present : PathsPresent root args.sections w) (next : FreeRename os root w move w')
      : PathsPresent root args.sections w' :=
    present.of_freeRename next
  have back (w : World Count) (move : Location × Location) (w' : World Count)
      (present : PathsPresent root args.sections w) (next : FreeRename os root w move w')
      : FreeRename os root w' move.swap w :=
    present.back permits next
  exact (Steps.undone keeps back (run_pathsPresent rooted run) renamed).2

def moveA : ClientOp := .rename [nameE, nameA] [nameA]

/-- The states before the renames, between them and after them. -/
def cachedWorld : World Int32 := after permissive (.below (render [])) smallWorld readDA
def renamedWorld : World Int32 :=
  afterAll permissive (.below (render [])) smallWorld [readDA, moveD]
def twiceRenamedWorld : World Int32 :=
  afterAll permissive (.below (render [])) smallWorld [readDA, moveD, moveA]

/-- `/d` is renamed to `/e` and `/e/a` to `/a`, with a block of the file in the cache. -/
theorem run_renamesUndone_twice
    : Steps (FreeRename permissive []) twiceRenamedWorld
        [([nameE], [nameD]), ([nameA], [nameE, nameA])] cachedWorld := by
  have rooted : Rooted [] smallTree := smallTree.root
  have run : (treeSystem twoOldArgs permissive [] smallTree).Run [readDA] cachedWorld :=
    .step (.start ⟨rfl, rfl⟩) readDA_step
  have noE : cachedWorld.tree.get? [nameE] = none := by decide +kernel
  have noA : renamedWorld.tree.get? [nameA] = none := by decide +kernel
  have moved : code? permissive (.below (render [])) cachedWorld moveD = some 0 := by
    decide +kernel
  have movedAgain : code? permissive (.below (render [])) renamedWorld moveA = some 0 := by
    decide +kernel
  have first : FreeRename permissive [] cachedWorld ([nameD], [nameE]) renamedWorld :=
    ⟨by decide, Tree.get?_eq_none_iff.mp noE, performed_of_code moved⟩
  have second : FreeRename permissive [] renamedWorld ([nameE, nameA], [nameA]) twiceRenamedWorld :=
    ⟨by decide, Tree.get?_eq_none_iff.mp noA, performed_of_code movedAgain⟩
  exact run_renamesUndone (fun _ _ _ _ => rfl) rooted run (.more (.more .none first) second)

end CachingFileSystem.FileSystem
