import CachingFileSystem.BufferCache.RenamedPaths
import CachingFileSystem.FileSystem.MachineSteps
import CachingFileSystem.FileSystem.SingleBytes
import CachingFileSystem.FileSystem.StoredBlocks

/-! Runs of reads and successful renames below a root directory without hard links: what a rename
does to the places below the root, and to the paths of stored blocks.
-/

namespace CachingFileSystem.FileSystem

open CachingFileSystem.BufferCache
open CachingFileSystem.Containers
open CachingFileSystem.DirectoryTree
open CachingFileSystem.ReplacementPolicy
open CachingFileSystem.Transitions

/-- Below a root directory no file has two names. -/
structure LinkFree (root : Location) (t : FileTree) : Prop where
  rooted : ∃ dir, (root, .directory dir) ∈ t.entries
  noHardLinks
    : ∀ place other file otherFile,
        (root ++ place, .file file) ∈ t.entries
        → (root ++ other, .file otherFile) ∈ t.entries
        → file.identity = otherFile.identity
        → place = other

variable {root path newpath place : Location} {t t' : FileTree}

/-- The root is a directory, so a file lies properly below it. -/
theorem LinkFree.file_ne_nil (h : LinkFree root t) {file : File}
    (member : (root ++ place, .file file) ∈ t.entries)
    : place ≠ [] := by
  intro top
  obtain ⟨dir, rooted⟩ := h.rooted
  rw [top, List.append_nil] at member
  cases Tree.unique member rooted

/-- A rename that moves something moves it below the root. -/
structure RenamedBelow (root path newpath : Location) (t t' : FileTree) : Prop where
  source : path ≠ []
  target : newpath ≠ []
  apart : ¬ path <+: newpath
  mem_iff
    : ∀ place node,
        (root ++ place, node) ∈ t'.entries
        ↔ ∃ old,
            (root ++ old, node) ∈ t.entries
            ∧ ¬ newpath <+: old
            ∧ Tree.relocate path newpath old = place
  replaced
    : ∀ place node, (root ++ place, node) ∈ t.entries → newpath <+: place → place = newpath

/-- Moving below the root directory; by cancelling the root in front of all places. -/
theorem Renamed.below
    (renamed : Tree.Renamed sameInode t (root ++ path) (root ++ newpath) t')
    : RenamedBelow root path newpath t t' where
  source := by
    intro top
    subst top
    rw [List.append_nil] at renamed
    exact renamed.movable.apart (List.prefix_append root newpath)
  target := by
    intro top
    subst top
    rw [List.append_nil] at renamed
    exact renamed.movable.outside (List.prefix_append root path)
  apart := mt (List.prefix_append_right_inj root).mpr renamed.movable.apart
  mem_iff := by
    intro place node
    rw [renamed.mem_iff]
    constructor
    · intro moved
      obtain ⟨old, member, outside, same⟩ := moved
      have inside : ∃ rest, old = root ++ rest := by
        rcases Classical.em (root ++ path <+: old) with below | apart
        · obtain ⟨rest, rfl⟩ := below
          exact ⟨path ++ rest, List.append_assoc _ _ _⟩
        · rw [Tree.relocate_outside apart] at same
          exact ⟨place, same⟩
      obtain ⟨rest, rfl⟩ := inside
      rw [Tree.relocate_append] at same
      rw [List.prefix_append_right_inj] at outside
      exact ⟨rest, member, outside, List.append_cancel_left same⟩
    · intro moved
      obtain ⟨old, member, outside, rfl⟩ := moved
      refine ⟨root ++ old, member, ?_, Tree.relocate_append root⟩
      rwa [List.prefix_append_right_inj]
  replaced := by
    intro place node member leading
    have below := (List.prefix_append_right_inj root).mpr leading
    exact List.append_cancel_left (renamed.replaced _ _ member below)

/-- Without hard links a rename that succeeds moves something, or renames a place to itself. -/
theorem LinkFree.rename_cases (h : LinkFree root t)
    (renamed : t.rename sameInode (root ++ path) (root ++ newpath) = .ok t')
    : (path = newpath ∧ t' = t) ∨ RenamedBelow root path newpath t t' := by
  rcases Tree.rename_cases renamed with ⟨kept, rfl⟩ | moved
  · refine Or.inl ⟨?_, rfl⟩
    rcases kept with same | linked
    · exact List.append_cancel_left same
    · unfold Tree.sameFile at linked
      split at linked
      · next file other here there =>
          exact h.noHardLinks _ _ _ _ (Tree.get?_eq_some_iff.mp here)
            (Tree.get?_eq_some_iff.mp there) (of_decide_eq_true linked)
      · cases linked
  · exact Or.inr (Renamed.below moved)

/-- Renaming makes no hard links; witness: where the two names were before. -/
theorem LinkFree.renamed (h : LinkFree root t) (moved : RenamedBelow root path newpath t t')
    : LinkFree root t' where
  rooted := by
    obtain ⟨dir, rooted⟩ := h.rooted
    refine ⟨dir, ?_⟩
    have still := (moved.mem_iff [] (.directory dir)).mpr ⟨[], by rwa [List.append_nil],
      fun top => moved.target (List.prefix_nil.mp top),
      Tree.relocate_outside (fun top => moved.source (List.prefix_nil.mp top))⟩
    rwa [List.append_nil] at still
  noHardLinks := by
    intro place other file otherFile here there same
    obtain ⟨old, member, _, rfl⟩ := (moved.mem_iff _ _).mp here
    obtain ⟨otherOld, otherMember, _, rfl⟩ := (moved.mem_iff _ _).mp there
    rw [h.noHardLinks _ _ _ _ member otherMember same]

/-- The path of a place is rewritten to that of the place it moves to, unless it moves to the root:
there the code leaves no path at all.
-/
theorem renamePath_relocate
    (inner : path <+: place → Tree.relocate path newpath place ≠ [])
    : renamePath (render path) (render newpath) (render place)
      = render (Tree.relocate path newpath place) := by
  rw [renamePath_render]
  split
  · next leading =>
      have moved := inner leading
      rw [Tree.relocate, if_pos leading] at moved ⊢
      rw [render_of_ne_nil moved]
  · next apart => rw [Tree.relocate_outside apart]

/-- So a rename rewrites the path of every place. -/
theorem RenamedBelow.renamePath (moved : RenamedBelow root path newpath t t') (place : Location)
    : renamePath (render path) (render newpath) (render place)
      = render (Tree.relocate path newpath place) := by
  refine renamePath_relocate (fun leading => ?_)
  rw [Tree.relocate, if_pos leading]
  exact List.append_ne_nil_of_left_ne_nil moved.target _

/-- Renaming a path to itself leaves the paths of files as they are. -/
theorem renamePath_self (inner : place ≠ [])
    : renamePath (render path) (render path) (render place) = render place := by
  have kept : Tree.relocate path path place = place := Tree.relocate_self
  rw [renamePath_relocate (fun _ => by rwa [kept]), kept]

-----------------------------------------------------------------------------------------
-- Runs
-----------------------------------------------------------------------------------------

variable {Count : Type} [LinearOrder Count] [OrderTop Count] [One Count] [Add Count]
  [ToString Count]

/-- A read of a file under its current path, or a rename that succeeds. -/
inductive TreeStep (os : OperatingSystem) (root : Location)
    : World Count → ClientOp → World Count → Prop
  | read {w w' pread r reply} {place : Location}
      (current : (root ++ place, .file r.file) ∈ w.tree.entries)
      (named : r.path = render place)
      (performed : perform os (.below (render root)) w (.read pread r) = .ok (reply, w'))
    : TreeStep os root w (.read pread r) w'
  | rename {w w' path newpath reply}
      (performed
        : perform os (.below (render root)) w (.rename path newpath) = .ok (reply, w'))
      (succeeded : reply.code = 0)
    : TreeStep os root w (.rename path newpath) w'

variable {os : OperatingSystem} {w w' : World Count}

/-- A rename that succeeds has renamed in the tree and in the cache. -/
theorem renamed_of_success {reply : Reply}
    (performed : perform os (.below (render root)) w (.rename path newpath) = .ok (reply, w'))
    (succeeded : reply.code = 0)
    : w.tree.rename sameInode (root ++ path) (root ++ newpath) = .ok w'.tree
      ∧ w'.cacheManager = w.cacheManager.updatePaths (render path) (render newpath) := by
  have result := perform_rename performed
  rw [succeeded] at result
  generalize zero : (0 : ℤ) = code at result
  cases result with
  | done _ _ _ renamed cache => exact ⟨renamed, cache⟩
  | failed err =>
      have positive := err.property
      omega

/-- Runs that start with an empty cache over a given tree. -/
def treeSystem (args : CacheArgs) (os : OperatingSystem) (root : Location) (t : FileTree)
    : System (World Count) ClientOp where
  start := fun w => w.tree = t ∧ w.cacheManager = .new args.numberOfBlocks args.fOld args.fNew
  step := TreeStep os root

-----------------------------------------------------------------------------------------
-- Small trees
-----------------------------------------------------------------------------------------

def letter (c : Char) (plain : '/' ∉ [c]) (undotted : [c] ≠ ['.']) : Name :=
  ⟨[c], List.cons_ne_nil c [], plain, by simpa using undotted⟩

def nameA : Name := letter 'a' (by decide) (by decide)
def nameB : Name := letter 'b' (by decide) (by decide)
def nameD : Name := letter 'd' (by decide) (by decide)
def nameE : Name := letter 'e' (by decide) (by decide)

/-- Files of one byte each. -/
def file7 : File := .ofData 1 7 [0]
def file8 : File := .ofData 1 8 [1]

/-- The files `/d/a` and `/b`. -/
def smallTree : FileTree :=
  .ofEntries
    [
      ([], .directory ⟨1, 2⟩),
      ([nameD], .directory ⟨1, 3⟩),
      ([nameD, nameA], .file file7),
      ([nameB], .file file8)
    ]
    (by decide)

def smallWorld : World Int32 where
  tree := smallTree
  cacheManager := .new 4 (1 / 2) (1 / 4)
  descriptors := []
  streams := []

def logFile : File := .ofData 1 9 []

/-- The files `/.filesystem.log` and `/a`. -/
def loggedTree : FileTree :=
  .ofEntries
    [([], .directory ⟨1, 2⟩), ([logName], .file logFile), ([nameA], .file file7)]
    (by decide)

def loggedWorld : World Int32 := { smallWorld with tree := loggedTree }

def readOnly : FuseFileInfo := ⟨0, false, 0⟩

theorem mem_smallTree {place : Location} {file : File}
    (member : (place, .file file) ∈ smallTree.entries)
    : (place = [nameD, nameA] ∧ file = file7) ∨ (place = [nameB] ∧ file = file8) := by
  simpa [smallTree, Tree.ofEntries] using member

theorem smallTree_linkFree : LinkFree [] smallTree where
  rooted := smallTree.root
  noHardLinks := by
    intro place other file otherFile here there same
    rcases mem_smallTree here with ⟨rfl, rfl⟩ | ⟨rfl, rfl⟩ <;>
      rcases mem_smallTree there with ⟨rfl, rfl⟩ | ⟨rfl, rfl⟩
    · rfl
    · exact absurd same (by decide)
    · exact absurd same (by decide)
    · rfl

def readDA : ClientOp := .read wholePread (file7.byteRequest (render [nameD, nameA]) 0)
def moveD : ClientOp := .rename [nameD] [nameE]

/-- Reading `/d/a`, and renaming `/d` to `/e` afterwards. -/
theorem readDA_step
    : TreeStep permissive [] smallWorld readDA
        (after permissive (.below (render [])) smallWorld readDA) := by
  have code : code? permissive (.below (render [])) smallWorld readDA = some 1 := by
    decide +kernel
  obtain ⟨_, performed, _⟩ := performed_of_code code
  have current : ([] ++ [nameD, nameA], .file file7) ∈ smallWorld.tree.entries := by decide
  exact .read current rfl performed

theorem moveD_step
    : TreeStep permissive [] (after permissive (.below (render [])) smallWorld readDA) moveD
        (afterAll permissive (.below (render [])) smallWorld [readDA, moveD]) := by
  have code : code? permissive (.below (render []))
      (after permissive (.below (render [])) smallWorld readDA) moveD = some 0 := by
    decide +kernel
  obtain ⟨_, performed, done⟩ := performed_of_code code
  exact .rename performed done

end CachingFileSystem.FileSystem
