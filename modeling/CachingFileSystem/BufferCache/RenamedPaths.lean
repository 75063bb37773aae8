import CachingFileSystem.DirectoryTree.Names
import CachingFileSystem.BufferCache.CacheManager

/-! What `updatePaths` does to normalized paths: it replaces leading components. -/

namespace CachingFileSystem.BufferCache

open CachingFileSystem.Containers
open CachingFileSystem.DirectoryTree

/-- A slash in front of each of one or more components, and no other slash. -/
def Normalized (path : Path) : Prop :=
  ∃ place : List (Component []), place ≠ [] ∧ path = below place

variable {reserved : List (List Char)}

/-- The path of a place below the root ends in a component; by induction on the place. -/
theorem getLast?_below {place : List (Component reserved)} (inner : place ≠ [])
    : (below place).getLast? ≠ some '/' := by
  induction place with
  | nil => exact absurd rfl inner
  | cons name rest ih =>
      cases rest with
      | nil =>
          intro last
          have member := List.mem_of_getLast? last
          simp only [below, List.append_nil, List.getLast?_cons] at last
          rw [List.getLast?_eq_some_getLast name.nonempty, Option.getD_some,
            Option.some_inj] at last
          exact name.noSlash (last ▸ List.getLast_mem name.nonempty)
      | cons next rest =>
          have later := ih (List.cons_ne_nil _ _)
          intro last
          refine later ?_
          rw [below, ← List.cons_append, List.getLast?_append_of_ne_nil _ (by simp [below])] at last
          exact last

theorem withSlash_below {place : List (Component reserved)} (inner : place ≠ [])
    : withSlash (below place) = below place ++ ['/'] := by
  rw [withSlash, if_pos (getLast?_below inner)]

/-- However a place is spelled, the slash is there once. -/
theorem withSlash_render (place : Location) : withSlash (render place) = below place ++ ['/'] := by
  rcases eq_or_ne place [] with rfl | inner
  · rfl
  · rw [render_of_ne_nil inner, withSlash_below inner]

/-- What follows the slash of the replaced path starts with a component, or is empty. -/
theorem head?_below_slash (place : List (Component reserved))
    : ((below place ++ ['/']).drop 1).head? ≠ some '/' := by
  cases place with
  | nil => simp [below]
  | cons name rest =>
      intro first
      have begins : (name.chars ++ (below rest ++ ['/'])).head? = some '/' := by
        simpa [below] using first
      rw [List.head?_append_of_ne_nil _ name.nonempty] at begins
      exact name.noSlash (List.mem_of_head? begins)

/-- Renaming replaces leading components and leaves every other path alone; witness: a path
with its slash starts with another such path exactly when its components do.
-/
theorem renamePath_components {place newPlace other : List (Component reserved)}
    {path newPath otherPath : Path} (spelled : withSlash path = below place ++ ['/'])
    (newSpelled : withSlash newPath = below newPlace ++ ['/'])
    (otherSpelled : withSlash otherPath = below other ++ ['/'])
    : renamePath path newPath otherPath
      = if place <+: other then below (newPlace ++ other.drop place.length) else otherPath := by
  unfold renamePath
  simp only [spelled, otherSpelled, List.isPrefixOf_iff_prefix, below_prefix_iff]
  split
  · next leading =>
      obtain ⟨rest, rfl⟩ := leading
      obtain ⟨tail, slash⟩ := below_slash rest
      have suffix : (below (place ++ rest) ++ ['/']).drop (below place ++ ['/']).length
          = (below rest ++ ['/']).drop 1 := by
        rw [below_append, List.append_assoc, List.length_append, List.length_singleton,
          ← List.drop_drop, List.drop_left]
      have longer : (if newPath.getLast? ≠ some '/'
            ∧ ((below rest ++ ['/']).drop 1).head? ≠ some '/'
            then newPath ++ ['/'] else newPath)
          = below newPlace ++ ['/'] := by
        simp only [head?_below_slash rest, ne_eq, not_false_eq_true, and_true]
        exact newSpelled
      have joined : below newPlace ++ ['/'] ++ (below rest ++ ['/']).drop 1
          = below (newPlace ++ rest) ++ ['/'] := by
        rw [below_append, List.append_assoc, List.append_assoc, slash]
        rfl
      rw [suffix, longer, joined, List.drop_left, List.getLast?_concat, if_pos rfl,
        List.dropLast_concat]
  · rfl

theorem renamePath_render (place newPlace other : Location)
    : renamePath (render place) (render newPlace) (render other)
      = if place <+: other then below (newPlace ++ other.drop place.length)
        else render other :=
  renamePath_components (withSlash_render place) (withSlash_render newPlace)
    (withSlash_render other)

/-- Of normalized paths the path itself and every path below it are rewritten, no others,
and the result is normalized.
-/
theorem renamePath_normalized {path newPath other : Path} (normalized : Normalized path)
    (newNormalized : Normalized newPath) (otherNormalized : Normalized other)
    : renamePath path newPath path = newPath
      ∧ (∀ rest, other = path ++ '/' :: rest
          → renamePath path newPath other = newPath ++ '/' :: rest)
      ∧ (other ≠ path
          → ¬ path ++ ['/'] <+: other
          → renamePath path newPath other = other)
      ∧ Normalized (renamePath path newPath other) := by
  obtain ⟨place, inner, rfl⟩ := normalized
  obtain ⟨newPlace, newInner, rfl⟩ := newNormalized
  obtain ⟨there, otherInner, rfl⟩ := otherNormalized
  have itself := renamePath_components (withSlash_below inner) (withSlash_below newInner)
    (withSlash_below inner)
  have another := renamePath_components (withSlash_below inner) (withSlash_below newInner)
    (withSlash_below otherInner)
  refine ⟨?_, ?_, ?_, ?_⟩
  · rw [itself, if_pos (List.prefix_refl place), List.drop_length, List.append_nil]
  · intro rest split
    have leading : place <+: there := by
      refine below_prefix_iff.mp ⟨rest ++ ['/'], ?_⟩
      rw [split]
      simp only [List.append_assoc, List.cons_append, List.nil_append]
    obtain ⟨last, rfl⟩ := leading
    rw [below_append] at split
    have tail : below last = '/' :: rest := List.append_cancel_left split
    rw [another, if_pos (List.prefix_append place last), List.drop_left, below_append, tail]
  · intro different apart
    have outside : ¬ place <+: there := by
      intro leading
      obtain ⟨last, rfl⟩ := leading
      rcases eq_or_ne last [] with rfl | more
      · exact different (by rw [List.append_nil])
      · refine apart ?_
        obtain ⟨name, rest, rfl⟩ := List.exists_cons_of_ne_nil more
        rw [below_append]
        exact ⟨name.chars ++ below rest, List.append_assoc _ _ _⟩
    rw [another, if_neg outside]
  · rw [another]
    split
    · next leading =>
        have inside : newPlace ++ there.drop place.length ≠ [] := by
          intro none
          exact newInner (List.append_eq_nil_iff.mp none).1
        exact ⟨_, inside, rfl⟩
    · exact ⟨there, otherInner, rfl⟩

variable {Count Buf : Type}

/-- Renaming leaves everything but paths alone, and rewrites the paths of all blocks but
those with the id of a placeholder by replacing leading components.
-/
theorem updatePaths_spec (s : CacheManager Count Buf) {pathPrefix newPathPrefix : Path}
    (normalized : Normalized pathPrefix) (newNormalized : Normalized newPathPrefix)
    : (s.updatePaths pathPrefix newPathPrefix).numberOfBlocks = s.numberOfBlocks
      ∧ (s.updatePaths pathPrefix newPathPrefix).blocksMap = s.blocksMap
      ∧ (s.updatePaths pathPrefix newPathPrefix).middleSectionIter = s.middleSectionIter
      ∧ (s.updatePaths pathPrefix newPathPrefix).oldSectionIter = s.oldSectionIter
      ∧ (s.updatePaths pathPrefix newPathPrefix).cacheChain.addrs = s.cacheChain.addrs
      ∧ (s.updatePaths pathPrefix newPathPrefix).cacheChain.vals.length
        = s.cacheChain.vals.length
      ∧ ∀ (i : ℕ) (block : CacheBlock Count Buf),
          s.cacheChain.vals[i]? = some block
          → ∃ path,
              (s.updatePaths pathPrefix newPathPrefix).cacheChain.vals[i]?
                = some { block with path := path }
              ∧ (block.fileId = nullBlock → path = block.path)
              ∧ (block.fileId ≠ nullBlock
                  → Normalized block.path
                  → Normalized path
                    ∧ (block.path = pathPrefix → path = newPathPrefix)
                    ∧ (∀ rest, block.path = pathPrefix ++ '/' :: rest
                        → path = newPathPrefix ++ '/' :: rest)
                    ∧ (block.path ≠ pathPrefix
                        → ¬ pathPrefix ++ ['/'] <+: block.path
                        → path = block.path)) := by
  refine ⟨rfl, rfl, rfl, rfl, NodeList.addrs_map _ _, ?_, ?_⟩
  · rw [CacheManager.updatePaths, NodeList.vals_map, List.length_map]
  · intro i block here
    rw [CacheManager.updatePaths, NodeList.vals_map, List.getElem?_map, here, Option.map_some]
    rcases eq_or_ne block.fileId nullBlock with marked | unmarked
    · refine ⟨block.path, ?_, fun _ => rfl, fun unmarked => absurd marked unmarked⟩
      rw [if_pos marked]
    · refine ⟨renamePath pathPrefix newPathPrefix block.path, ?_,
        fun marked => absurd marked unmarked, ?_⟩
      · rw [if_neg unmarked]
        rfl
      · intro _ blockNormalized
        obtain ⟨same, under, apart, result⟩ :=
          renamePath_normalized normalized newNormalized blockNormalized
        refine ⟨result, ?_, under, apart⟩
        intro equal
        rw [equal, same]

/-- A block of the file `/a/b`, put on top of the placeholders. -/
theorem updatePaths_spec_directory
    : ∃ path,
        (((CacheManager.new 4 (1 / 2) (1 / 4)).putAtTop
          (.new 7 0 (some "data") (some ['/', 'a', '/', 'b']) : CacheBlock Int32 String)
          ).updatePaths ['/', 'a'] ['/', 'c']).cacheChain.vals[0]?
          = some { (.new 7 0 (some "data") none : CacheBlock Int32 String) with path := path }
        ∧ path = ['/', 'c', '/', 'b'] := by
  have name (c : Char) (plain : c ≠ '/') : Normalized ['/', c] :=
    ⟨[⟨[c], by simp, by simpa using plain.symm, by simp⟩], by simp, rfl⟩
  have spec := updatePaths_spec ((CacheManager.new 4 (1 / 2) (1 / 4)).putAtTop
    (.new 7 0 (some "data") (some ['/', 'a', '/', 'b']) : CacheBlock Int32 String))
    (name 'a' (by decide)) (name 'c' (by decide))
  obtain ⟨_, _, _, _, _, _, blocks⟩ := spec
  obtain ⟨path, here, _, renamed⟩ := blocks 0 _ rfl
  have file : Normalized ['/', 'a', '/', 'b'] :=
    ⟨[⟨['a'], by simp, by decide, by simp⟩, ⟨['b'], by simp, by decide, by simp⟩], by simp, rfl⟩
  exact ⟨path, here, (renamed (by decide) file).2.2.1 ['b'] rfl⟩

end CachingFileSystem.BufferCache
