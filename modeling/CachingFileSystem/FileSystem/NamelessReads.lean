import CachingFileSystem.FileSystem.PlaceholderTests
import CachingFileSystem.FileSystem.RenameOrder

/-! Names decide what the table shows and which file is the log, but never what a read answers:
runs with the same reads under any names, and any renames in between, answer alike.
-/

namespace CachingFileSystem.FileSystem

open CachingFileSystem.BufferCache
open CachingFileSystem.Containers
open CachingFileSystem.Transitions

/-- What a read returns, stores for its caller and reads from the disk. -/
structure ReadAnswer where
  ret : ℤ
  buf : List (Option UInt8)
  preads : List (BlockID × Bool)

section Answers

variable {Count : Type} [LinearOrder Count] [OrderTop Count] [One Count] [Add Count]

def answerRead (cfs : CfsState) (s : CacheManager Count BlockBuf) (call : Pread × Request)
    : Except Halt (ReadAnswer × CacheManager Count BlockBuf) := do
  let (ret, st) ← cachingRead cfs call.1 s call.2
  .ok (⟨ret, st.buf, st.preads⟩, st.cacheManager)

/-- The answers of the reads in a sequence of calls, and the cache it leaves. -/
def readAnswers (cfs : CfsState)
    : List CacheCall
      → CacheManager Count BlockBuf
      → Except Halt (List ReadAnswer × CacheManager Count BlockBuf)
  | [], s => .ok ([], s)
  | .read pread r :: calls, s => do
      let (answer, s) ← answerRead cfs s (pread, r)
      let (answers, s) ← readAnswers cfs calls s
      .ok (answer :: answers, s)
  | .rename rename path newpath :: calls, s =>
      readAnswers cfs calls (cachingRename cfs rename s path newpath).2

end Answers

/-- The reads of a sequence of calls, without their paths. -/
def nameless : List CacheCall → List (Pread × Request)
  | [] => []
  | .read pread r :: calls => (pread, r.withPath []) :: nameless calls
  | .rename _ _ _ :: calls => nameless calls

/-- All blocks lose their paths. -/
def unnamed : PathMap := fun _ _ => []

def ReadsNoLog (cfs : CfsState) (calls : List CacheCall) : Prop :=
  ∀ pread r, CacheCall.read pread r ∈ calls → NotLog cfs r

section Names

variable {Count : Type} {cfs : CfsState} {calls calls' : List CacheCall}
  {s s' : CacheManager Count BlockBuf}

theorem unnamed_updatePaths (path newpath : Path)
    : (s.updatePaths path newpath).mapPaths unnamed = s.mapPaths unnamed := by
  rw [CacheManager.updatePaths_eq_mapPaths, CacheManager.mapPaths_mapPaths]
  rfl

/-- A rename changes nothing but paths. -/
theorem unnamed_cachingRename (rename : Path → Path → Except ℤ ℤ) (path newpath : Path)
    : (cachingRename cfs rename s path newpath).2.mapPaths unnamed = s.mapPaths unnamed := by
  unfold cachingRename cachingRenameAt
  split
  · rfl
  · split
    · rfl
    · exact unnamed_updatePaths path newpath

variable [LinearOrder Count] [OrderTop Count] [One Count] [Add Count]

/-- A read answers as it does for nameless blocks. -/
theorem answerRead_unnamed {pread : Pread} {r : Request} (notLog : NotLog cfs r)
    : answerRead (.below []) (s.mapPaths unnamed) (pread, r.withPath [])
      = Prod.map id (CacheManager.mapPaths unnamed) <$> answerRead cfs s (pread, r) := by
  have changes : Changes unnamed r [] := fun _ => rfl
  have notLog' : NotLog (.below []) (r.withPath []) := by
    rw [NotLog]
    change ([] : Path) ≠ _
    decide
  simp only [answerRead, cachingRead_mapPaths changes notLog notLog' s, map_bind, bind_map_left]
  rfl

/-- So does a sequence of calls; by induction on it, renames left out on the way. -/
theorem readAnswers_unnamed (noLog : ReadsNoLog cfs calls) (s : CacheManager Count BlockBuf)
    : Prod.map id (CacheManager.mapPaths unnamed) <$> readAnswers cfs calls s
      = runAll (answerRead (.below [])) (nameless calls) (s.mapPaths unnamed) := by
  induction calls generalizing s with
  | nil => rfl
  | cons call calls ih =>
      have later : ReadsNoLog cfs calls := fun pread r member =>
        noLog pread r (List.mem_cons_of_mem _ member)
      cases call with
      | read pread r =>
          have notLog := noLog pread r List.mem_cons_self
          simp only [readAnswers, nameless, runAll, answerRead_unnamed notLog, map_bind,
            bind_map_left]
          refine congrArg _ (funext (fun answer => ?_))
          obtain ⟨answer, next⟩ := answer
          simp only [Prod.map_apply, id_eq, ← ih later next, bind_map_left]
          rfl
      | rename rename path newpath =>
          rw [readAnswers, nameless, ih later, unnamed_cachingRename]

end Names

def firstByteOf (file : File) (path : Path) : CacheCall :=
  .read wholePread (file.byteRequest path 0)

end CachingFileSystem.FileSystem
