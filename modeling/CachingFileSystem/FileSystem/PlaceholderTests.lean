import CachingFileSystem.BufferCache.ConstructedNodes
import CachingFileSystem.FileSystem.Collisions
import CachingFileSystem.FileSystem.StoredBlocks

/-! How placeholders are told from blocks: insertions and the table test the block number,
renames test the file id, which is narrowed from an inode.
-/

namespace CachingFileSystem.FileSystem

open CachingFileSystem.BufferCache
open CachingFileSystem.Containers
open CachingFileSystem.ReplacementPolicy
open CachingFileSystem.Transitions

section Tests

variable {Count : Type} [LinearOrder Count] [OrderTop Count] [One Count] [Add Count]
  [ToString Count]

/-- Both tests agree on every node, and tell the nodes the constructor created from the others.
So a rename rewrites all other nodes, an insertion that takes a free place leaves them in the
chain, and they are the rows of the table.
-/
structure PlaceholdersTold (args : CacheArgs) (s : CacheManager Count BlockBuf) : Prop where
  agree
    : ∀ node ∈ s.cacheChain.nodes,
        (node.val.fileId = nullBlock ↔ node.val.blockNumber = nullBlock)
        ∧ (node.val.blockNumber = nullBlock ↔ Constructed Count BlockBuf args node.addr)
  renamed
    : ∀ path newpath,
        ∀ node ∈ s.cacheChain.nodes,
          ¬ Constructed Count BlockBuf args node.addr
          → node.map (.setPath (renamePath path newpath node.val.path))
            ∈ (s.updatePaths path newpath).cacheChain.nodes
  kept
    : ∀ fileId blockNumber buff path s',
        s.insertAndRemove fileId blockNumber buff path = .ok (none, s')
        → ∀ node ∈ s.cacheChain.nodes,
            ¬ Constructed Count BlockBuf args node.addr → node ∈ s'.cacheChain.nodes
  printed
    : s.cacheToString
      = s.cacheChain.nodes.reverse.flatMap (fun node =>
          if Constructed Count BlockBuf args node.addr then []
          else tableRow node.val.path node.val.blockNumber node.val.refCount)

variable {args : CacheArgs} {s s' : CacheManager Count BlockBuf}

/-- The rest follows from the tests; by the test each operation uses. -/
theorem PlaceholdersTold.of_agree
    (agree
      : ∀ node ∈ s.cacheChain.nodes,
          (node.val.fileId = nullBlock ↔ node.val.blockNumber = nullBlock)
          ∧ (node.val.blockNumber = nullBlock ↔ Constructed Count BlockBuf args node.addr))
    : PlaceholdersTold args s where
  agree := agree
  renamed := by
    intro path newpath node member later
    have unmarked : node.val.fileId ≠ nullBlock := by
      obtain ⟨sameTests, byAddr⟩ := agree node member
      exact fun marked => later (byAddr.mp (sameTests.mp marked))
    refine List.mem_map.mpr ⟨node, member, ?_⟩
    simp only [Node.map, if_neg unmarked]
  kept := by
    intro fileId blockNumber buff path s' removal node member later
    exact insertAndRemove_free removal member (mt (agree node member).2.mp later)
  printed := by
    rw [CacheManager.cacheToString, NodeList.vals, ← List.map_reverse, List.flatMap_map]
    refine List.flatMap_congr (fun node member => ?_)
    have byAddr := (agree node (List.mem_reverse.mp member)).2
    by_cases created : Constructed Count BlockBuf args node.addr
    · rw [if_pos created, if_neg (not_not.mpr (byAddr.mpr created))]
    · rw [if_neg created, if_pos (mt byAddr.mp created)]

end Tests

-----------------------------------------------------------------------------------------
-- Calls
-----------------------------------------------------------------------------------------

section Calls

variable {cfg : Sections} {Count : Type} [LinearOrder Count] [OrderTop Count] [One Count]
  [Add Count]

/-- The calls that use the cache, each with its own outcomes of the system calls. -/
inductive CacheCall where
  | read (pread : Pread) (r : Request)
  | rename (rename : Path → Path → Except ℤ ℤ) (path newpath : Path)

/-- What a call that returns does to the cache. -/
inductive CallStep (cfs : CfsState) (s : CacheManager Count BlockBuf)
    : CacheCall → CacheManager Count BlockBuf → Prop
  | read {pread r ret st} (called : cachingRead cfs pread s r = .ok (ret, st))
    : CallStep cfs s (.read pread r) st.cacheManager
  | rename (rename : Path → Path → Except ℤ ℤ) (path newpath : Path)
    : CallStep cfs s (.rename rename path newpath) (cachingRename cfs rename s path newpath).2

/-- Any calls on any files, from a new cache on. -/
def callSystem (args : CacheArgs) (cfs : CfsState)
    : System (CacheManager Count BlockBuf) CacheCall where
  start s := s = .new args.numberOfBlocks args.fOld args.fNew
  step := CallStep cfs

/-- A read of a file whose inode converts to the file id of placeholders, in which `pread`
answers with the first block of the request.
-/
structure ReadsMarked (cfs : CfsState) (pread : Pread) (r : Request) : Prop where
  inode : r.file.stIno.toNat % 2 ^ 32 = 2 ^ 32 - 1
  notLog : NotLog cfs r
  inside : r.Inside
  positive : 0 < r.remainingData
  answered
    : ∃ bytes,
        pread r.file (toSize r.file.blockSize) (r.firstBlock * r.file.blockSize) = .ok bytes

def MarksBlock (cfs : CfsState) : CacheCall → Prop
  | .read pread r => ReadsMarked cfs pread r
  | .rename _ _ _ => False

theorem fileId_eq_nullBlock_iff {file : File}
    : file.fileId = nullBlock ↔ file.stIno.toNat % 2 ^ 32 = 2 ^ 32 - 1 := by
  simp only [File.fileId, toInt, nullBlock, Int.bmod_def]
  omega

variable {args : CacheArgs} {cfs : CfsState} {pread : Pread} {r : Request} {block : ℤ}
  {s s' : CacheManager Count BlockBuf}

/-- A block is stored under the file id of placeholders. -/
def HoldsMarked (cfg : Sections) (s : CacheManager Count BlockBuf) : Prop :=
  ∃ c : FrequencyCache cfg BlockID (Payload BlockBuf) Count,
    Represents cfg s c ∧ ∃ entry ∈ c.entries, entry.key.1 = nullBlock

/-- An insertion under that id stores such a block. -/
theorem holdsMarked_insertBlock {c : FrequencyCache cfg BlockID (Payload BlockBuf) Count}
    {buff : Option BlockBuf} {path : Option Path} (h : Represents cfg s c)
    (real : block ≠ nullBlock) (inserted : s.insertBlock nullBlock block buff path = .ok s')
    : HoldsMarked cfg s' := by
  obtain ⟨c', represents', entries⟩ := h.inserted real inserted
  refine ⟨c', represents', ?_⟩
  rw [entries]
  exact ⟨_, List.mem_cons_self, rfl⟩

/-- Reads of a file with that id keep such a block: all they insert are such blocks. -/
theorem keptByReads_holdsMarked (marked : r.file.fileId = nullBlock)
    : KeptByReads r (HoldsMarked cfg : CacheManager Count BlockBuf → Prop) where
  retrieves := by
    intro id buff s s' h retrieved
    obtain ⟨c, represents, entry, member, key⟩ := h
    obtain ⟨again, retrieved', represents'⟩ := retrieveBuffer_spec represents id
    cases retrieved.symm.trans retrieved'
    have kept := (c.keys_retrieve_perm id).mem_iff.mpr (List.mem_map_of_mem member)
    obtain ⟨entry', member', same⟩ := List.mem_map.mp kept
    exact ⟨_, represents', entry', member', same ▸ key⟩
  inserts := by
    intro block bytes s s' visited h inserted
    obtain ⟨c, represents, _⟩ := h
    rw [marked] at inserted
    exact holdsMarked_insertBlock represents visited.real inserted

omit [LinearOrder Count] [OrderTop Count] [One Count] [Add Count] in
/-- Where no such block is stored, no block of such a file is. -/
theorem not_mem_of_unmarked {c : FrequencyCache cfg BlockID (Payload BlockBuf) Count}
    (unmarked : ∀ entry ∈ c.entries, entry.key.1 ≠ nullBlock)
    (marked : r.file.fileId = nullBlock) (block : ℤ)
    : r.blockID block ∉ c.keys := by
  intro present
  obtain ⟨entry, member, key⟩ := List.mem_map.mp present
  exact unmarked entry member (by rw [key, Request.blockID, marked])

/-- A read that stores its first block under the id of placeholders keeps it to its end. -/
theorem ReadsMarked.holdsMarked {ret : ℤ} {last : ReadState Count} (reads : ReadsMarked cfs pread r)
    (h : Holds cfg (fun id _ => id.1 ≠ nullBlock) s)
    (called : cachingRead cfs pread s r = .ok (ret, last))
    : HoldsMarked cfg last.cacheManager := by
  have marked := fileId_eq_nullBlock_iff.mpr reads.inode
  have visited := reads.inside.visited reads.positive
  obtain ⟨bytes, answered⟩ := reads.answered
  rw [cachingRead_eq reads.notLog reads.inside] at called
  obtain ⟨⟨left, end'⟩, loop, returned⟩ := bind_eq_ok_iff.mp called
  have same : last = end' := by
    cases left with
    | none =>
        cases returned
        rfl
    | some errno =>
        cases returned
        rfl
  rw [same]
  have blocks := Request.numberOfBlocks_pos reads.positive
  refine forRange_establishes (fun st => HoldsMarked cfg st.cacheManager)
    (fun left next first => ?_) (fun block st left next low high before completed => ?_)
    (by omega) loop
  · obtain ⟨fetched, between, fetch, sameCache⟩ := readBlock_cacheManager first
    obtain ⟨c, represents, unmarked⟩ := h
    have absent := not_mem_of_unmarked unmarked marked r.firstBlock
    rw [fetchBlock_read represents visited absent answered] at fetch
    obtain ⟨s', inserted, same⟩ := bind_eq_ok_iff.mp fetch
    cases same
    rw [sameCache]
    rw [marked] at inserted
    exact holdsMarked_insertBlock represents visited.real inserted
  · exact (keptByReads_holdsMarked marked).readBlock
      (reads.inside.visited_of_lt low.le high) before completed

/-- Every other read of a file with that id leaves the cache alone; by where it ends. -/
theorem cachingRead_unread {ret : ℤ} {last : ReadState Count}
    (h : Holds cfg (fun id _ => id.1 ≠ nullBlock) s) (marked : r.file.fileId = nullBlock)
    (unread : ¬ ReadsMarked cfs pread r) (called : cachingRead cfs pread s r = .ok (ret, last))
    : last.cacheManager = s := by
  rcases Classical.em (NotLog cfs r) with notLog | log
  case inr =>
    have refered : referingLogfile cfs (cachingFullPath cfs r.path) ≠ 0 := by
      rw [referingLogfile, if_pos (not_not.mp log)]
      decide
    rw [cachingRead, cachingReadAt, if_pos refered] at called
    cases called
    rfl
  rcases Classical.em r.Inside with inside | outside
  case inr =>
    cases called.symm.trans (cachingRead_rejected notLog outside)
    rfl
  rcases Int.lt_or_le 0 r.remainingData with positive | nonpos
  case inr =>
    cases called.symm.trans (cachingRead_nothing notLog inside nonpos)
    rfl
  rcases answer : pread r.file (toSize r.file.blockSize) (r.firstBlock * r.file.blockSize)
    with errno | bytes
  case ok =>
    exact absurd ⟨fileId_eq_nullBlock_iff.mp marked, notLog, inside, positive, bytes, answer⟩ unread
  obtain ⟨c, represents, unmarked⟩ := h
  have absent := not_mem_of_unmarked unmarked marked r.firstBlock
  have start : Represents cfg (ReadState.start s r).cacheManager c := represents
  have fetch := fetchBlock_fail start (inside.visited positive) absent answer
  obtain ⟨count, blocks⟩ : ∃ count, r.numberOfBlocks.toNat = count + 1 := by
    have some := Request.numberOfBlocks_pos positive
    exact ⟨r.numberOfBlocks.toNat - 1, by omega⟩
  rw [cachingRead_eq notLog inside, blocks] at called
  simp only [forRange, readBlock, fetch, ok_bind] at called
  cases called
  rfl

-----------------------------------------------------------------------------------------
-- Runs
-----------------------------------------------------------------------------------------

/-- No block is stored under the file id of placeholders, and the placeholders are the nodes the
constructor created.
-/
structure Separated (args : CacheArgs) (s : CacheManager Count BlockBuf) : Prop where
  unmarked : Holds args.sections (fun id _ => id.1 ≠ nullBlock) s
  created
    : NodeList.NewSince CacheBlock.blockNumber (fun blockNumber => blockNumber ≠ nullBlock)
        args.numberOfBlocks.toNat s.cacheChain

/-- Reads of a file with another id store nothing under that of placeholders. -/
theorem keptByReads_unmarked (other : r.file.fileId ≠ nullBlock)
    : KeptByReads r
        (Holds cfg (fun id _ => id.1 ≠ nullBlock) : CacheManager Count BlockBuf → Prop) := by
  refine keptByReads_holds (fun block id payload _ inserted => ?_)
  rw [inserted.owner.1]
  exact other

/-- They keep nodes apart as well, since the nodes they allocate are those of blocks. -/
theorem keptByReads_separated (other : r.file.fileId ≠ nullBlock)
    : KeptByReads r (Separated args : CacheManager Count BlockBuf → Prop) where
  retrieves := by
    intro id buff s s' h retrieved
    obtain ⟨c, represents, _⟩ := h.unmarked
    exact ⟨h.unmarked.retrieveBuffer retrieved,
      h.created.renewed (retrieveBuffer_renewed represents retrieved)⟩
  inserts := by
    intro block bytes s s' visited h inserted
    obtain ⟨c, represents, _⟩ := h.unmarked
    exact ⟨(keptByReads_unmarked other).inserts block bytes s s' visited h.unmarked inserted,
      h.created.renewed (insertBlock_renewed represents visited.real inserted)⟩

omit [LinearOrder Count] [OrderTop Count] [One Count] [Add Count] in
theorem Separated.cachingRename (h : Separated args s) (rename : Path → Path → Except ℤ ℤ)
    (path newpath : Path)
    : Separated args (cachingRename cfs rename s path newpath).2 := by
  simp only [FileSystem.cachingRename, cachingRenameAt]
  split
  · exact h
  split
  · exact h
  · exact ⟨h.unmarked.updatePaths (fun _ _ unmarked => unmarked),
      h.created.renewed (updatePaths_renewed s path newpath)⟩

/-- Every call that marks no block keeps this up; by whether a read is of a file with the id of
placeholders.
-/
theorem Separated.step {op : CacheCall} (h : Separated args s) (next : CallStep cfs s op s')
    (allowed : ¬ MarksBlock cfs op)
    : Separated args s' := by
  cases next with
  | @read pread r ret st called =>
      rcases eq_or_ne r.file.fileId nullBlock with marked | other
      · rw [cachingRead_unread h.unmarked marked allowed called]
        exact h
      · exact (keptByReads_separated other).cachingRead h called
  | rename rename path newpath => exact h.cachingRename rename path newpath

section Results

variable [ToString Count]

/-- Then all tests agree; by whether a node holds an abstract entry. -/
theorem Separated.told (h : Separated args s) : PlaceholdersTold args s := by
  refine .of_agree (fun node member => ⟨?_, ?_⟩)
  · have inChain : node.val ∈ s.cacheChain.vals := List.mem_map_of_mem member
    constructor
    · intro marked
      by_contra real
      exact h.unmarked.of_real inChain real marked
    · intro null
      obtain ⟨c, represents, _⟩ := h.unmarked
      obtain ⟨nulls, chain, placeholder, _⟩ := represents.chain
      have listed : node.val.entry ∈ c.entries ++ nulls := by
        rw [← chain]
        exact List.mem_map_of_mem inChain
      rcases List.mem_append.mp listed with stored | free
      · exact absurd null (represents.real _ stored)
      · exact congrArg Prod.fst (placeholder _ free)
  · rw [constructed_iff, ← not_iff_not, Nat.not_lt]
    exact (h.created.later_iff node member).symm

/-- A block stored under the file id of placeholders is taken for one by renames only. -/
theorem HoldsMarked.not_told (h : HoldsMarked cfg s) : ¬ PlaceholdersTold args s := by
  intro told
  obtain ⟨c, represents, entry, member, marked⟩ := h
  obtain ⟨block, inChain, rfl, real⟩ := exists_block_of_mem represents member
  obtain ⟨node, nodeMember, rfl⟩ := List.mem_map.mp inChain
  exact real ((told.agree node nodeMember).1.mp marked)

/-- In runs without a read that marks a block, the tests agree in every state reached; there
the next call leaves it so exactly when it is no such read.
-/
theorem run_placeholdersTold {labels : List CacheCall}
    (run : ((callSystem args cfs).restrict (fun _ op => ¬ MarksBlock cfs op)).Run labels s)
    : PlaceholdersTold args s
      ∧ ∀ op s', CallStep cfs s op s' → (PlaceholdersTold args s' ↔ ¬ MarksBlock cfs op) := by
  have separated : Separated args s := by
    refine System.Run.invariant (fun _ s => Separated args s) ?_ ?_ run
    · intro s start
      subst start
      exact ⟨holds_new args, newSince_new args⟩
    · intro labels op s s' before next
      obtain ⟨allowed, step⟩ := next
      exact before.step step allowed
  refine ⟨separated.told, fun op s' step => ⟨?_, fun allowed => (separated.step step allowed).told⟩⟩
  intro told marks
  cases step with
  | read called => exact (marks.holdsMarked separated.unmarked called).not_told told
  | rename => exact marks

end Results

end Calls

-----------------------------------------------------------------------------------------
-- Reads of one byte
-----------------------------------------------------------------------------------------

def readFirstByte (file : File) : CacheCall := .read wholePread (file.byteRequest ['/', 'a'] 0)

theorem exists_readFirstByte {file : File}
    (returns
      : (cachingRead (.below []) wholePread
          (.new 4 (1 / 2) (1 / 4) : CacheManager Int32 BlockBuf)
          (file.byteRequest ['/', 'a'] 0)).isOk = true)
    : ∃ s : CacheManager Int32 BlockBuf,
        CallStep (.below []) (.new 4 (1 / 2) (1 / 4)) (readFirstByte file) s := by
  rcases called : cachingRead (.below []) wholePread
    (.new 4 (1 / 2) (1 / 4) : CacheManager Int32 BlockBuf) (file.byteRequest ['/', 'a'] 0)
    with halt | ⟨ret, st⟩
  · rw [called] at returns
    cases returns
  · exact ⟨st.cacheManager, .read called⟩

/-- Reading the first byte of a file with a small inode. -/
theorem run_placeholdersTold_first_byte
    : ∃ s : CacheManager Int32 BlockBuf,
        CallStep (.below []) (.new 4 (1 / 2) (1 / 4)) (readFirstByte lowInode) s
        ∧ PlaceholdersTold twoOldArgs s
        ∧ ∀ op s',
            CallStep (.below []) s op s'
            → (PlaceholdersTold twoOldArgs s' ↔ ¬ MarksBlock (.below []) op) := by
  obtain ⟨s, step⟩ := @exists_readFirstByte lowInode (by decide +kernel)
  have allowed : ¬ MarksBlock (.below []) (readFirstByte lowInode) := by
    intro marks
    exact absurd marks.inode (by decide)
  exact ⟨s, step, @run_placeholdersTold Int32 _ _ _ _ twoOldArgs (.below []) s _
    [readFirstByte lowInode] (.step (.start rfl) ⟨allowed, step⟩)⟩

/-- A file with the inode `2 ^ 32 - 1`. -/
def allOnesInode : File := .ofData 1 4294967295 [0]

/-- After the first byte of that file was read, its block is taken for a placeholder. -/
theorem placeholdersTold_broken
    : ∃ s : CacheManager Int32 BlockBuf,
        (callSystem twoOldArgs (.below [])).Run [readFirstByte allOnesInode] s
        ∧ ¬ PlaceholdersTold twoOldArgs s := by
  obtain ⟨s, step⟩ := @exists_readFirstByte allOnesInode (by decide +kernel)
  refine ⟨s, .step (.start rfl) step, ?_⟩
  have notLog : NotLog (.below []) (allOnesInode.byteRequest ['/', 'a'] 0) := by
    change ([] : Path) ++ ['/', 'a'].take pathMax ≠ _
    decide
  have reads : ReadsMarked (.below []) wholePread (allOnesInode.byteRequest ['/', 'a'] 0) :=
    ⟨by decide, notLog, ⟨by decide, by decide⟩, by decide +kernel, _, rfl⟩
  cases step with
  | read called => exact (reads.holdsMarked (holds_new twoOldArgs) called).not_told

end CachingFileSystem.FileSystem
