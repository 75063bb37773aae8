import CachingFileSystem.BufferCache.Invariants
import CachingFileSystem.FileSystem.Coherence

/-! Properties of stored blocks, their paths included, that reads and renames preserve: those
that hold of every block a read may insert and survive the change of a path.
-/

namespace CachingFileSystem.FileSystem

open CachingFileSystem.BufferCache
open CachingFileSystem.Containers
open CachingFileSystem.ReplacementPolicy
open CachingFileSystem.Transitions

variable {cfg : Sections} {Count : Type}

/-- Every stored block has the property, in terms of its id and of what is kept with it. -/
def Holds (cfg : Sections) (P : BlockID → Payload BlockBuf → Prop)
    (s : CacheManager Count BlockBuf)
    : Prop :=
  ∃ c : FrequencyCache cfg BlockID (Payload BlockBuf) Count,
    Represents cfg s c ∧ ∀ entry ∈ c.entries, P entry.key entry.val

/-- What a read of this block inserts. -/
def Inserted (r : Request) (block : ℤ) (id : BlockID) (payload : Payload BlockBuf) : Prop :=
  id = r.blockID block
  ∧ ∃ bytes, payload = ⟨some ⟨r.file.identity, bytes⟩, r.path⟩

/-- Such a block has the file's id and the path of the request. -/
theorem Inserted.owner {r : Request} {block : ℤ} {id : BlockID} {payload : Payload BlockBuf}
    (h : Inserted r block id payload)
    : id.1 = r.file.fileId ∧ payload.path = r.path := by
  obtain ⟨rfl, bytes, rfl⟩ := h
  exact ⟨by rw [Request.blockID], rfl⟩

variable {P : BlockID → Payload BlockBuf → Prop} {s : CacheManager Count BlockBuf}

theorem holds_new [One Count] (args : CacheArgs)
    : Holds args.sections P
        (.new args.numberOfBlocks args.fOld args.fNew : CacheManager Count BlockBuf) :=
  ⟨.empty, new_represents args, fun _ none => nomatch none⟩

/-- The property holds of the blocks in the chain that are no placeholders. -/
theorem Holds.of_real (h : Holds cfg P s) {block : CacheBlock Count BlockBuf}
    (member : block ∈ s.cacheChain.vals) (real : block.blockNumber ≠ nullBlock)
    : P block.getBlockId ⟨block.buff, block.path⟩ := by
  obtain ⟨c, represents, holds⟩ := h
  obtain ⟨i, here⟩ := List.mem_iff_getElem?.mp member
  have entry := represents.entry_of_real here real
  exact holds _ (List.mem_of_getElem? entry)

/-- An abstract entry is that of a block in the chain that is no placeholder. -/
theorem exists_block_of_mem {c : FrequencyCache cfg BlockID (Payload BlockBuf) Count}
    (represents : Represents cfg s c) {entry : Entry BlockID (Payload BlockBuf) Count}
    (member : entry ∈ c.entries)
    : ∃ block ∈ s.cacheChain.vals, block.entry = entry ∧ block.blockNumber ≠ nullBlock := by
  obtain ⟨nulls, chain, _, _⟩ := represents.chain
  have inChain : entry ∈ s.entries := chain ▸ List.mem_append_left nulls member
  obtain ⟨block, blockMember, rfl⟩ := List.mem_map.mp inChain
  exact ⟨block, blockMember, rfl, represents.real _ member⟩

/-- What holds of the blocks in the chain that are no placeholders may be added. -/
theorem Holds.and {Q : BlockID → Payload BlockBuf → Prop} (h : Holds cfg P s)
    (stored
      : ∀ block ∈ s.cacheChain.vals,
          block.blockNumber ≠ nullBlock → Q block.getBlockId ⟨block.buff, block.path⟩)
    : Holds cfg (fun id payload => P id payload ∧ Q id payload) s := by
  obtain ⟨c, represents, holds⟩ := h
  refine ⟨c, represents, fun entry member => ⟨holds entry member, ?_⟩⟩
  obtain ⟨block, blockMember, rfl, real⟩ := exists_block_of_mem represents member
  exact stored block blockMember real

section Reads

variable [LinearOrder Count] [OrderTop Count] [One Count] [Add Count] {pread : Pread}
  {r : Request} {block : ℤ} {st : ReadState Count}

omit [LinearOrder Count] [OrderTop Count] in
/-- A lookup keeps what is stored. -/
theorem Holds.retrieveBuffer {id : BlockID} {buff : Option BlockBuf}
    {s' : CacheManager Count BlockBuf} (h : Holds cfg P s)
    (retrieved : s.retrieveBuffer id = .ok (buff, s'))
    : Holds cfg P s' := by
  obtain ⟨c, represents, holds⟩ := h
  obtain ⟨again, retrieved', represents'⟩ := retrieveBuffer_spec represents id
  cases retrieved.symm.trans retrieved'
  refine ⟨_, represents', fun entry member => ?_⟩
  obtain ⟨old, oldMember, key, val⟩ := FrequencyCache.mem_retrieve member
  rw [← key, ← val]
  exact holds old oldMember

/-- An insertion keeps the property if it holds of the new block; the others stay or leave. -/
theorem Holds.insertBlock {fileId blockNumber : ℤ} {buff : Option BlockBuf} {path : Option Path}
    {s' : CacheManager Count BlockBuf} (h : Holds cfg P s) (real : blockNumber ≠ nullBlock)
    (new : P (fileId, blockNumber) ⟨buff, path.getD []⟩)
    (insertion : s.insertBlock fileId blockNumber buff path = .ok s')
    : Holds cfg P s' := by
  obtain ⟨c, represents, holds⟩ := h
  obtain ⟨c', represents', entries⟩ := represents.inserted real insertion
  refine ⟨c', represents', ?_⟩
  rw [entries]
  intro entry member
  rcases List.mem_cons.mp member with rfl | later
  · exact new
  · exact holds entry ((survivors_sublist c.entries).subset later)

/-- What the lookups and insertions of a read keep up in the cache. -/
structure KeptByReads (r : Request) (Inv : CacheManager Count BlockBuf → Prop) : Prop where
  retrieves
    : ∀ id buff s s', Inv s → s.retrieveBuffer id = .ok (buff, s') → Inv s'
  inserts
    : ∀ block bytes s s',
        Visited r block
        → Inv s
        → s.insertBlock r.file.fileId block (some ⟨r.file.identity, bytes⟩) (some r.path) = .ok s'
        → Inv s'

variable {Inv : CacheManager Count BlockBuf → Prop}

/-- Looking up or reading a block keeps it up. -/
theorem KeptByReads.fetchBlock {fetched : Except ℤ BlockBuf} {st' : ReadState Count}
    (kept : KeptByReads r Inv) (visited : Visited r block) (h : Inv st.cacheManager)
    (completed : fetchBlock pread r block st = .ok (fetched, st'))
    : Inv st'.cacheManager := by
  simp only [FileSystem.fetchBlock, bind_eq_ok_iff] at completed
  obtain ⟨_, _, ⟨buff, s'⟩, retrieved, completed⟩ := completed
  have found := kept.retrieves _ _ _ _ h retrieved
  split at completed
  · cases completed
    exact found
  split at completed
  · cases completed
    exact found
  next bytes _ =>
    obtain ⟨s'', insertion, same⟩ := bind_eq_ok_iff.mp completed
    cases same
    exact kept.inserts block bytes _ _ visited found insertion

/-- An iteration of the block loop leaves the cache as its fetch does: copying does not use it. -/
theorem readBlock_cacheManager {left : Option ℤ} {st' : ReadState Count}
    (completed : readBlock pread r block st = .ok (left, st'))
    : ∃ fetched between,
        fetchBlock pread r block st = .ok (fetched, between)
        ∧ st'.cacheManager = between.cacheManager := by
  simp only [FileSystem.readBlock, bind_eq_ok_iff] at completed
  obtain ⟨⟨fetched, between⟩, fetch, completed⟩ := completed
  refine ⟨fetched, between, fetch, ?_⟩
  cases fetched with
  | error errno =>
      cases completed
      rfl
  | ok buf =>
      obtain ⟨last, copied, same⟩ := bind_eq_ok_iff.mp completed
      cases same
      exact (copyBlock_keeps copied).1

/-- So an iteration keeps up what a fetch does. -/
theorem KeptByReads.readBlock {left : Option ℤ} {st' : ReadState Count}
    (kept : KeptByReads r Inv) (visited : Visited r block) (h : Inv st.cacheManager)
    (completed : readBlock pread r block st = .ok (left, st'))
    : Inv st'.cacheManager := by
  obtain ⟨_, _, fetch, same⟩ := readBlock_cacheManager completed
  rw [same]
  exact kept.fetchBlock visited h fetch

/-- So does a call of `caching_read`; by the loop rule. -/
theorem KeptByReads.cachingRead {cfs : CfsState} {ret : ℤ} {last : ReadState Count}
    (kept : KeptByReads r Inv) (h : Inv s)
    (called : cachingRead cfs pread s r = .ok (ret, last))
    : Inv last.cacheManager := by
  have result := cachingRead_result cfs pread s r
  rw [called] at result
  cases result with
  | atOnce => exact h
  | looped _ inside loop =>
      refine forRange_preserves (fun st => Inv st.cacheManager)
        (fun block st left st' low high before completed => ?_) h loop
      exact kept.readBlock (inside.visited_of_lt low high) before completed

/-- Reads keep what holds of all blocks they may insert. -/
theorem keptByReads_holds
    (inserted
      : ∀ block id payload, Visited r block → Inserted r block id payload → P id payload)
    : KeptByReads r (Holds cfg P : CacheManager Count BlockBuf → Prop) where
  retrieves := fun _ _ _ _ h retrieved => h.retrieveBuffer retrieved
  inserts := fun _ bytes _ _ visited h insertion =>
    h.insertBlock visited.real (inserted _ _ _ visited ⟨rfl, bytes, rfl⟩) insertion

theorem Holds.cachingRead {cfs : CfsState} {ret : ℤ} {last : ReadState Count}
    (h : Holds cfg P s)
    (inserted
      : ∀ block id payload, Visited r block → Inserted r block id payload → P id payload)
    (called : cachingRead cfs pread s r = .ok (ret, last))
    : Holds cfg P last.cacheManager :=
  (keptByReads_holds inserted).cachingRead h called

end Reads

/-- What becomes of a block whose path is not left alone. -/
theorem mem_updatePaths (path newpath : Path) {block : CacheBlock Count BlockBuf}
    (member : block ∈ s.cacheChain.vals) (unmarked : block.fileId ≠ nullBlock)
    : block.setPath (renamePath path newpath block.path)
      ∈ (s.updatePaths path newpath).cacheChain.vals := by
  rw [CacheManager.updatePaths, NodeList.vals_map]
  refine List.mem_map.mpr ⟨block, member, ?_⟩
  rw [if_neg unmarked]

/-- A block whose path is not below the old one stays as it is. -/
theorem mem_updatePaths_of_eq {path newpath : Path} {block : CacheBlock Count BlockBuf}
    (member : block ∈ s.cacheChain.vals) (same : renamePath path newpath block.path = block.path)
    : block ∈ (s.updatePaths path newpath).cacheChain.vals := by
  rw [CacheManager.updatePaths, NodeList.vals_map]
  refine List.mem_map.mpr ⟨block, member, ?_⟩
  rw [same]
  exact ite_self block

/-- Renaming keeps what survives the change of a block's path. -/
theorem Holds.updatePaths {P' : BlockID → Payload BlockBuf → Prop} {path newpath : Path}
    (h : Holds cfg P s)
    (renamed : ∀ id payload, P id payload → P' id (renamePayload path newpath id payload))
    : Holds cfg P' (s.updatePaths path newpath) := by
  obtain ⟨c, represents, holds⟩ := h
  refine ⟨_, updatePaths_represents represents path newpath, fun entry member => ?_⟩
  obtain ⟨old, oldMember, rfl⟩ := List.mem_map.mp member
  exact renamed _ _ (holds old oldMember)

end CachingFileSystem.FileSystem
