import CachingFileSystem.Containers.RenewedNodes
import CachingFileSystem.Transitions.Loops
import CachingFileSystem.BufferCache.Construction

/-! Which nodes of the chain the constructor created. Every node that is allocated later is one
for a block, be it inserted or moved to the head.
-/

namespace CachingFileSystem.BufferCache

open CachingFileSystem.Containers
open CachingFileSystem.ReplacementPolicy
open CachingFileSystem.Transitions

variable {cfg : Sections} {Count Buf : Type} {s s' : CacheManager Count Buf}

/-- The nodes that were allocated on the way from one manager to the other hold blocks, and the
others still hold blocks with the same number.
-/
def ChainRenewed (s s' : CacheManager Count Buf) : Prop :=
  NodeList.Renewed CacheBlock.blockNumber (fun blockNumber => blockNumber ≠ nullBlock)
    s.cacheChain s'.cacheChain

theorem ChainRenewed.trans {s'' : CacheManager Count Buf} (first : ChainRenewed s s')
    (second : ChainRenewed s' s'')
    : ChainRenewed s s'' :=
  NodeList.Renewed.trans first second

-----------------------------------------------------------------------------------------
-- Lookups
-----------------------------------------------------------------------------------------

theorem slideMiddle_renewed (slid : s.slideMiddle = .ok s') : ChainRenewed s s' := by
  simp only [CacheManager.slideMiddle, bind_eq_ok_iff, demand_eq_ok_iff] at slid
  obtain ⟨it, _, before, _, chain, modified, same⟩ := slid
  cases same
  exact .modify modified (fun _ => rfl)

theorem slideOld_renewed (slid : s.slideOld = .ok s') : ChainRenewed s s' := by
  simp only [CacheManager.slideOld, bind_eq_ok_iff, demand_eq_ok_iff] at slid
  obtain ⟨it, _, before, _, chain, modified, same⟩ := slid
  cases same
  exact .modify modified (fun _ => rfl)

theorem countHit_renewed [One Count] [Add Count] {it : Iterator}
    (counted : s.countHit it = .ok s')
    : ChainRenewed s s' := by
  simp only [CacheManager.countHit, bind_eq_ok_iff, demand_eq_ok_iff] at counted
  obtain ⟨block, _, rest⟩ := counted
  split at rest
  · simp only [bind_eq_ok_iff, demand_eq_ok_iff] at rest
    obtain ⟨chain, modified, same⟩ := rest
    cases same
    exact .modify modified (fun _ => rfl)
  · cases rest
    exact .refl _

theorem correctBounds_renewed {it : Iterator} (corrected : s.correctBounds it = .ok s')
    : ChainRenewed s s' := by
  simp only [CacheManager.correctBounds, bind_eq_ok_iff, demand_eq_ok_iff] at corrected
  obtain ⟨block, _, rest⟩ := corrected
  cases section' : block.sectionType with
  | newSection =>
      rw [section'] at rest
      cases rest
      exact .refl _
  | middleSection =>
      rw [section'] at rest
      exact slideMiddle_renewed rest
  | oldSection =>
      simp only [section', bind_eq_ok_iff] at rest
      obtain ⟨between, slidMiddle, slidOld⟩ := rest
      exact (slideMiddle_renewed slidMiddle).trans (slideOld_renewed slidOld)

/-- The node at the head is new; it holds the block that was moved. -/
theorem moveToHead_renewed {id : BlockID} {it head : Iterator}
    (real : ∀ block, s.cacheChain.deref? it = some block → block.blockNumber ≠ nullBlock)
    (moved : s.moveToHead id it = .ok (head, s'))
    : ChainRenewed s s' := by
  simp only [CacheManager.moveToHead, bind_eq_ok_iff, demand_eq_ok_iff] at moved
  obtain ⟨block, here, front, _, chain, modified, same⟩ := moved
  cases same
  have pushed : NodeList.Renewed CacheBlock.blockNumber (fun number => number ≠ nullBlock)
      s.cacheChain (s.cacheChain.pushFront block) :=
    .pushFront s.cacheChain (real block here)
  exact (pushed.trans (.modify modified (fun _ => rfl))).trans (.erase chain it)

/-- The node of a block in the map holds no placeholder. -/
theorem Represents.real_of_mapped {c : FrequencyCache cfg BlockID (Payload Buf) Count}
    (h : Represents cfg s c) {id : BlockID} {it : Iterator} (found : s.blocksMap id = some it)
    {block : CacheBlock Count Buf} (here : s.cacheChain.deref? it = some block)
    : block.blockNumber ≠ nullBlock := by
  obtain ⟨i, entry, entryAt, _, designates⟩ := (h.mapped id it).mp found
  obtain ⟨_, other, _, otherAt, same, _⟩ := h.block entryAt
  rw [designates.deref, otherAt] at here
  obtain rfl := Option.some.inj here
  have real := h.real entry (List.mem_of_getElem? entryAt)
  rwa [← same] at real

section Operations

variable [One Count] [Add Count]

/-- A lookup that finds nothing leaves the cache alone. -/
theorem findBlock_none {id : BlockID} (missed : s.findBlock id = .ok (none, s')) : s' = s := by
  unfold CacheManager.findBlock at missed
  split at missed
  · cases missed
    rfl
  · simp only [bind_eq_ok_iff] at missed
    obtain ⟨_, _, _, _, _, _, found⟩ := missed
    cases found

/-- A lookup allocates a node for a block it has found; by what its stages do to that block. -/
theorem findBlock_renewed {c : FrequencyCache cfg BlockID (Payload Buf) Count}
    (h : Represents cfg s c) {id : BlockID} {found : Option Iterator}
    (lookup : s.findBlock id = .ok (found, s'))
    : ChainRenewed s s' := by
  unfold CacheManager.findBlock at lookup
  split at lookup
  · cases lookup
    exact .refl _
  next it mapped =>
    simp only [bind_eq_ok_iff] at lookup
    obtain ⟨s₁, counted, s₂, corrected, ⟨head, s₃⟩, moved, same⟩ := lookup
    cases same
    have stages := (countHit_renewed counted).trans (correctBounds_renewed corrected)
    refine stages.trans (moveToHead_renewed (fun block here => ?_) moved)
    have member := NodeList.deref?_eq_some_iff.mp here
    rcases stages.origin _ member with ⟨⟨addr, old⟩, there, sameAddr, sameNumber⟩ | ⟨_, real⟩
    · obtain rfl : addr = it := sameAddr
      rw [← sameNumber]
      exact h.real_of_mapped mapped (NodeList.deref?_eq_some_iff.mpr there)
    · exact real

theorem retrieveBuffer_renewed {c : FrequencyCache cfg BlockID (Payload Buf) Count}
    (h : Represents cfg s c) {id : BlockID} {buff : Option Buf}
    (retrieved : s.retrieveBuffer id = .ok (buff, s'))
    : ChainRenewed s s' := by
  simp only [CacheManager.retrieveBuffer, bind_eq_ok_iff] at retrieved
  obtain ⟨⟨found, between⟩, lookup, rest⟩ := retrieved
  have renewed := findBlock_renewed h lookup
  cases found with
  | none =>
      cases rest
      exact renewed
  | some it =>
      simp only [bind_eq_ok_iff, demand_eq_ok_iff] at rest
      obtain ⟨block, _, same⟩ := rest
      cases same
      exact renewed

-----------------------------------------------------------------------------------------
-- Insertions and renames
-----------------------------------------------------------------------------------------

variable [LinearOrder Count] [OrderTop Count]

omit [One Count] [Add Count] in
theorem removeBlock_renewed {removed : Option BlockID}
    (removal : s.removeBlock = .ok (removed, s'))
    : ChainRenewed s s' := by
  simp only [CacheManager.removeBlock, bind_eq_ok_iff, demand_eq_ok_iff] at removal
  obtain ⟨last, _, rest⟩ := removal
  split at rest
  · cases rest
    exact .popBack _
  · simp only [bind_eq_ok_iff, demand_eq_ok_iff] at rest
    obtain ⟨it, _, block, _, same⟩ := rest
    cases same
    exact .erase _ it

omit [One Count] [Add Count] in
/-- A removal without an id takes the node of a placeholder. -/
theorem removeBlock_free (removal : s.removeBlock = .ok (none, s'))
    : ∃ it block,
        ⟨it, block⟩ ∈ s.cacheChain.nodes
        ∧ block.blockNumber = nullBlock
        ∧ s'.cacheChain = s.cacheChain.erase it := by
  simp only [CacheManager.removeBlock, bind_eq_ok_iff, demand_eq_ok_iff] at removal
  obtain ⟨last, back, rest⟩ := removal
  split at rest
  · next free =>
      cases rest
      obtain ⟨it, member, popped⟩ := NodeList.popBack_of_back back
      exact ⟨it, last, member, free, popped⟩
  · simp only [bind_eq_ok_iff] at rest
    obtain ⟨_, _, _, _, same⟩ := rest
    cases same

/-- So an insertion into a free place keeps the nodes of all blocks. -/
theorem insertAndRemove_free {fileId blockNumber : ℤ} {buff : Option Buf} {path : Option Path}
    (removal : s.insertAndRemove fileId blockNumber buff path = .ok (none, s'))
    {node : Node (CacheBlock Count Buf)} (member : node ∈ s.cacheChain.nodes)
    (real : node.val.blockNumber ≠ nullBlock)
    : node ∈ s'.cacheChain.nodes := by
  simp only [CacheManager.insertAndRemove, bind_eq_ok_iff] at removal
  obtain ⟨⟨found, s₁⟩, lookup, rest⟩ := removal
  cases found with
  | some it => cases rest
  | none =>
      obtain rfl := findBlock_none lookup
      obtain ⟨it, block, placeholder, null, erased⟩ := removeBlock_free rest
      have pushed : node ∈ (s₁.putAtTop (.new fileId blockNumber buff path)).cacheChain.nodes :=
        List.mem_cons_of_mem _ member
      rw [erased]
      refine NodeList.mem_nodes_erase pushed (fun same => ?_)
      subst same
      have here := NodeList.deref?_eq_some_iff.mpr pushed
      have there := NodeList.deref?_eq_some_iff.mpr placeholder
      exact real (Option.some.inj (here.symm.trans there) ▸ null)

theorem insertBlock_renewed {c : FrequencyCache cfg BlockID (Payload Buf) Count}
    (h : Represents cfg s c) {fileId blockNumber : ℤ} (real : blockNumber ≠ nullBlock)
    {buff : Option Buf} {path : Option Path}
    (inserted : s.insertBlock fileId blockNumber buff path = .ok s')
    : ChainRenewed s s' := by
  simp only [CacheManager.insertBlock, CacheManager.insertAndRemove, bind_eq_ok_iff] at inserted
  obtain ⟨⟨_, s₃⟩, ⟨⟨found, s₁⟩, lookup, removal⟩, s₄, slidMiddle, slidOld⟩ := inserted
  cases found with
  | some it => cases removal
  | none =>
      have pushed : ChainRenewed s₁ (s₁.putAtTop (.new fileId blockNumber buff path)) :=
        .pushFront s₁.cacheChain real
      have placed := (findBlock_renewed h lookup).trans pushed
      have removed := placed.trans (removeBlock_renewed removal)
      exact (removed.trans (slideMiddle_renewed slidMiddle)).trans (slideOld_renewed slidOld)

end Operations

theorem updatePaths_renewed (s : CacheManager Count Buf) (pathPrefix newPathPrefix : Path)
    : ChainRenewed s (s.updatePaths pathPrefix newPathPrefix) := by
  refine .map s.cacheChain (fun block => ?_)
  split <;> rfl

-----------------------------------------------------------------------------------------
-- The constructor
-----------------------------------------------------------------------------------------

/-- The constructor created the node with this address. -/
def Constructed (Count Buf : Type) [One Count] (args : CacheArgs) (it : Iterator) : Prop :=
  it ∈ (.new args.numberOfBlocks args.fOld args.fNew : CacheManager Count Buf).cacheChain.addrs

instance [One Count] (args : CacheArgs) (it : Iterator)
    : Decidable (Constructed Count Buf args it) :=
  inferInstanceAs (Decidable (it ∈ _))

/-- The constructor allocates one node after the other; by induction on their number. -/
theorem addrs_iterate_pushFront {α : Type} (val : α) (count : ℕ)
    : ((fun l : NodeList α => l.pushFront val)^[count] .empty).addrs = (List.range count).reverse
      ∧ ((fun l : NodeList α => l.pushFront val)^[count] .empty).next = count := by
  induction count with
  | zero => exact ⟨rfl, rfl⟩
  | succ count ih =>
      rw [Function.iterate_succ_apply', NodeList.addrs_pushFront, ih.1, ih.2, List.range_succ,
        List.reverse_append]
      exact ⟨rfl, congrArg Nat.succ ih.2⟩

variable [One Count]

/-- So the constructor's nodes have the first addresses. -/
theorem constructed_iff {args : CacheArgs} {it : Iterator}
    : Constructed Count Buf args it ↔ it < args.numberOfBlocks.toNat := by
  unfold Constructed CacheManager.new
  rw [(addrs_iterate_pushFront _ _).1, List.mem_reverse, List.mem_range]

/-- In a new chain there are no others. -/
theorem newSince_new (args : CacheArgs)
    : NodeList.NewSince CacheBlock.blockNumber (fun blockNumber => blockNumber ≠ nullBlock)
        args.numberOfBlocks.toNat
        (.new args.numberOfBlocks args.fOld args.fNew : CacheManager Count Buf).cacheChain where
  passed := Nat.le_of_eq (addrs_iterate_pushFront _ _).2.symm
  later_iff := by
    intro node member
    have constructed : Constructed Count Buf args node.addr := List.mem_map_of_mem member
    refine iff_of_false (Nat.not_le.mpr (constructed_iff.mp constructed)) (not_not.mpr ?_)
    have placeholder : node.val ∈ (.new args.numberOfBlocks args.fOld args.fNew :
        CacheManager Count Buf).cacheChain.vals := List.mem_map_of_mem member
    simp only [CacheManager.new, vals_iterate_pushFront] at placeholder
    rw [List.eq_of_mem_replicate placeholder]
    rfl

end CachingFileSystem.BufferCache
