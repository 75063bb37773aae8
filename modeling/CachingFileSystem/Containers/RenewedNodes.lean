import CachingFileSystem.Containers.NodeList
import Mathlib.Tactic.Common

/-! Which nodes of a list were there before it was changed, and which were allocated since.
A projection of the elements tells the ones from the others.
-/

namespace CachingFileSystem.Containers

namespace NodeList

variable {α β : Type}

-----------------------------------------------------------------------------------------
-- Nodes and their addresses
-----------------------------------------------------------------------------------------

/-- Dereferencing an iterator gives the element of its node, as addresses are distinct. -/
theorem deref?_eq_some_iff {l : NodeList α} {it : Iterator} {val : α}
    : l.deref? it = some val ↔ ⟨it, val⟩ ∈ l.nodes := by
  constructor
  · intro found
    have live : it ∈ l.addrs := by
      have bound := (List.getElem?_eq_some_iff.mp found).1
      rw [length_vals, ← length_addrs] at bound
      exact List.idxOf_lt_length_iff.mp bound
    have here := designates_pos live
    simp only [deref?, vals, List.getElem?_map, Option.map_eq_some_iff] at found
    obtain ⟨node, there, rfl⟩ := found
    simp only [Designates, addrs, List.getElem?_map, there, Option.map_some,
      Option.some.injEq] at here
    exact here ▸ List.mem_of_getElem? there
  · intro member
    obtain ⟨i, here⟩ := List.mem_iff_getElem?.mp member
    have designates : l.Designates it i := by
      simp only [Designates, addrs, List.getElem?_map, here, Option.map_some]
    rw [designates.deref, vals, List.getElem?_map, here, Option.map_some]

/-- Erasing one node keeps all others. -/
theorem mem_nodes_erase {l : NodeList α} {node : Node α} {it : Iterator} (member : node ∈ l.nodes)
    (other : node.addr ≠ it)
    : node ∈ (l.erase it).nodes := by
  obtain ⟨i, bound, here⟩ := List.mem_iff_getElem.mp member
  refine List.mem_eraseIdx_iff_getElem.mpr ⟨i, bound, ?_, here⟩
  intro same
  subst same
  have live : it ∈ l.addrs := by
    rw [← length_addrs] at bound
    exact List.idxOf_lt_length_iff.mp bound
  have designates := designates_pos live
  simp only [Designates, addrs, List.getElem?_map, List.getElem?_eq_getElem bound,
    Option.map_some, Option.some.injEq] at designates
  exact other (here ▸ designates)

/-- What is popped is the node at the back. -/
theorem popBack_of_back {l : NodeList α} {val : α} (last : l.back? = some val)
    : ∃ it, ⟨it, val⟩ ∈ l.nodes ∧ l.popBack = l.erase it := by
  simp only [back?, vals, List.getLast?_map, Option.map_eq_some_iff] at last
  obtain ⟨node, there, rfl⟩ := last
  refine ⟨node.addr, List.mem_of_getLast? there, ?_⟩
  simp only [popBack, addrs, List.getLast?_map, there, Option.map_some]

-----------------------------------------------------------------------------------------
-- Renewal
-----------------------------------------------------------------------------------------

/-- Every node of the second list is one of the first, with the same projected value, or was
allocated since, with a new value.
-/
structure Renewed (project : α → β) (New : β → Prop) (l l' : NodeList α) : Prop where
  grown : l.next ≤ l'.next
  origin
    : ∀ node ∈ l'.nodes,
        (∃ old ∈ l.nodes, old.addr = node.addr ∧ project old.val = project node.val)
        ∨ (l.next ≤ node.addr ∧ New (project node.val))

variable {project : α → β} {New : β → Prop} {l l' l'' : NodeList α}

theorem Renewed.of_subset (same : l'.next = l.next) (subset : l'.nodes ⊆ l.nodes)
    : Renewed project New l l' where
  grown := Nat.le_of_eq same.symm
  origin := fun node member => Or.inl ⟨node, subset member, rfl, rfl⟩

theorem Renewed.refl (l : NodeList α) : Renewed project New l l :=
  .of_subset rfl (List.Subset.refl _)

/-- Renewals compose; by cases on where a node comes from. -/
theorem Renewed.trans (first : Renewed project New l l') (second : Renewed project New l' l'')
    : Renewed project New l l'' where
  grown := Nat.le_trans first.grown second.grown
  origin := by
    intro node member
    rcases second.origin node member with ⟨between, there, sameAddr, same⟩ | ⟨late, new⟩
    · rw [← sameAddr, ← same]
      exact first.origin between there
    · exact Or.inr ⟨Nat.le_trans first.grown late, new⟩

theorem Renewed.pushFront (l : NodeList α) {val : α} (new : New (project val))
    : Renewed project New l (l.pushFront val) where
  grown := Nat.le_succ l.next
  origin := by
    intro node member
    rcases List.mem_cons.mp member with rfl | old
    · exact Or.inr ⟨Nat.le_refl _, new⟩
    · exact Or.inl ⟨node, old, rfl, rfl⟩

theorem Renewed.erase (l : NodeList α) (it : Iterator) : Renewed project New l (l.erase it) :=
  .of_subset rfl (List.eraseIdx_sublist _ _).subset

theorem Renewed.popBack (l : NodeList α) : Renewed project New l l.popBack := by
  unfold NodeList.popBack
  split
  · exact .erase l _
  · exact .refl l

/-- An update that the projection does not see renews nothing. -/
theorem Renewed.map (l : NodeList α) {f : α → α} (unseen : ∀ a, project (f a) = project a)
    : Renewed project New l (l.map f) where
  grown := Nat.le_refl _
  origin := by
    intro node member
    obtain ⟨old, there, rfl⟩ := List.mem_map.mp member
    exact Or.inl ⟨old, there, rfl, (unseen old.val).symm⟩

theorem Renewed.modify {it : Iterator} {f : α → α} (modified : l.modify? it f = some l')
    (unseen : ∀ a, project (f a) = project a)
    : Renewed project New l l' := by
  unfold modify? at modified
  split at modified
  · cases modified
    refine ⟨Nat.le_refl _, ?_⟩
    intro node member
    obtain ⟨k, here⟩ := List.mem_iff_getElem?.mp member
    rw [List.getElem?_modify] at here
    cases there : l.nodes[k]? with
    | none =>
        rw [there] at here
        cases here
    | some old =>
        rw [there] at here
        obtain rfl := Option.some.inj here
        refine Or.inl ⟨old, List.mem_of_getElem? there, ?_⟩
        split
        · exact ⟨rfl, (unseen old.val).symm⟩
        · exact ⟨rfl, rfl⟩
  · cases modified

/-- The nodes allocated from this address on are those with new values. -/
structure NewSince (project : α → β) (New : β → Prop) (first : Iterator) (l : NodeList α)
    : Prop where
  passed : first ≤ l.next
  later_iff : ∀ node ∈ l.nodes, first ≤ node.addr ↔ New (project node.val)

/-- Renewing a list does not blur the line between them; by where its nodes come from. -/
theorem NewSince.renewed {first : Iterator} (h : NewSince project New first l)
    (renewed : Renewed project New l l')
    : NewSince project New first l' where
  passed := Nat.le_trans h.passed renewed.grown
  later_iff := by
    intro node member
    rcases renewed.origin node member with ⟨old, there, sameAddr, same⟩ | ⟨late, new⟩
    · rw [← sameAddr, ← same]
      exact h.later_iff old there
    · exact iff_of_true (Nat.le_trans h.passed late) new

end NodeList

end CachingFileSystem.Containers
