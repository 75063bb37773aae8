import Mathlib.Data.List.Nodup
import Mathlib.Data.List.Basic

/-! Doubly linked lists whose nodes have addresses, as `std::list` presents them.
An iterator is the address of a node; erasing a node leaves every other iterator valid.
-/

namespace CachingFileSystem.Containers

/-- An iterator designates a node by its address. -/
abbrev Iterator := ℕ

/-- A list node stores its address and one element. -/
structure Node (α : Type) where
  addr : Iterator
  val : α

/-- Applying a function to the element keeps the node's address. -/
def Node.map {α : Type} (f : α → α) (node : Node α) : Node α :=
  { node with val := f node.val }

/-- An update that a projection does not see leaves the projected list alone. -/
theorem map_modify_of_eq {α β : Type} {project : α → β} {f : α → α}
    (unseen : ∀ a, project (f a) = project a) (l : List α) (i : ℕ)
    : (l.modify i f).map project = l.map project := by
  apply List.ext_getElem?
  intro k
  simp only [List.getElem?_map, List.getElem?_modify]
  cases l[k]? with
  | none => rfl
  | some a => by_cases same : i = k <;> simp [same, unseen]

/-- Updating one element overwrites its projected value. -/
theorem map_modify_of_getElem? {α β : Type} (project : α → β) (f : α → α) {l : List α}
    {i : ℕ} {a : α} (here : l[i]? = some a)
    : (l.modify i f).map project = (l.map project).set i (project (f a)) := by
  obtain ⟨inside, rfl⟩ := List.getElem?_eq_some_iff.mp here
  apply List.ext_getElem?
  intro k
  simp only [List.getElem?_map, List.getElem?_modify, List.getElem?_set]
  by_cases same : i = k
  · subst same
    simp [inside]
  · cases l[k]? <;> simp [same]

/-- In-place element updates keep the address sequence. -/
theorem addrs_modify {α : Type} (nodes : List (Node α)) (i : ℕ) (f : α → α)
    : (nodes.modify i (Node.map f)).map Node.addr = nodes.map Node.addr := by
  apply map_modify_of_eq
  exact fun _ => rfl

/-- The linked nodes from the front on, the address of the next allocation, and the `prev`
link each erased node had at the time of its erasure. Addresses are never reused.
-/
structure NodeList (α : Type) where
  nodes : List (Node α)
  next : ℕ
  stale : List (Iterator × Iterator)
  distinct : (nodes.map Node.addr).Nodup
  allocated : ∀ it ∈ nodes.map Node.addr, it < next

namespace NodeList

variable {α : Type}

def addrs (l : NodeList α) : List Iterator := l.nodes.map Node.addr

def vals (l : NodeList α) : List α := l.nodes.map Node.val

/-- The index of the designated node, or the length when the iterator is dangling. -/
def pos (l : NodeList α) (it : Iterator) : ℕ := l.addrs.idxOf it

/-- `it` is a valid iterator at index `i`, counted from the front. -/
def Designates (l : NodeList α) (it : Iterator) (i : ℕ) : Prop := l.addrs[i]? = some it

-----------------------------------------------------------------------------------------
-- Operations
-----------------------------------------------------------------------------------------

def empty : NodeList α := ⟨[], 0, [], by simp, by simp⟩

/-- `*it`, absent for a dangling iterator. -/
def deref? (l : NodeList α) (it : Iterator) : Option α := l.vals[l.pos it]?

def begin? (l : NodeList α) : Option Iterator := l.addrs.head?

def back? (l : NodeList α) : Option α := l.vals.getLast?

/-- The nodes from `it` up to the end, absent for a dangling iterator. -/
def from? (l : NodeList α) (it : Iterator) : Option (List (Node α)) :=
  if it ∈ l.addrs then some (l.nodes.drop (l.pos it)) else none

/-- `--it`. A live iterator steps to the preceding node, and nothing precedes the front. The step
of a dangling one is undefined; it is read here as following the link its node was left with
when it was erased.
-/
def prev? (l : NodeList α) (it : Iterator) : Option Iterator :=
  if it ∈ l.addrs then
    match l.pos it with
    | 0 => none
    | i + 1 => l.addrs[i]?
  else l.stale.lookup it

def pushFront (l : NodeList α) (val : α) : NodeList α where
  nodes := ⟨l.next, val⟩ :: l.nodes
  next := l.next + 1
  stale := l.stale
  distinct := by
    simp only [List.map_cons, List.nodup_cons]
    exact ⟨fun member => Nat.lt_irrefl _ (l.allocated _ member), l.distinct⟩
  allocated := by
    simp only [List.map_cons, List.mem_cons, forall_eq_or_imp]
    exact ⟨Nat.lt_succ_self _, fun it member => Nat.lt_succ_of_lt (l.allocated it member)⟩

def erase (l : NodeList α) (it : Iterator) : NodeList α where
  nodes := l.nodes.eraseIdx (l.pos it)
  next := l.next
  stale :=
    match l.prev? it with
    | some before => (it, before) :: l.stale
    | none => l.stale
  distinct := l.distinct.sublist ((List.eraseIdx_sublist _ _).map _)
  allocated := fun it member =>
    l.allocated it (((List.eraseIdx_sublist _ _).map _).subset member)

def popBack (l : NodeList α) : NodeList α :=
  match l.addrs.getLast? with
  | some it => l.erase it
  | none => l

def map (l : NodeList α) (f : α → α) : NodeList α where
  nodes := l.nodes.map (Node.map f)
  next := l.next
  stale := l.stale
  distinct := by simpa only [List.map_map, Function.comp_def, Node.map] using l.distinct
  allocated := by simpa only [List.map_map, Function.comp_def, Node.map] using l.allocated

/-- Update `*it` in place; absent for a dangling iterator. -/
def modify? (l : NodeList α) (it : Iterator) (f : α → α) : Option (NodeList α) :=
  if it ∈ l.addrs then
    some {
      nodes := l.nodes.modify (l.pos it) (Node.map f)
      next := l.next
      stale := l.stale
      distinct := (addrs_modify l.nodes (l.pos it) f).symm ▸ l.distinct
      allocated := (addrs_modify l.nodes (l.pos it) f).symm ▸ l.allocated
    }
  else none

-----------------------------------------------------------------------------------------
-- Designated positions
-----------------------------------------------------------------------------------------

@[simp]
theorem length_addrs (l : NodeList α) : l.addrs.length = l.nodes.length := by simp [addrs]

@[simp]
theorem length_vals (l : NodeList α) : l.vals.length = l.nodes.length := by simp [vals]

/-- A designated index is inside the list; witness: its successful lookup. -/
theorem Designates.lt {l : NodeList α} {it i} (h : l.Designates it i)
    : i < l.vals.length := by
  obtain ⟨bound, _⟩ := List.getElem?_eq_some_iff.mp h
  simpa using bound

/-- A designated iterator is live. -/
theorem Designates.mem {l : NodeList α} {it i} (h : l.Designates it i) : it ∈ l.addrs :=
  List.mem_of_getElem? h

/-- A live iterator designates its own position. -/
theorem designates_pos {l : NodeList α} {it} (live : it ∈ l.addrs)
    : l.Designates it (l.pos it) := by
  have bound : l.pos it < l.addrs.length := List.idxOf_lt_length_of_mem live
  simp only [Designates, List.getElem?_eq_getElem bound]
  exact congrArg some (List.getElem_idxOf bound)

/-- Addresses are distinct, so the designated index is the iterator's position. -/
theorem Designates.pos_eq {l : NodeList α} {it i} (h : l.Designates it i)
    : l.pos it = i := by
  obtain ⟨bound, same⟩ := List.getElem?_eq_some_iff.mp h
  subst same
  have distinct : l.addrs.Nodup := l.distinct
  exact distinct.idxOf_getElem i bound

/-- Two nodes at one index are one node. -/
theorem Designates.inj {l : NodeList α} {it other i} (h : l.Designates it i)
    (h' : l.Designates other i)
    : it = other :=
  Option.some.inj (h.symm.trans h')

/-- Dereferencing a designated node reads the value sequence at its index. -/
theorem Designates.deref {l : NodeList α} {it i} (h : l.Designates it i)
    : l.deref? it = l.vals[i]? := by
  simp only [deref?, h.pos_eq]

/-- Every index inside the list is designated by some live iterator. -/
theorem exists_designates {l : NodeList α} {i} (bound : i < l.vals.length)
    : ∃ it, l.Designates it i := by
  have inside : i < l.addrs.length := by simpa using bound
  exact ⟨l.addrs[i], List.getElem?_eq_getElem inside⟩

/-- The nodes from a designated one on are a suffix of the node sequence. -/
theorem Designates.from {l : NodeList α} {it i} (h : l.Designates it i)
    : l.from? it = some (l.nodes.drop i) := by
  simp only [from?, h.mem, if_true, h.pos_eq]

-----------------------------------------------------------------------------------------
-- Pushing and updating
-----------------------------------------------------------------------------------------

@[simp]
theorem vals_pushFront (l : NodeList α) (val : α)
    : (l.pushFront val).vals = val :: l.vals :=
  rfl

@[simp]
theorem addrs_pushFront (l : NodeList α) (val : α)
    : (l.pushFront val).addrs = l.next :: l.addrs :=
  rfl

/-- Pushing shifts every designated index by one. -/
theorem designates_pushFront {l : NodeList α} {it i} (val : α)
    : (l.pushFront val).Designates it (i + 1) ↔ l.Designates it i := by
  simp [Designates]

/-- The pushed node is at the front. -/
theorem designates_pushFront_zero {l : NodeList α} {it} (val : α)
    : (l.pushFront val).Designates it 0 ↔ it = l.next := by
  simp [Designates, eq_comm]

@[simp]
theorem vals_map (l : NodeList α) (f : α → α) : (l.map f).vals = l.vals.map f := by
  simp [map, vals, Node.map, Function.comp_def]

@[simp]
theorem addrs_map (l : NodeList α) (f : α → α) : (l.map f).addrs = l.addrs := by
  simp [map, addrs, Node.map, Function.comp_def]

/-- Updating a designated node succeeds, changes its element only, and moves nothing. -/
theorem Designates.modify {l : NodeList α} {it i} (h : l.Designates it i) (f : α → α)
    : ∃ l',
        l.modify? it f = some l'
        ∧ l'.vals = l.vals.modify i f
        ∧ l'.addrs = l.addrs
        ∧ l'.next = l.next
        ∧ l'.stale = l.stale := by
  simp only [modify?, h.mem, if_true, Option.some.injEq, exists_eq_left', h.pos_eq,
    and_self, and_true]
  refine ⟨?_, addrs_modify l.nodes i f⟩
  apply List.ext_getElem?
  intro k
  simp only [vals, List.getElem?_map, List.getElem?_modify]
  cases l.nodes[k]? with
  | none => rfl
  | some node => by_cases same : i = k <;> simp [same, Node.map]

-----------------------------------------------------------------------------------------
-- Erasing and stepping back
-----------------------------------------------------------------------------------------

theorem addrs_erase (l : NodeList α) (it : Iterator)
    : (l.erase it).addrs = l.addrs.eraseIdx (l.pos it) := by
  simp only [addrs, erase, List.eraseIdx_eq_take_drop_succ, List.map_append, List.map_take,
    List.map_drop]

theorem vals_erase (l : NodeList α) (it : Iterator)
    : (l.erase it).vals = l.vals.eraseIdx (l.pos it) := by
  simp only [vals, erase, List.eraseIdx_eq_take_drop_succ, List.map_append, List.map_take,
    List.map_drop]

/-- Erasing a node leaves the nodes before it where they were. -/
theorem designates_erase_of_lt {l : NodeList α} {erased it : Iterator} {i : ℕ}
    (before : i < l.pos erased)
    : (l.erase erased).Designates it i ↔ l.Designates it i := by
  simp [Designates, addrs_erase, List.getElem?_eraseIdx, before]

/-- Erasing a node moves the nodes behind it one place forward. -/
theorem designates_erase_of_le {l : NodeList α} {erased it : Iterator} {i : ℕ}
    (behind : l.pos erased ≤ i)
    : (l.erase erased).Designates it i ↔ l.Designates it (i + 1) := by
  simp [Designates, addrs_erase, List.getElem?_eraseIdx, Nat.not_lt.mpr behind]

/-- An erased iterator is dangling. -/
theorem not_mem_addrs_erase {l : NodeList α} {erased : Iterator}
    : erased ∉ (l.erase erased).addrs := by
  intro member
  have here := designates_pos member
  by_cases before : (l.erase erased).pos erased < l.pos erased
  · have same := ((designates_erase_of_lt before).mp here).pos_eq
    omega
  · have same := ((designates_erase_of_le (Nat.not_lt.mp before)).mp here).pos_eq
    omega

/-- Iterators other than the erased one stay live. -/
theorem mem_addrs_erase {l : NodeList α} {erased it : Iterator} (live : it ∈ l.addrs)
    (other : it ≠ erased)
    : it ∈ (l.erase erased).addrs := by
  have here := designates_pos live
  rcases Nat.lt_trichotomy (l.pos it) (l.pos erased) with before | same | behind
  · exact ((designates_erase_of_lt before).mpr here).mem
  · exact absurd ((List.idxOf_inj live).mp same) other
  · obtain ⟨i, index⟩ : ∃ i, l.pos it = i + 1 := ⟨l.pos it - 1, by omega⟩
    rw [index] at here behind
    exact ((designates_erase_of_le (Nat.lt_succ_iff.mp behind)).mpr here).mem

/-- A node that is not in front steps back to the node before it. -/
theorem Designates.prev {l : NodeList α} {it i} (h : l.Designates it (i + 1))
    : ∃ before, l.prev? it = some before ∧ l.Designates before i := by
  have inside : i < l.addrs.length := by
    have bound := h.lt
    simp only [length_vals, length_addrs] at bound ⊢
    omega
  refine ⟨l.addrs[i], ?_, List.getElem?_eq_getElem inside⟩
  simp only [prev?, h.mem, if_true, h.pos_eq]
  exact List.getElem?_eq_getElem inside

/-- Erasing a node at or behind an iterator does not change where the iterator steps back:
either it is still live with the same predecessor, or it is the erased one and follows the
link it was left with.
-/
theorem Designates.prev_erase {l : NodeList α} {it erased i} (h : l.Designates it (i + 1))
    (live : erased ∈ l.addrs) (behind : i + 1 ≤ l.pos erased)
    : (l.erase erased).prev? it = l.prev? it := by
  obtain ⟨before, step, _⟩ := h.prev
  by_cases same : it = erased
  · subst same
    have gone : it ∉ (l.erase it).addrs := not_mem_addrs_erase
    simp only [prev?, gone, if_false] at step ⊢
    simp only [erase, prev?, step, List.lookup_cons_self]
  · have later : i + 1 < l.pos erased := by
      rcases Nat.lt_or_eq_of_le behind with lt | eq
      · exact lt
      · exact absurd (h.inj (eq ▸ designates_pos live)) same
    have kept := (designates_erase_of_lt later).mpr h
    obtain ⟨stepped, step', at'⟩ := kept.prev
    have at'' := (designates_erase_of_lt (Nat.lt_of_succ_lt later)).mp at'
    obtain ⟨_, step'', here⟩ := h.prev
    rw [step', step'', here.inj at'']

/-- Popping erases the node at the last index. -/
theorem popBack_eq {l : NodeList α} {it i} (h : l.Designates it i)
    (last : l.vals.length = i + 1)
    : l.popBack = l.erase it := by
  have final : l.addrs.getLast? = some it := by
    rw [List.getLast?_eq_getElem?, show l.addrs.length - 1 = i by simp at last ⊢; omega]
    exact h
  simp only [popBack, final]

end NodeList

end CachingFileSystem.Containers
