import CachingFileSystem.Containers.NodeList
import Mathlib.Data.List.InsertIdx

/-! Lists whose elements are mapped: the operations do the same to them, at the same addresses. -/

namespace CachingFileSystem.Containers.NodeList

variable {α : Type} {l l' : NodeList α} {f g : α → α}

theorem eq_of_nodes (nodes : l.nodes = l'.nodes) (next : l.next = l'.next)
    (stale : l.stale = l'.stale)
    : l = l' := by
  obtain ⟨_, _, _, _, _⟩ := l
  obtain ⟨_, _, _, _, _⟩ := l'
  cases nodes
  cases next
  cases stale
  rfl

theorem map_map (f g : α → α) (l : NodeList α) : (l.map f).map g = l.map (g ∘ f) :=
  eq_of_nodes (List.map_map ..) rfl rfl

@[simp]
theorem pos_map (it : Iterator) : (l.map f).pos it = l.pos it := by
  rw [pos, addrs_map, pos]

@[simp]
theorem deref?_map (it : Iterator) : (l.map f).deref? it = (l.deref? it).map f := by
  rw [deref?, pos_map, vals_map, List.getElem?_map, deref?]

@[simp]
theorem begin?_map : (l.map f).begin? = l.begin? := by
  rw [begin?, addrs_map, begin?]

@[simp]
theorem back?_map : (l.map f).back? = l.back?.map f := by
  rw [back?, vals_map, List.getLast?_map, back?]

@[simp]
theorem from?_map (it : Iterator)
    : (l.map f).from? it = (l.from? it).map (List.map (Node.map f)) := by
  rw [from?, addrs_map, pos_map, from?]
  split
  · rw [Option.map_some, List.map_drop, map]
  · rfl

@[simp]
theorem prev?_map (it : Iterator) : (l.map f).prev? it = l.prev? it := by
  rw [prev?, addrs_map, pos_map, prev?]
  rfl

theorem pushFront_map (val : α) : (l.map f).pushFront (f val) = (l.pushFront val).map f :=
  eq_of_nodes rfl rfl rfl

@[simp]
theorem erase_map (it : Iterator) : (l.map f).erase it = (l.erase it).map f := by
  refine eq_of_nodes ?_ rfl ?_
  · change (l.nodes.map (Node.map f)).eraseIdx ((l.map f).pos it) = _
    rw [pos_map]
    exact List.eraseIdx_map _ _ _
  · rw [erase, erase, prev?_map]
    rfl

@[simp]
theorem popBack_map : (l.map f).popBack = l.popBack.map f := by
  rw [popBack, addrs_map, popBack]
  split
  · exact erase_map _
  · rfl

/-- An update that commutes with the mapping does the same before it and after it. -/
theorem modify?_map (commute : ∀ val, g (f val) = f (g val)) (it : Iterator)
    : (l.map f).modify? it g = (l.modify? it g).map (fun l => l.map f) := by
  unfold modify?
  rw [addrs_map]
  split
  · refine congrArg some (eq_of_nodes ?_ rfl rfl)
    change (l.nodes.map (Node.map f)).modify ((l.map f).pos it) (Node.map g)
      = (l.nodes.modify (l.pos it) (Node.map g)).map (Node.map f)
    rw [pos_map]
    apply List.ext_getElem?
    intro k
    simp only [List.getElem?_map, List.getElem?_modify]
    cases l.nodes[k]? with
    | none => rfl
    | some node => by_cases same : l.pos it = k <;> simp [same, Node.map, commute]
  · rfl

end CachingFileSystem.Containers.NodeList
