import Mathlib.Order.Lattice
import Mathlib.Data.Nat.Notation

/-! The least element of a list that is nearest its end, and the left-to-right scan that
finds it by replacing its candidate on every element that is not larger.
-/

namespace CachingFileSystem.Containers

variable {α : Type} [LinearOrder α]

/-- The index and value of the least element; the last one among equals. -/
def lastMin? : List α → Option (ℕ × α)
  | [] => none
  | head :: tail =>
      match lastMin? tail with
      | none => some (0, head)
      | some (index, least) =>
          if head < least then some (0, head) else some (index + 1, least)

/-- A least element exists exactly in nonempty lists. -/
theorem lastMin?_isSome {l : List α} (nonempty : l ≠ []) : ∃ found, lastMin? l = some found := by
  cases l with
  | nil => exact absurd rfl nonempty
  | cons head tail =>
      simp only [lastMin?]
      cases lastMin? tail with
      | none => exact ⟨_, rfl⟩
      | some found => by_cases less : head < found.2 <;> simp [less]

/-- The index found is in the list, its element is below all others and strictly below
the later ones; by induction on the list.
-/
theorem lastMin?_spec {l : List α} {index : ℕ} {least : α}
    (found : lastMin? l = some (index, least))
    : l[index]? = some least
      ∧ (∀ (i : ℕ) value, l[i]? = some value → least ≤ value)
      ∧ ∀ (i : ℕ) value, index < i → l[i]? = some value → least < value := by
  induction l generalizing index least with
  | nil => simp [lastMin?] at found
  | cons head tail ih =>
      simp only [lastMin?] at found
      cases rest : lastMin? tail with
      | none =>
          have empty : tail = [] := by
            by_contra nonempty
            obtain ⟨_, some⟩ := lastMin?_isSome nonempty
            simp [rest] at some
          simp only [rest, Option.some.injEq, Prod.mk.injEq] at found
          obtain ⟨rfl, rfl⟩ := found
          subst empty
          refine ⟨rfl, ?_, ?_⟩
          · intro i value at'
            cases i <;> simp_all
          · intro i value later at'
            cases i <;> simp_all
      | some candidate =>
          obtain ⟨place, small⟩ := candidate
          obtain ⟨here, below, strict⟩ := ih rest
          simp only [rest] at found
          by_cases less : head < small
          · simp only [less, if_true, Option.some.injEq, Prod.mk.injEq] at found
            obtain ⟨rfl, rfl⟩ := found
            refine ⟨rfl, ?_, ?_⟩
            · intro i value at'
              cases i with
              | zero => exact (Option.some.inj at').le
              | succ i => exact less.le.trans (below i value at')
            · intro i value later at'
              cases i with
              | zero => exact absurd later (Nat.lt_irrefl 0)
              | succ i => exact less.trans_le (below i value at')
          · simp only [less, if_false, Option.some.injEq, Prod.mk.injEq] at found
            obtain ⟨rfl, rfl⟩ := found
            refine ⟨here, ?_, ?_⟩
            · intro i value at'
              cases i with
              | zero => exact (Option.some.inj at') ▸ not_lt.mp less
              | succ i => exact below i value at'
            · intro i value later at'
              cases i with
              | zero => exact absurd later (Nat.not_lt_zero _)
              | succ i => exact strict i value (Nat.lt_of_succ_lt_succ later) at'

/-- The index found is inside the list. -/
theorem lastMin?_lt {l : List α} {index : ℕ} {least : α}
    (found : lastMin? l = some (index, least))
    : index < l.length :=
  (List.getElem?_eq_some_iff.mp (lastMin?_spec found).1).1

/-- The front is the least element exactly when every later element is larger. -/
theorem lastMin?_zero_iff {head : α} {tail : List α} {index : ℕ} {least : α}
    (found : lastMin? (head :: tail) = some (index, least))
    : index = 0 ↔ ∀ value ∈ tail, head < value := by
  obtain ⟨here, below, strict⟩ := lastMin?_spec found
  constructor
  · intro zero value member
    subst zero
    obtain ⟨i, at'⟩ := List.mem_iff_getElem?.mp member
    have same : head = least := Option.some.inj here
    exact same ▸ strict (i + 1) value (Nat.succ_pos i) at'
  · intro larger
    by_contra positive
    obtain ⟨i, rfl⟩ : ∃ i, index = i + 1 := ⟨index - 1, by omega⟩
    have member : least ∈ tail := List.mem_of_getElem? here
    exact absurd (below 0 head rfl) (not_le.mpr (larger least member))

/-- Elements whose images are ordered alike have their last minimum at the same place; by induction
on the list.
-/
theorem lastMin?_map {β : Type} [LinearOrder β] {f : β → α} {l : List β}
    (ordered : ∀ value ∈ l, ∀ other ∈ l, f value ≤ f other ↔ value ≤ other)
    : lastMin? (l.map f) = (lastMin? l).map (Prod.map id f) := by
  induction l with
  | nil => rfl
  | cons head tail ih =>
      have rest := ih (fun value member other otherMember =>
        ordered value (List.mem_cons_of_mem _ member) other (List.mem_cons_of_mem _ otherMember))
      rw [List.map_cons, lastMin?, rest, lastMin?]
      rcases found : lastMin? tail with _ | ⟨index, least⟩
      · rfl
      · have member : least ∈ tail := List.mem_of_getElem? (lastMin?_spec found).1
        have same : f head < f least ↔ head < least := by
          rw [← not_le, ← not_le,
            ordered least (List.mem_cons_of_mem _ member) head List.mem_cons_self]
        by_cases less : head < least
        · simp [less, same.mpr less]
        · simp [less, mt same.mp less]

/-- Scanning left to right and replacing the candidate on `≤` ends at the last minimum,
if it is not above the starting bound; by induction on the scanned list.
-/
theorem foldl_lastMin {β : Type} (key : β → α) (l : List β) (bound : α) (start : Option β)
    : l.foldl (fun best item => if key item ≤ best.1 then (key item, some item) else best)
        (bound, start)
      = match lastMin? (l.map key) with
        | none => (bound, start)
        | some (index, least) => if least ≤ bound then (least, l[index]?) else (bound, start) := by
  induction l generalizing bound start with
  | nil => rfl
  | cons head tail ih =>
      simp only [List.foldl_cons, List.map_cons, lastMin?]
      by_cases accepted : key head ≤ bound
      · simp only [accepted, if_true]
        rw [ih]
        cases lastMin? (tail.map key) with
        | none => simp [accepted]
        | some found =>
            by_cases less : key head < found.2
            · simp [less, accepted, not_le.mpr less]
            · have small : found.2 ≤ key head := not_lt.mp less
              simp [less, small, small.trans accepted]
      · simp only [accepted, if_false]
        rw [ih]
        cases lastMin? (tail.map key) with
        | none => simp [accepted]
        | some found =>
            by_cases less : key head < found.2
            · have large : ¬ found.2 ≤ bound := fun le => accepted (less.le.trans le)
              simp [less, accepted, large]
            · simp [less]

end CachingFileSystem.Containers
