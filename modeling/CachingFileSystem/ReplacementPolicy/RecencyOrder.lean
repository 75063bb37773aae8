import Mathlib.Data.Finset.Dedup
import Mathlib.Data.Finset.Card
import Mathlib.Data.List.TakeWhile

/-! Most-recent-first access histories: the recency order of the accessed keys, and the
reuse distance of a key, which is its place in that order.
-/

namespace CachingFileSystem.ReplacementPolicy

variable {Key : Type} [DecidableEq Key]

/-- The distinct keys of a history, most recently accessed first. -/
def recencyOrder : List Key → List Key
  | [] => []
  | key :: history => key :: (recencyOrder history).erase key

/-- The number of distinct other keys accessed since the last access of `key`. -/
def reuseDistance (key : Key) (history : List Key) : ℕ :=
  (history.takeWhile (· ≠ key)).toFinset.card

/-- The recency order has no repetitions, by induction on the history. -/
theorem nodup_recencyOrder (history : List Key) : (recencyOrder history).Nodup := by
  induction history with
  | nil => exact List.nodup_nil
  | cons key history ih => exact List.nodup_cons.mpr ⟨ih.not_mem_erase, ih.erase key⟩

/-- The recency order lists exactly the accessed keys, by induction on the history. -/
theorem mem_recencyOrder {key : Key} {history : List Key}
    : key ∈ recencyOrder history ↔ key ∈ history := by
  induction history with
  | nil => rfl
  | cons head history ih =>
      by_cases same : key = head
      · simp [recencyOrder, same]
      · simp only [recencyOrder, List.mem_cons, same, false_or,
          List.mem_erase_of_ne same, ih]

/-- The length of the recency order counts the distinct keys accessed. -/
theorem length_recencyOrder (history : List Key)
    : (recencyOrder history).length = history.toFinset.card := by
  rw [← List.toFinset_card_of_nodup (nodup_recencyOrder history)]
  congr 1
  ext key
  simp only [List.mem_toFinset, mem_recencyOrder]

/-- Removing a different key commutes with cutting a list in front of a key. -/
theorem takeWhile_erase {key other : Key} (ne : other ≠ key) (l : List Key)
    : (l.erase other).takeWhile (· ≠ key) = (l.takeWhile (· ≠ key)).erase other := by
  induction l with
  | nil => rfl
  | cons head tail ih =>
      by_cases same : head = other
      · subst same
        simp [ne]
      · by_cases stop : head = key
        · subst stop
          simp [same]
        · simpa [same, stop] using ih

/-- The keys more recent than `key` are the recency order of the history since its last
access; by induction on the history.
-/
theorem takeWhile_recencyOrder (key : Key) (history : List Key)
    : (recencyOrder history).takeWhile (· ≠ key)
      = recencyOrder (history.takeWhile (· ≠ key)) := by
  induction history with
  | nil => rfl
  | cons head history ih =>
      by_cases same : head = key
      · simp [recencyOrder, same]
      · simp only [recencyOrder, List.takeWhile_cons, same, ne_eq, not_false_eq_true,
          decide_true, if_true]
        rw [← ih]
        simpa using takeWhile_erase same (recencyOrder history)

/-- An element's index is the length of the list in front of it. -/
theorem idxOf_eq_length_takeWhile (key : Key) (l : List Key)
    : l.idxOf key = (l.takeWhile (· ≠ key)).length := by
  induction l with
  | nil => rfl
  | cons head tail ih =>
      by_cases same : head = key
      · simp [same]
      · simp [same, List.idxOf_cons_ne _ same, ih]

/-- The reuse distance of a key is its index in the recency order. -/
theorem idxOf_recencyOrder (key : Key) (history : List Key)
    : (recencyOrder history).idxOf key = reuseDistance key history := by
  rw [idxOf_eq_length_takeWhile, takeWhile_recencyOrder, length_recencyOrder]
  rfl

-----------------------------------------------------------------------------------------
-- Prefixes of a list whose elements move to the front
-----------------------------------------------------------------------------------------

/-- A prefix of a list without one key depends on one more element of the list. -/
theorem take_erase (l : List Key) (key : Key) (count : ℕ)
    : (l.erase key).take count = ((l.take (count + 1)).erase key).take count := by
  induction l generalizing count with
  | nil => rfl
  | cons head tail ih =>
      by_cases same : head = key
      · subst same
        simp
      · cases count with
        | zero => simp
        | succ count => simpa [same] using ih count

/-- Lists that agree on a prefix still do after one key moved to the front of both. -/
theorem take_cons_erase_congr {left right : List Key} {count : ℕ}
    (agree : left.take (count + 1) = right.take (count + 1)) (key : Key)
    : (key :: left.erase key).take (count + 1) = (key :: right.erase key).take (count + 1) := by
  simp only [List.take_succ_cons]
  rw [take_erase left, take_erase right, agree]

/-- Lists that agree on a prefix place a common key before the same indices of it. -/
theorem le_idxOf_iff_of_take_eq {left right : List Key} {count place : ℕ}
    (agree : left.take count = right.take count) (within : place ≤ count) {key : Key}
    (inLeft : key ∈ left) (inRight : key ∈ right)
    : place ≤ left.idxOf key ↔ place ≤ right.idxOf key := by
  have shorter : left.take place = right.take place := by
    simpa only [List.take_take, Nat.min_eq_left within] using congrArg (List.take place) agree
  rw [← Nat.not_lt, ← Nat.not_lt, ← List.mem_take_iff_idxOf_lt inLeft,
    ← List.mem_take_iff_idxOf_lt inRight, shorter]

end CachingFileSystem.ReplacementPolicy
