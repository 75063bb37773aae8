import CachingFileSystem.ReplacementPolicy.LeastRecentlyUsed
import Mathlib.Tactic.Linarith

/-! The misses of a least recently used cache against any other way to serve the same accesses,
with knowledge of the later ones too. The potential weighs the recent keys that the other side
does not hold by their place.
-/

namespace CachingFileSystem.ReplacementPolicy

variable {Key : Type} [DecidableEq Key]

/-- A way to serve a history, latest access first, from `places` places: what is held after it
and how many keys were fetched. The accessed key is held; any keys may be fetched or dropped
along with it.
-/
inductive Serves (places : ℕ) : List Key → Finset Key → ℕ → Prop
  | start : Serves places [] ∅ 0
  | access {history held fetched key} {next : Finset Key}
    (before : Serves places history held fetched) (served : key ∈ next)
    (fits : next.card ≤ places)
    : Serves places (key :: history) next (fetched + (next \ held).card)

/-- The first `size` keys weigh `size` down to one, except for those held. -/
def weight (held : Finset Key) : ℕ → List Key → ℕ
  | size + 1, key :: keys => (if key ∈ held then 0 else size + 1) + weight held size keys
  | _, _ => 0

-----------------------------------------------------------------------------------------
-- The weight of a list
-----------------------------------------------------------------------------------------

@[simp]
theorem weight_zero (held : Finset Key) (keys : List Key) : weight held 0 keys = 0 := by
  cases keys <;> rfl

@[simp]
theorem weight_nil (held : Finset Key) (size : ℕ) : weight held size [] = 0 := by
  cases size <;> rfl

/-- Holding more weighs less, by induction on the list. -/
theorem weight_anti {held more : Finset Key} (subset : held ⊆ more) (size : ℕ)
    (keys : List Key)
    : weight more size keys ≤ weight held size keys := by
  induction keys generalizing size with
  | nil => simp
  | cons key keys ih =>
      cases size with
      | zero => simp
      | succ size =>
          have rest := ih size
          simp only [weight]
          by_cases holds : key ∈ held
          · rw [if_pos holds, if_pos (subset holds)]
            omega
          · rw [if_neg holds]
            split <;> omega

/-- A key that is not listed weighs nothing, by induction on the list. -/
theorem weight_erase_of_not_mem {keys : List Key} {dropped : Key} (absent : dropped ∉ keys)
    (held : Finset Key) (size : ℕ)
    : weight (held.erase dropped) size keys = weight held size keys := by
  induction keys generalizing size with
  | nil => simp
  | cons key keys ih =>
      simp only [List.mem_cons, not_or] at absent
      cases size with
      | zero => simp
      | succ size =>
          simp only [weight, Finset.mem_erase, ne_eq, Ne.symm absent.1, not_false_eq_true,
            true_and, ih absent.2 size]

/-- Dropping one key adds at most the largest weight, by induction on the list. -/
theorem weight_erase_le {keys : List Key} (distinct : keys.Nodup) (held : Finset Key)
    (dropped : Key) (size : ℕ)
    : weight (held.erase dropped) size keys ≤ weight held size keys + size := by
  induction keys generalizing size with
  | nil => simp
  | cons key keys ih =>
      obtain ⟨fresh, distinct⟩ := List.nodup_cons.mp distinct
      cases size with
      | zero => simp
      | succ size =>
          simp only [weight]
          by_cases same : key = dropped
          · subst same
            rw [weight_erase_of_not_mem fresh]
            split <;> split <;> omega
          · have rest := ih distinct size
            simp only [Finset.mem_erase, same, ne_eq, not_false_eq_true, true_and]
            omega

/-- Dropping several keys adds at most the largest weight for each, by induction on them. -/
theorem weight_sdiff_le {keys : List Key} (distinct : keys.Nodup) (held dropped : Finset Key)
    (size : ℕ)
    : weight (held \ dropped) size keys ≤ weight held size keys + size * dropped.card := by
  induction dropped using Finset.induction_on with
  | empty => simp
  | insert key dropped fresh ih =>
      have one := weight_erase_le distinct (held \ dropped) key size
      rw [Finset.card_insert_of_notMem fresh, Finset.sdiff_insert, Nat.mul_succ]
      omega

/-- One more place makes every weight one larger, by induction on the list. -/
theorem weight_succ (held : Finset Key) (size : ℕ) (keys : List Key)
    : weight held (size + 1) keys
      = weight held size keys
        + ((keys.take (size + 1)).filter (fun key => key ∉ held)).length := by
  induction keys generalizing size with
  | nil => simp
  | cons key keys ih =>
      cases size with
      | zero =>
          simp only [weight]
          by_cases holds : key ∈ held <;> simp [holds]
      | succ size =>
          have rest := ih size
          simp only [List.take_succ_cons, weight] at rest ⊢
          rw [rest]
          by_cases holds : key ∈ held
          · simp only [holds, not_true_eq_false, decide_false, if_true, Bool.false_eq_true,
              not_false_eq_true, List.filter_cons_of_neg]
            omega
          · simp only [holds, not_false_eq_true, decide_true, if_false, List.filter_cons_of_pos,
              List.length_cons]
            omega

/-- Only the first places weigh anything, by induction on the list. -/
theorem weight_take (held : Finset Key) (size : ℕ) (keys : List Key)
    : weight held size (keys.take size) = weight held size keys := by
  induction keys generalizing size with
  | nil => simp
  | cons key keys ih =>
      cases size with
      | zero => simp
      | succ size => simp only [List.take_succ_cons, weight, ih size]

/-- Taking a key out of the list moves the later ones up by the place it left. -/
theorem weight_listErase_le (held : Finset Key) (size : ℕ) (keys : List Key) (key : Key)
    : weight held size (keys.erase key) ≤ weight held (size + 1) keys := by
  induction keys generalizing size with
  | nil => simp
  | cons head keys ih =>
      by_cases same : head = key
      · subst same
        simp only [List.erase_cons_head, weight]
        omega
      · rw [List.erase_cons_tail (by simpa using same)]
        cases size with
        | zero => simp
        | succ size =>
            have rest := ih size
            simp only [weight] at rest ⊢
            split <;> omega

/-- A key behind the first places can be taken out for free. -/
theorem weight_listErase_eq {held : Finset Key} {size : ℕ} {keys : List Key} {key : Key}
    (behind : key ∉ keys.take (size + 1))
    : weight held size (keys.erase key) = weight held size keys := by
  rw [← weight_take held size (keys.erase key), take_erase, List.erase_of_not_mem behind,
    List.take_take, Nat.min_eq_left (Nat.le_succ size), weight_take]

-----------------------------------------------------------------------------------------
-- The potential
-----------------------------------------------------------------------------------------

/-- What is held and dropped on the other side is paid for by what it fetches. -/
theorem weight_next_le {keys : List Key} (distinct : keys.Nodup) (held next : Finset Key)
    (size : ℕ)
    : weight next size keys + size * next.card
      ≤ weight held size keys + size * held.card + size * (next \ held).card := by
  have more := weight_anti (@Finset.subset_union_left _ _ held next) size keys
  have dropped := weight_sdiff_le distinct (held ∪ next) (held \ next) size
  have left : (held ∪ next) \ (held \ next) = next := by
    ext key
    simp only [Finset.mem_sdiff, Finset.mem_union, not_and, not_not]
    tauto
  have cards : held.card + (next \ held).card = next.card + (held \ next).card := by
    have fetched := Finset.card_sdiff_add_card next held
    have lost := Finset.card_sdiff_add_card held next
    rw [Finset.union_comm] at lost
    omega
  rw [left] at dropped
  have products := congrArg (size * ·) cards
  simp only [Nat.mul_add] at products
  omega

/-- Of the first `size` keys all but one fewer than the `places` are missing on the other side,
when that side holds a key that is not among them.
-/
theorem missing_le {keys : List Key} (distinct : keys.Nodup) {next : Finset Key} {key : Key}
    {size places : ℕ} (full : size ≤ keys.length) (behind : key ∉ keys.take size)
    (served : key ∈ next) (fits : next.card ≤ places)
    : size + 1 - places ≤ ((keys.take size).filter (fun other => other ∉ next)).length := by
  have split := (keys.take size).length_eq_length_filter_add (fun other => decide (other ∉ next))
  have taken : (keys.take size).length = size := by
    rw [List.length_take]
    omega
  have common : ((keys.take size).filter (fun other => !decide (other ∉ next))).length
      ≤ (next.erase key).card := by
    have nodup : ((keys.take size).filter (fun other => !decide (other ∉ next))).Nodup :=
      (distinct.sublist (List.take_sublist _ _)).filter _
    rw [← List.toFinset_card_of_nodup nodup]
    refine Finset.card_le_card (fun other member => ?_)
    simp only [List.mem_toFinset, List.mem_filter, decide_not, Bool.not_not,
      decide_eq_true_eq] at member
    exact Finset.mem_erase.mpr ⟨fun same => behind (same ▸ member.1), member.2⟩
  rw [Finset.card_erase_of_mem served] at common
  have some : 0 < next.card := Finset.card_pos.mpr ⟨key, served⟩
  omega

/-- What one access pays: a miss lowers the weight of the recent keys, or fills a place. -/
theorem recencyMisses_paid {next : Finset Key} {key : Key} {size places : ℕ} (positive : 0 < size)
    (served : key ∈ next) (fits : next.card ≤ places) (history : List Key)
    : (size + 1 - places) * recencyMisses size (key :: history)
        + weight next size (recencyOrder (key :: history))
        + (size + 1 - places) * (size - (recencyOrder (key :: history)).length)
      ≤ (size + 1 - places) * recencyMisses size history
        + weight next size (recencyOrder history)
        + (size + 1 - places) * (size - (recencyOrder history).length) := by
  obtain ⟨size, rfl⟩ : ∃ less, size = less + 1 := Nat.exists_eq_succ_of_ne_zero positive.ne'
  have front : weight next (size + 1) (recencyOrder (key :: history))
      = weight next size ((recencyOrder history).erase key) := by
    simp only [recencyOrder, weight, served, if_true, Nat.zero_add]
  by_cases near : key ∈ history ∧ reuseDistance key history < size + 1
  · -- a hit: the keys in front of it lose one place each
    have known : key ∈ recencyOrder history := mem_recencyOrder.mpr near.1
    have length : (recencyOrder (key :: history)).length = (recencyOrder history).length := by
      have some := List.length_pos_of_mem known
      simp only [recencyOrder, List.length_cons, List.length_erase_of_mem known]
      omega
    have moved := weight_listErase_le next size (recencyOrder history) key
    rw [front, length, recencyMisses, if_pos near]
    omega
  · have behind : key ∉ (recencyOrder history).take (size + 1) :=
      fun member => near (mem_take_recencyOrder.mp member)
    have lower := weight_succ next size (recencyOrder history)
    rw [front, weight_listErase_eq behind, recencyMisses, if_neg near, Nat.mul_succ]
    rcases Nat.lt_or_ge (recencyOrder history).length (size + 1) with free | full
    · -- a miss that fills a place
      have fresh : key ∉ recencyOrder history := by
        rwa [List.take_of_length_le (Nat.le_of_lt free)] at behind
      have length : (recencyOrder (key :: history)).length
          = (recencyOrder history).length + 1 := by
        simp only [recencyOrder, List.length_cons, List.erase_of_not_mem fresh]
      have places' : size + 1 - (recencyOrder history).length
          = (size + 1 - ((recencyOrder history).length + 1)) + 1 := by omega
      rw [length, places', Nat.mul_succ]
      omega
    · -- a miss of a full cache
      have missing := missing_le (nodup_recencyOrder history) full behind served fits
      have longer : size + 1 ≤ (recencyOrder (key :: history)).length := by
        refine full.trans ?_
        simp only [recencyOrder, List.length_cons]
        have erased := (recencyOrder history).le_length_erase (a := key)
        omega
      rw [Nat.sub_eq_zero_of_le full, Nat.sub_eq_zero_of_le longer]
      omega

/-- A least recently used cache with `size` places misses at most `size / (size + 1 - places)`
times as often as any way to serve the accesses from `places` places fetches, but for filling
its places; by induction on the served history, with the potential as the invariant.
-/
theorem Serves.recencyMisses_le {size places : ℕ} (positive : 0 < size) {history : List Key}
    {held : Finset Key} {fetched : ℕ} (serves : Serves places history held fetched)
    : (size + 1 - places) * recencyMisses size history
      ≤ size * fetched + (size + 1 - places) * size := by
  suffices invariant : (size + 1 - places) * recencyMisses size history
      + weight held size (recencyOrder history)
      + (size + 1 - places) * (size - (recencyOrder history).length)
      + size * held.card
      ≤ size * fetched + (size + 1 - places) * size by omega
  induction serves with
  | start => simp [recencyMisses, recencyOrder]
  | @access history held fetched key next before served fits ih =>
      have paid := recencyMisses_paid positive served fits history
      have moved := weight_next_le (nodup_recencyOrder history) held next size
      rw [Nat.mul_add]
      omega

end CachingFileSystem.ReplacementPolicy
