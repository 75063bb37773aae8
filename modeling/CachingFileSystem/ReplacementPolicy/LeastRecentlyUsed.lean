import CachingFileSystem.ReplacementPolicy.Evolution

/-! The misses of a least recently used cache, read off the access history, and frequency-based
replacement compared with it: it misses no more often than such a cache with room for the places
in front of the old section and one more.
-/

namespace CachingFileSystem.ReplacementPolicy

variable {cfg : Sections} {Key Val Count : Type} [DecidableEq Key]

/-- The accesses that find fewer than `size` places too few: first accesses, and those with at
least `size` distinct others since the last one. Histories are most recent first.
-/
def recencyMisses (size : ℕ) : List Key → ℕ
  | [] => 0
  | key :: history =>
      if key ∈ history ∧ reuseDistance key history < size then recencyMisses size history
      else recencyMisses size history + 1

/-- A key is among the most recent ones exactly if it is near. -/
theorem mem_take_recencyOrder {key : Key} {history : List Key} {size : ℕ}
    : key ∈ (recencyOrder history).take size
      ↔ key ∈ history ∧ reuseDistance key history < size := by
  by_cases accessed : key ∈ history
  · rw [List.mem_take_iff_idxOf_lt (mem_recencyOrder.mpr accessed), idxOf_recencyOrder]
    exact (and_iff_right accessed).symm
  · refine iff_of_false (fun member => ?_) (fun both => accessed both.1)
    exact accessed (mem_recencyOrder.mp (List.mem_of_mem_take member))

/-- As many distinct others as were accessed since the last access are between. -/
theorem reuseDistance_append {key : Key} {between : List Key} (distinct : between.Nodup)
    (others : key ∉ between) (history : List Key)
    : reuseDistance key (between ++ key :: history) = between.length := by
  have stop : (between ++ key :: history).takeWhile (· ≠ key) = between := by
    rw [List.takeWhile_append_of_pos]
    · simp
    · intro other member
      exact decide_eq_true (fun same => others (same ▸ member))
  rw [reuseDistance, stop, List.toFinset_card_of_nodup distinct]

/-- A key of a window that leads the history is near, as no others are between. -/
theorem reuseDistance_lt_of_window {key : Key} {recent : List Key} {window : Finset Key}
    (within : ∀ other ∈ recent, other ∈ window) (member : key ∈ recent) (history : List Key)
    : reuseDistance key (recent ++ history) < window.card := by
  have stop : (recent ++ history).takeWhile (· ≠ key) = recent.takeWhile (· ≠ key) := by
    obtain ⟨front, back, rfl⟩ := List.append_of_mem member
    induction front with
    | nil => simp
    | cons head front ih =>
        by_cases same : head = key
        · simp [same]
        · have rest := ih (fun other later => within other (List.mem_cons_of_mem _ later)) (by simp)
          simpa [same] using rest
  have between : (recent.takeWhile (· ≠ key)).toFinset ⊆ window.erase key := by
    intro other inside
    have before := List.mem_toFinset.mp inside
    have ne := List.mem_takeWhile_imp before
    exact Finset.mem_erase.mpr
      ⟨of_decide_eq_true ne, within other ((List.takeWhile_sublist _).subset before)⟩
  have cards := Finset.card_le_card between
  rw [Finset.card_erase_of_mem (within key member)] at cards
  have some : 0 < window.card := Finset.card_pos.mpr ⟨key, within key member⟩
  rw [reuseDistance, stop]
  omega

/-- More places never miss more often, by induction on the history. -/
theorem recencyMisses_antitone {fewer more : ℕ} (le : fewer ≤ more) (history : List Key)
    : recencyMisses more history ≤ recencyMisses fewer history := by
  induction history with
  | nil => exact Nat.le_refl 0
  | cons key history ih =>
      simp only [recencyMisses]
      by_cases near : key ∈ history ∧ reuseDistance key history < fewer
      · rw [if_pos near, if_pos ⟨near.1, near.2.trans_le le⟩]
        exact ih
      · rw [if_neg near]
        split <;> omega

/-- Every miss of one step is a miss of the recency order with the common places. -/
theorem Tracks.far_of_absent [One Count] [Add Count] {c : FrequencyCache cfg Key Val Count}
    {history : List (Touch Key)} (h : Tracks c history) {key : Key} (absent : key ∉ c.keys)
    : ¬ (key ∈ history.map Touch.key
        ∧ reuseDistance key (history.map Touch.key) < cfg.oldStart + 1) := by
  intro near
  exact absent (h.retains near.1 (Nat.le_of_lt_succ near.2))

/-- A run never inserts more often than a least recently used cache with `oldStart + 1` places
misses; by cases on the operation.
-/
theorem Evolves.insertions_le [LinearOrder Count] [One Count] [Add Count]
    {c : FrequencyCache cfg Key Val Count} {history : List (Touch Key)} (h : Evolves history c)
    : insertions history ≤ recencyMisses (cfg.oldStart + 1) (history.map Touch.key) := by
  have both : Tracks c history
      ∧ insertions history ≤ recencyMisses (cfg.oldStart + 1) (history.map Touch.key) := by
    refine h.invariant
      (fun history c =>
        Tracks c history
        ∧ insertions history ≤ recencyMisses (cfg.oldStart + 1) (history.map Touch.key))
      ⟨tracks_empty, Nat.le_refl 0⟩ ?_
    intro history c label c' before next
    obtain ⟨tracks, fewer⟩ := before
    cases next with
    | hit present =>
        refine ⟨tracks.hit present, ?_⟩
        simp only [Option.toList, List.singleton_append, insertions, List.map_cons, recencyMisses]
        split <;> omega
    | insert absent inserted =>
        refine ⟨tracks.insert absent inserted, ?_⟩
        have far := tracks.far_of_absent absent
        simp only [Option.toList, List.singleton_append, insertions, List.map_cons, Touch.key,
          recencyMisses]
        rw [if_neg far]
        omega
    | mapVals f => exact ⟨tracks.mapVals f, fewer⟩
    | miss => exact ⟨tracks, fewer⟩
  exact both.2

-----------------------------------------------------------------------------------------
-- A single old place
-----------------------------------------------------------------------------------------

/-- With one old place the cache holds the most recently touched keys in their order. -/
theorem Tracks.keys_eq [One Count] [Add Count] {c : FrequencyCache cfg Key Val Count}
    {history : List (Touch Key)} (h : Tracks c history) (single : cfg.oldSize = 1)
    : c.keys = (recencyOrder (history.map Touch.key)).take cfg.size := by
  have fits := cfg.fits
  have places : cfg.oldStart + 1 = cfg.size := by
    simp only [Sections.oldStart]
    omega
  have bounded : c.keys.length ≤ cfg.size := by
    simpa only [FrequencyCache.keys, List.length_map] using c.bounded
  rw [← places, ← h.recent, places, List.take_of_length_le bounded]

/-- So a key is cached exactly if it was touched with fewer than `size` distinct others since. -/
theorem Tracks.mem_keys_iff [One Count] [Add Count] {c : FrequencyCache cfg Key Val Count}
    {history : List (Touch Key)} (h : Tracks c history) (single : cfg.oldSize = 1) {key : Key}
    : key ∈ c.keys
      ↔ key ∈ history.map Touch.key
        ∧ reuseDistance key (history.map Touch.key) < cfg.size := by
  rw [h.keys_eq single]
  exact mem_take_recencyOrder

/-- With one old place a run inserts exactly as often as a least recently used cache of the same
size misses; by cases on the operation.
-/
theorem Evolves.insertions_eq [LinearOrder Count] [One Count] [Add Count]
    {c : FrequencyCache cfg Key Val Count} {history : List (Touch Key)} (h : Evolves history c)
    (single : cfg.oldSize = 1)
    : insertions history = recencyMisses cfg.size (history.map Touch.key) := by
  have both : Tracks c history
      ∧ insertions history = recencyMisses cfg.size (history.map Touch.key) := by
    refine h.invariant
      (fun history c =>
        Tracks c history ∧ insertions history = recencyMisses cfg.size (history.map Touch.key))
      ⟨tracks_empty, rfl⟩ ?_
    intro history c label c' before next
    obtain ⟨tracks, same⟩ := before
    cases next with
    | hit present =>
        refine ⟨tracks.hit present, ?_⟩
        have near := (tracks.mem_keys_iff single).mp present
        simp only [Option.toList, List.singleton_append, insertions, List.map_cons, Touch.key,
          recencyMisses]
        rw [if_pos near]
        exact same
    | insert absent inserted =>
        refine ⟨tracks.insert absent inserted, ?_⟩
        have far := fun near => absent ((tracks.mem_keys_iff single).mpr near)
        simp only [Option.toList, List.singleton_append, insertions, List.map_cons, Touch.key,
          recencyMisses]
        rw [if_neg far, same]
    | mapVals f => exact ⟨tracks.mapVals f, same⟩
    | miss => exact ⟨tracks, same⟩
  exact both.2

end CachingFileSystem.ReplacementPolicy
