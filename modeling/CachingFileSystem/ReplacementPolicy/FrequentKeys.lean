import CachingFileSystem.ReplacementPolicy.BoundedCounts
import CachingFileSystem.ReplacementPolicy.Evolution

/-! Keys that were often hit far stay cached. Replacement takes the least counted entry of the
old section, so while fewer keys are frequent than the old section has places, a scan over any
number of other keys evicts none of them.
-/

namespace CachingFileSystem.ReplacementPolicy

open CachingFileSystem.Containers

variable {cfg : Sections} {Key Val Count : Type} [DecidableEq Key]

/-- The keys with at least `level` far hits since their latest insertion. -/
def frequentKeys (far level : ℕ) (history : List (Touch Key)) : Finset Key :=
  (history.map Touch.key).toFinset.filter (fun key => level ≤ farHits far key history)

-----------------------------------------------------------------------------------------
-- Far hits
-----------------------------------------------------------------------------------------

/-- The number of hits of a history, far or not. -/
def hits : List (Touch Key) → ℕ
  | [] => 0
  | .hit _ :: history => hits history + 1
  | .insert _ :: history => hits history

/-- No key has more far hits than there are hits. -/
theorem farHits_le_hits (far : ℕ) (key : Key) (history : List (Touch Key))
    : farHits far key history ≤ hits history := by
  induction history with
  | nil => exact Nat.le_refl 0
  | cons touch history ih =>
      cases touch with
      | hit other =>
          simp only [farHits, hits]
          split <;> omega
      | insert other =>
          simp only [farHits, hits]
          split <;> omega

omit [DecidableEq Key] in
/-- A scan hits nothing. -/
theorem hits_scan (scanned : List Key) (history : List (Touch Key))
    : hits (scanned.map Touch.insert ++ history) = hits history := by
  induction scanned with
  | nil => rfl
  | cons key scanned ih => exact ih

/-- An untouched key has no far hits. -/
theorem farHits_of_not_mem {far : ℕ} {key : Key} {history : List (Touch Key)}
    (untouched : key ∉ history.map Touch.key)
    : farHits far key history = 0 := by
  induction history with
  | nil => rfl
  | cons touch history ih =>
      simp only [List.map_cons, List.mem_cons, not_or] at untouched
      rw [farHits_cons_of_ne (Ne.symm untouched.1)]
      exact ih untouched.2

theorem mem_frequentKeys {far level : ℕ} (positive : 0 < level) {key : Key}
    {history : List (Touch Key)}
    : key ∈ frequentKeys far level history ↔ level ≤ farHits far key history := by
  simp only [frequentKeys, Finset.mem_filter, List.mem_toFinset, and_iff_right_iff_imp]
  intro often
  by_contra untouched
  have none := @farHits_of_not_mem _ _ far _ _ untouched
  omega

/-- A hit makes no key infrequent, and at most its own key frequent. -/
theorem mem_frequentKeys_hit {far level : ℕ} (positive : 0 < level) {key other : Key}
    {history : List (Touch Key)}
    : (other ∈ frequentKeys far level history
        → other ∈ frequentKeys far level (.hit key :: history))
      ∧ (other ∈ frequentKeys far level (.hit key :: history)
          → other = key ∨ other ∈ frequentKeys far level history) := by
  simp only [mem_frequentKeys positive]
  by_cases same : other = key
  · subst same
    refine ⟨fun often => often.trans ?_, fun _ => .inl rfl⟩
    simp only [farHits]
    split <;> omega
  · have apart : (Touch.hit key).key ≠ other := Ne.symm same
    rw [farHits_cons_of_ne apart]
    exact ⟨id, .inr⟩

/-- An inserted key is infrequent; the others are as before. -/
theorem mem_frequentKeys_insert {far level : ℕ} (positive : 0 < level) {key other : Key}
    {history : List (Touch Key)}
    : other ∈ frequentKeys far level (.insert key :: history)
      ↔ other ≠ key ∧ other ∈ frequentKeys far level history := by
  simp only [mem_frequentKeys positive]
  by_cases same : other = key
  · subst same
    simp only [farHits, if_true, ne_eq, not_true_eq_false, false_and, iff_false, not_le]
    exact positive
  · have apart : (Touch.insert key).key ≠ other := Ne.symm same
    rw [farHits_cons_of_ne apart]
    exact (and_iff_right same).symm

/-- So a scan that inserts other keys changes nothing for the rest, by induction on it. -/
theorem mem_frequentKeys_scan {far level : ℕ} (positive : 0 < level) {other : Key}
    (scanned : List Key) {history : List (Touch Key)}
    : other ∈ frequentKeys far level (scanned.map Touch.insert ++ history)
      ↔ other ∉ scanned ∧ other ∈ frequentKeys far level history := by
  induction scanned with
  | nil => simp
  | cons key scanned ih =>
      rw [List.map_cons, List.cons_append, mem_frequentKeys_insert positive, ih, ← and_assoc,
        List.mem_cons, not_or]

-----------------------------------------------------------------------------------------
-- What an insertion keeps
-----------------------------------------------------------------------------------------

/-- Replacement erases the replaced key and no other. -/
theorem survivors_keys [LinearOrder Count] {c : FrequencyCache cfg Key Val Count} {replaced : Key}
    (chosen : victim cfg c.entries = some replaced)
    : (survivors cfg c.entries).map Entry.key = c.keys.erase replaced := by
  have full := FrequencyCache.full_of_victim chosen
  unfold victim at chosen
  rw [if_neg (Nat.not_lt.mpr full.ge)] at chosen
  obtain ⟨entry, here, rfl⟩ := Option.map_eq_some_iff.mp chosen
  have index : c.keys.idxOf entry.key = victimIndex cfg c.entries := FrequencyCache.index_eq here
  rw [← List.eraseIdx_idxOf_eq_erase, index]
  unfold survivors
  rw [if_neg (Nat.not_lt.mpr full.ge)]
  exact (List.eraseIdx_map _ _ _).symm

omit [DecidableEq Key] in
/-- A full cache has a victim, and no entry of its old section is counted less. -/
theorem exists_victim_of_full [LinearOrder Count] {c : FrequencyCache cfg Key Val Count}
    (full : c.entries.length = cfg.size)
    : ∃ entry ∈ c.entries,
        victim cfg c.entries = some entry.key
        ∧ ∀ other ∈ c.entries.drop cfg.oldStart, entry.count ≤ other.count := by
  have bounds := victimIndex_bounds full
  have inside : victimIndex cfg c.entries < c.entries.length := full.symm ▸ bounds.2
  refine ⟨c.entries[victimIndex cfg c.entries], List.getElem_mem inside, ?_, ?_⟩
  · unfold victim
    rw [if_neg (Nat.not_lt.mpr full.ge), List.getElem?_eq_getElem inside]
    rfl
  · intro other member
    have nonempty : (c.entries.drop cfg.oldStart).map Entry.count ≠ [] :=
      List.ne_nil_of_mem (List.mem_map_of_mem member)
    obtain ⟨⟨index, least⟩, found⟩ := lastMin?_isSome nonempty
    obtain ⟨here, below, _⟩ := lastMin?_spec found
    obtain ⟨i, at'⟩ := List.mem_iff_getElem?.mp member
    have smaller := below i other.count (by simp only [List.getElem?_map, at', Option.map_some])
    have place : victimIndex cfg c.entries = cfg.oldStart + index := by
      simp only [victimIndex, found, Option.map_some, Option.getD_some]
    simp only [List.getElem?_map, List.getElem?_drop, ← place,
      List.getElem?_eq_getElem inside, Option.map_some, Option.some.injEq] at here
    exact here.symm ▸ smaller

/-- Where counts are exact, an entry counted no less has no fewer far hits. -/
theorem Tracks.farHits_le [LinearOrder Count] [One Count] [Add Count]
    {c : FrequencyCache cfg Key Val Count} {history : List (Touch Key)} (h : Tracks c history)
    (counts : CountsTo Count (hits history)) {less more : Entry Key Val Count}
    (lessMember : less ∈ c.entries) (moreMember : more ∈ c.entries)
    (below : less.count ≤ more.count)
    : farHits cfg.newSize less.key history ≤ farHits cfg.newSize more.key history := by
  by_contra fewer
  have strict := counts _ _ (Nat.not_le.mp fewer) (farHits_le_hits _ _ _)
  rw [← h.counted less lessMember, ← h.counted more moreMember] at strict
  exact absurd below (not_le.mpr strict)

/-- If the replaced key is frequent, so is every key of the old section; witness: the replaced
entry is counted least there.
-/
theorem Tracks.oldSize_le_frequent [LinearOrder Count] [One Count] [Add Count]
    {c : FrequencyCache cfg Key Val Count} {history : List (Touch Key)} (h : Tracks c history)
    (counts : CountsTo Count (hits history)) {level : ℕ} (positive : 0 < level) {replaced : Key}
    (chosen : victim cfg c.entries = some replaced)
    (frequent : replaced ∈ frequentKeys cfg.newSize level history)
    : cfg.oldSize
      ≤ ((frequentKeys cfg.newSize level history).filter (· ∈ c.keys)).card := by
  have full := FrequencyCache.full_of_victim chosen
  have fits := cfg.fits
  obtain ⟨entry, member, again, least⟩ := exists_victim_of_full full
  obtain rfl : entry.key = replaced := Option.some.inj (again.symm.trans chosen)
  have distinct : (c.keys.drop cfg.oldStart).Nodup := c.distinct.sublist (List.drop_sublist _ _)
  have places : (c.keys.drop cfg.oldStart).length = cfg.oldSize := by
    simp only [FrequencyCache.keys, List.length_drop, List.length_map, full, Sections.oldStart]
    omega
  rw [← places, ← List.toFinset_card_of_nodup distinct]
  apply Finset.card_le_card
  intro key old
  rw [List.mem_toFinset] at old
  obtain ⟨other, there, rfl⟩ : ∃ other ∈ c.entries.drop cfg.oldStart, other.key = key := by
    simpa only [FrequencyCache.keys, ← List.map_drop, List.mem_map] using old
  have inside : other ∈ c.entries := List.mem_of_mem_drop there
  have more := h.farHits_le counts member inside (least other there)
  have often := (mem_frequentKeys positive).mp frequent
  exact Finset.mem_filter.mpr
    ⟨(mem_frequentKeys positive).mpr (often.trans more), List.mem_map_of_mem inside⟩

-----------------------------------------------------------------------------------------
-- What every run keeps
-----------------------------------------------------------------------------------------

/-- All frequent keys are cached, or so many are cached that one place of the old section at
most is left without.
-/
def KeepsFrequent (level : ℕ) (history : List (Touch Key)) (c : FrequencyCache cfg Key Val Count)
    : Prop :=
  (∀ key ∈ frequentKeys cfg.newSize level history, key ∈ c.keys)
  ∨ cfg.oldSize ≤ ((frequentKeys cfg.newSize level history).filter (· ∈ c.keys)).card + 1

/-- A hit keeps every key and makes only a cached one frequent. -/
theorem KeepsFrequent.hit [One Count] [Add Count] {c : FrequencyCache cfg Key Val Count}
    {history : List (Touch Key)} {level : ℕ} (positive : 0 < level)
    (h : KeepsFrequent level history c) {key : Key} (present : key ∈ c.keys)
    : KeepsFrequent level (.hit key :: history) (c.retrieve key).2 := by
  have same {other : Key} : other ∈ (c.retrieve key).2.keys ↔ other ∈ c.keys :=
    (c.keys_retrieve_perm key).mem_iff
  rcases h with all | many
  · refine .inl (fun other often => same.mpr ?_)
    rcases (mem_frequentKeys_hit positive).2 often with rfl | before
    · exact present
    · exact all other before
  · refine .inr (many.trans (Nat.succ_le_succ (Finset.card_le_card ?_)))
    intro other member
    obtain ⟨often, cached⟩ := Finset.mem_filter.mp member
    exact Finset.mem_filter.mpr ⟨(mem_frequentKeys_hit positive).1 often, same.mpr cached⟩

/-- An insertion replaces a frequent key only when the old section is full of them. -/
theorem KeepsFrequent.insert [LinearOrder Count] [One Count] [Add Count]
    {c c' : FrequencyCache cfg Key Val Count} {history : List (Touch Key)} {level : ℕ}
    (positive : 0 < level) (h : KeepsFrequent level history c) (tracks : Tracks c history)
    (counts : CountsTo Count (hits history)) {key : Key} {val : Val} (absent : key ∉ c.keys)
    (inserted : c'.entries = ⟨key, val, 1⟩ :: survivors cfg c.entries)
    : KeepsFrequent level (.insert key :: history) c' := by
  have keys : c'.keys = key :: (survivors cfg c.entries).map Entry.key := by
    simp only [FrequencyCache.keys, inserted, List.map_cons]
  by_cases replacement : ∃ replaced,
      victim cfg c.entries = some replaced
      ∧ replaced ∈ frequentKeys cfg.newSize level history
  · -- the old section was full of frequent keys, and one of them is lost
    obtain ⟨replaced, chosen, frequent⟩ := replacement
    have many := tracks.oldSize_le_frequent counts positive chosen frequent
    refine .inr (many.trans ?_)
    rw [← Nat.pred_le_iff]
    refine (Finset.pred_card_le_card_erase (a := replaced)).trans (Finset.card_le_card ?_)
    intro other member
    obtain ⟨ne, often⟩ := Finset.mem_erase.mp member
    obtain ⟨often, cached⟩ := Finset.mem_filter.mp often
    refine Finset.mem_filter.mpr ⟨(mem_frequentKeys_insert positive).mpr ⟨?_, often⟩, ?_⟩
    · exact fun same => absent (same ▸ cached)
    · rw [keys, survivors_keys chosen]
      exact List.mem_cons_of_mem _ ((List.mem_erase_of_ne ne).mpr cached)
  · -- every frequent key that was cached survives
    have survive {other : Key} (often : other ∈ frequentKeys cfg.newSize level history)
        (cached : other ∈ c.keys)
        : other ∈ c'.keys := by
      rw [keys]
      refine List.mem_cons_of_mem _ ?_
      cases chosen : victim cfg c.entries with
      | some replaced =>
          rw [survivors_keys chosen]
          refine (List.mem_erase_of_ne ?_).mpr cached
          exact fun same => replacement ⟨replaced, chosen, same ▸ often⟩
      | none =>
          have free : c.entries.length < cfg.size := by
            by_contra full
            obtain ⟨entry, _, some, _⟩ :=
              exists_victim_of_full (Nat.le_antisymm c.bounded (Nat.not_lt.mp full))
            cases some.symm.trans chosen
          rw [survivors_of_free free]
          exact cached
    rcases h with all | many
    · refine .inl (fun other often => ?_)
      have before := ((mem_frequentKeys_insert positive).mp often).2
      exact survive before (all other before)
    · refine .inr (many.trans (Nat.succ_le_succ (Finset.card_le_card ?_)))
      intro other member
      obtain ⟨often, cached⟩ := Finset.mem_filter.mp member
      refine Finset.mem_filter.mpr ⟨(mem_frequentKeys_insert positive).mpr ⟨?_, often⟩, ?_⟩
      · exact fun same => absent (same ▸ cached)
      · exact survive often cached

/-- Every run keeps the frequent keys so far; by cases on the operation, with the tracked
history beside the invariant.
-/
theorem Evolves.keepsFrequent [LinearOrder Count] [One Count] [Add Count] {bound level : ℕ}
    (counts : CountsTo Count bound) (positive : 0 < level) {history : List (Touch Key)}
    {c : FrequencyCache cfg Key Val Count} (h : Evolves history c) (few : hits history ≤ bound)
    : KeepsFrequent level history c := by
  have both : Tracks c history ∧ (hits history ≤ bound → KeepsFrequent level history c) := by
    refine h.invariant
      (fun history c =>
        Tracks c history ∧ (hits history ≤ bound → KeepsFrequent level history c)) ?_ ?_
    · refine ⟨tracks_empty, fun _ => .inl (fun key often => ?_)⟩
      have none := (mem_frequentKeys positive).mp often
      simp only [farHits] at none
      omega
    · intro history c label c' before next
      obtain ⟨tracks, keeps⟩ := before
      cases next with
      | hit present =>
          exact ⟨tracks.hit present, fun few =>
            (keeps (Nat.le_of_succ_le few)).hit positive present⟩
      | insert absent inserted =>
          refine ⟨tracks.insert absent inserted, fun few => ?_⟩
          exact (keeps few).insert positive tracks
            (fun fewer more less within => counts fewer more less (within.trans few)) absent
            inserted
      | mapVals f =>
          refine ⟨tracks.mapVals f, fun few => ?_⟩
          simp only [KeepsFrequent, FrequencyCache.keys_mapVals]
          exact keeps few
      | miss => exact ⟨tracks, keeps⟩
  exact both.2 few

/-- While fewer keys are frequent than the old section has places, all of them are cached,
whatever else is inserted; witness: a frequent key that is missing makes one more than those
that are cached.
-/
theorem Evolves.frequent_cached [LinearOrder Count] [One Count] [Add Count] {level : ℕ}
    {history : List (Touch Key)} {c : FrequencyCache cfg Key Val Count} (h : Evolves history c)
    (counts : CountsTo Count (hits history)) (positive : 0 < level)
    (few : (frequentKeys cfg.newSize level history).card < cfg.oldSize) {key : Key}
    (often : key ∈ frequentKeys cfg.newSize level history)
    : key ∈ c.keys := by
  rcases h.keepsFrequent counts positive (Nat.le_refl _) with all | many
  · exact all key often
  · by_contra missing
    have fewer : ((frequentKeys cfg.newSize level history).filter (· ∈ c.keys)).card
        < (frequentKeys cfg.newSize level history).card := by
      refine Finset.card_lt_card (Finset.filter_ssubset.mpr ⟨key, often, missing⟩)
    omega

end CachingFileSystem.ReplacementPolicy
