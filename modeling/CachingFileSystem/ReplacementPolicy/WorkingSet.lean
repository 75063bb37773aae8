import CachingFileSystem.ReplacementPolicy.LeastRecentlyUsed

/-! Runs over few keys: while no more keys were touched than there are places, each of them was
inserted once and is still there. Parts of a run over few keys insert each of them at most once.
-/

namespace CachingFileSystem.ReplacementPolicy

variable {cfg : Sections} {Key Val Count : Type}

/-- The inserted keys of a history, latest first. -/
def insertedKeys : List (Touch Key) → List Key
  | [] => []
  | .hit _ :: history => insertedKeys history
  | .insert key :: history => key :: insertedKeys history

theorem length_insertedKeys (history : List (Touch Key))
    : (insertedKeys history).length = insertions history := by
  induction history with
  | nil => rfl
  | cons touch history ih => cases touch <;> simp [insertedKeys, insertions, ih]

/-- The inserted keys are some of those touched; by induction on the history. -/
theorem insertedKeys_sublist (history : List (Touch Key))
    : (insertedKeys history).Sublist (history.map Touch.key) := by
  induction history with
  | nil => exact List.Sublist.slnil
  | cons touch history ih =>
      cases touch with
      | hit key => exact ih.cons key
      | insert key => exact ih.cons_cons key

theorem touched_of_inserted {key : Key} {history : List (Touch Key)}
    (inserted : key ∈ insertedKeys history)
    : key ∈ history.map Touch.key :=
  (insertedKeys_sublist history).subset inserted

variable [DecidableEq Key]

/-- Every touched key was inserted, and while they fit in the cache it was inserted once and is
cached.
-/
structure WorkingSet (c : FrequencyCache cfg Key Val Count) (history : List (Touch Key))
    : Prop where
  inserted : ∀ key ∈ history.map Touch.key, key ∈ insertedKeys history
  once : (history.map Touch.key).toFinset.card ≤ cfg.size → (insertedKeys history).Nodup
  cached
    : (history.map Touch.key).toFinset.card ≤ cfg.size → ∀ key ∈ history.map Touch.key, key ∈ c.keys

theorem WorkingSet.hit [One Count] [Add Count] {c : FrequencyCache cfg Key Val Count}
    {history : List (Touch Key)} (h : WorkingSet c history) (tracks : Tracks c history)
    {key : Key} (present : key ∈ c.keys)
    : WorkingSet (c.retrieve key).2 (.hit key :: history) := by
  have touched := tracks.touched present
  have same : ((Touch.hit key :: history).map Touch.key).toFinset
      = (history.map Touch.key).toFinset := by
    rw [List.map_cons, List.toFinset_cons]
    exact Finset.insert_eq_of_mem (List.mem_toFinset.mpr touched)
  have earlier {other : Key} (member : other ∈ (Touch.hit key :: history).map Touch.key)
      : other ∈ history.map Touch.key :=
    List.mem_toFinset.mp (same ▸ List.mem_toFinset.mpr member)
  refine ⟨fun other member => h.inserted other (earlier member), ?_, ?_⟩
  · rw [same]
    exact h.once
  · rw [same]
    intro few other member
    exact (c.keys_retrieve_perm key).mem_iff.mpr (h.cached few other (earlier member))

/-- An insertion of a new key finds a free place; witness: all cached keys were touched. -/
theorem WorkingSet.insert [LinearOrder Count] [One Count] [Add Count]
    {c c' : FrequencyCache cfg Key Val Count} {history : List (Touch Key)}
    (h : WorkingSet c history) (tracks : Tracks c history) {key : Key} {val : Val}
    (absent : key ∉ c.keys) (inserted : c'.entries = ⟨key, val, 1⟩ :: survivors cfg c.entries)
    : WorkingSet c' (.insert key :: history) := by
  have keys : ((Touch.insert key :: history).map Touch.key).toFinset
      = Insert.insert key (history.map Touch.key).toFinset := by
    rw [List.map_cons, List.toFinset_cons]
    rfl
  have fewer := Finset.card_le_card (Finset.subset_insert key (history.map Touch.key).toFinset)
  refine ⟨?_, ?_, ?_⟩
  · intro other member
    rcases List.mem_cons.mp member with rfl | earlier
    · exact List.mem_cons_self
    · exact List.mem_cons_of_mem _ (h.inserted other earlier)
  · rw [keys]
    intro few
    refine List.nodup_cons.mpr ⟨fun again => ?_, h.once (fewer.trans few)⟩
    exact absent (h.cached (fewer.trans few) key (touched_of_inserted again))
  · rw [keys]
    intro few
    have new : key ∉ (history.map Touch.key).toFinset := fun touched =>
      absent (h.cached (fewer.trans few) key (List.mem_toFinset.mp touched))
    rw [Finset.card_insert_of_notMem new] at few
    have free : c.entries.length < cfg.size := by
      have distinct : c.keys.Nodup := c.distinct
      have within : c.keys.toFinset.card ≤ (history.map Touch.key).toFinset.card :=
        Finset.card_le_card (fun other member =>
          List.mem_toFinset.mpr (tracks.touched (List.mem_toFinset.mp member)))
      rw [List.toFinset_card_of_nodup distinct] at within
      simp only [FrequencyCache.keys, List.length_map] at within
      omega
    intro other member
    rw [FrequencyCache.keys, inserted, survivors_of_free free]
    rcases List.mem_cons.mp member with rfl | earlier
    · exact List.mem_cons_self
    · exact List.mem_cons_of_mem _ (h.cached (by omega) other earlier)

/-- By cases on the operation. -/
theorem Evolves.workingSet [LinearOrder Count] [One Count] [Add Count]
    {c : FrequencyCache cfg Key Val Count} {history : List (Touch Key)} (h : Evolves history c)
    : WorkingSet c history := by
  have both : Tracks c history ∧ WorkingSet c history := by
    refine h.invariant (fun history c => Tracks c history ∧ WorkingSet c history) ?_ ?_
    · refine ⟨tracks_empty, ⟨?_, ?_, ?_⟩⟩
      · intro key none
        cases none
      · intro _
        exact List.nodup_nil
      · intro _ key none
        cases none
    · intro history c label c' before next
      obtain ⟨tracks, working⟩ := before
      cases next with
      | hit present => exact ⟨tracks.hit present, working.hit tracks present⟩
      | insert absent inserted =>
          exact ⟨tracks.insert absent inserted, working.insert tracks absent inserted⟩
      | mapVals f =>
          refine ⟨tracks.mapVals f, working.inserted, working.once, ?_⟩
          rw [FrequencyCache.keys_mapVals]
          exact working.cached
      | miss => exact ⟨tracks, working⟩
  exact both.2

-----------------------------------------------------------------------------------------
-- Parts of a run
-----------------------------------------------------------------------------------------

/-- A key that was touched before is inserted only when more than `near` distinct others were
touched since.
-/
def FarInsertions (near : ℕ) : List (Touch Key) → Prop
  | [] => True
  | .hit _ :: history => FarInsertions near history
  | .insert key :: history =>
      (key ∈ history.map Touch.key → near < reuseDistance key (history.map Touch.key))
      ∧ FarInsertions near history

/-- So it is in every cache, as a near key is still there; by cases on the operation. -/
theorem Evolves.farInsertions [LinearOrder Count] [One Count] [Add Count]
    {c : FrequencyCache cfg Key Val Count} {history : List (Touch Key)} (h : Evolves history c)
    : FarInsertions cfg.oldStart history := by
  have both : Tracks c history ∧ FarInsertions cfg.oldStart history := by
    refine h.invariant (fun history c => Tracks c history ∧ FarInsertions cfg.oldStart history)
      ⟨tracks_empty, trivial⟩ ?_
    intro history c label c' before next
    obtain ⟨tracks, far⟩ := before
    cases next with
    | hit present => exact ⟨tracks.hit present, far⟩
    | insert absent inserted =>
        refine ⟨tracks.insert absent inserted, fun touched => ?_, far⟩
        exact Nat.lt_of_not_le (fun near => absent (tracks.retains touched near))
    | mapVals f => exact ⟨tracks.mapVals f, far⟩
    | miss => exact ⟨tracks, far⟩
  exact both.2

/-- The latest part of a history inserts each of its keys at most once if they are few; witness:
between two insertions of a key all touched keys are of that part.
-/
theorem FarInsertions.nodup {near : ℕ} {recent earlier : List (Touch Key)}
    (far : FarInsertions near (recent ++ earlier))
    (few : (recent.map Touch.key).toFinset.card ≤ near + 1)
    : (insertedKeys recent).Nodup := by
  induction recent with
  | nil => exact List.nodup_nil
  | cons touch recent ih =>
      have subset : (recent.map Touch.key).toFinset
          ⊆ ((touch :: recent).map Touch.key).toFinset := by
        rw [List.map_cons, List.toFinset_cons]
        exact Finset.subset_insert _ _
      have fewer := (Finset.card_le_card subset).trans few
      cases touch with
      | hit key => exact ih far fewer
      | insert key =>
          rw [List.cons_append, FarInsertions, List.map_append] at far
          obtain ⟨distant, far⟩ := far
          refine List.nodup_cons.mpr ⟨fun again => ?_, ih far fewer⟩
          have touched := touched_of_inserted again
          have between : reuseDistance key (recent.map Touch.key ++ earlier.map Touch.key)
              < (recent.map Touch.key).toFinset.card :=
            reuseDistance_lt_of_window (fun other => List.mem_toFinset.mpr) touched _
          have beyond := distant (List.mem_append_left _ touched)
          omega

end CachingFileSystem.ReplacementPolicy
