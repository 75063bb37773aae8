import CachingFileSystem.Transitions.Runs
import CachingFileSystem.ReplacementPolicy.ReuseDistance
import Mathlib.Data.List.ReduceOption

/-! Caches as their operations lead to them from the empty cache, and what such a cache
keeps: nothing is lost before more keys have been inserted than there are places.
-/

namespace CachingFileSystem.ReplacementPolicy

open CachingFileSystem.Transitions

variable {cfg : Sections} {Key Val Count : Type} [DecidableEq Key] [LinearOrder Count]
  [One Count] [Add Count]

/-- What one operation does to a cache, and the touch it makes. -/
inductive Advance (c : FrequencyCache cfg Key Val Count)
    : Option (Touch Key) → FrequencyCache cfg Key Val Count → Prop
  | hit {key} (present : key ∈ c.keys) : Advance c (some (.hit key)) (c.retrieve key).2
  | insert {key val c'} (absent : key ∉ c.keys)
    (inserted : c'.entries = ⟨key, val, 1⟩ :: survivors cfg c.entries)
    : Advance c (some (.insert key)) c'
  | mapVals (f : Key → Val → Val) : Advance c none (c.mapVals f)
  | miss : Advance c none c

/-- Caches under all operations, from the empty one on. -/
def cacheSystem (cfg : Sections) (Key Val Count : Type) [DecidableEq Key] [LinearOrder Count]
    [One Count] [Add Count]
    : System (FrequencyCache cfg Key Val Count) (Option (Touch Key)) where
  start c := c = .empty
  step := Advance

/-- Some run of operations with this touch history, latest first, leads to the cache. -/
def Evolves (history : List (Touch Key)) (c : FrequencyCache cfg Key Val Count) : Prop :=
  ∃ labels, (cacheSystem cfg Key Val Count).Run labels c ∧ labels.reduceOption = history

theorem evolves_empty : Evolves [] (FrequencyCache.empty : FrequencyCache cfg Key Val Count) :=
  ⟨[], .start rfl, rfl⟩

theorem Evolves.advance {history : List (Touch Key)} {c c' : FrequencyCache cfg Key Val Count}
    {label} (h : Evolves history c) (next : Advance c label c')
    : Evolves (label.toList ++ history) c' := by
  obtain ⟨labels, run, rfl⟩ := h
  refine ⟨label :: labels, .step run next, ?_⟩
  cases label <;> rfl

/-- What holds of the empty cache and is preserved by every operation holds of every cache
that evolved; by the invariant rule for runs.
-/
theorem Evolves.invariant
    (Inv : List (Touch Key) → FrequencyCache cfg Key Val Count → Prop) (initial : Inv [] .empty)
    (preserved
      : ∀ history c label c',
          Inv history c → Advance c label c' → Inv (label.toList ++ history) c')
    {history : List (Touch Key)} {c : FrequencyCache cfg Key Val Count} (h : Evolves history c)
    : Inv history c := by
  obtain ⟨labels, run, rfl⟩ := h
  refine System.Run.invariant (fun labels c => Inv labels.reduceOption c) ?_ ?_ run
  · intro c start
    subst start
    exact initial
  · intro labels label c c' before next
    have after := preserved _ _ _ _ before next
    cases label <;> exact after

/-- A cache that evolved tracks its history; by cases on the operation. -/
theorem Evolves.tracks {history : List (Touch Key)} {c : FrequencyCache cfg Key Val Count}
    (h : Evolves history c)
    : Tracks c history := by
  refine h.invariant (fun history c => Tracks c history) tracks_empty ?_
  intro history c label c' before next
  cases next with
  | hit present => exact before.hit present
  | insert absent inserted => exact before.insert absent inserted
  | mapVals f => exact before.mapVals f
  | miss => exact before

-----------------------------------------------------------------------------------------
-- Filling the places
-----------------------------------------------------------------------------------------

/-- The number of insertions in a history. -/
def insertions : List (Touch Key) → ℕ
  | [] => 0
  | .hit _ :: history => insertions history
  | .insert _ :: history => insertions history + 1

/-- The cache has an entry for every insertion until all places are taken, and up to then
no touched key is missing.
-/
structure Fills (c : FrequencyCache cfg Key Val Count) (history : List (Touch Key)) : Prop where
  filled : c.entries.length = min cfg.size (insertions history)
  kept : insertions history ≤ cfg.size → ∀ touch ∈ history, touch.key ∈ c.keys

omit [LinearOrder Count] in
/-- A hit fills no place. -/
theorem Fills.hit {c : FrequencyCache cfg Key Val Count} {history : List (Touch Key)}
    (h : Fills c history) {key : Key} (present : key ∈ c.keys)
    : Fills (c.retrieve key).2 (.hit key :: history) := by
  refine ⟨(moveToFront_length c.entries _).trans h.filled, ?_⟩
  intro room touch touched
  refine (c.keys_retrieve_perm key).symm.subset ?_
  rcases List.mem_cons.mp touched with rfl | earlier
  · exact present
  · exact h.kept room touch earlier

omit [Add Count] in
/-- An insertion takes a free place, or the place of the replaced entry. -/
theorem Fills.insert {c c' : FrequencyCache cfg Key Val Count} {history : List (Touch Key)}
    (h : Fills c history) {key : Key} {val : Val}
    (inserted : c'.entries = ⟨key, val, 1⟩ :: survivors cfg c.entries)
    : Fills c' (.insert key :: history) := by
  have filled := h.filled
  rcases Nat.lt_or_ge (insertions history) cfg.size with free | full
  · have survive := survivors_of_free (show c.entries.length < cfg.size by omega)
    rw [survive] at inserted
    refine ⟨?_, ?_⟩
    · rw [inserted, List.length_cons, insertions]
      omega
    · intro _ touch touched
      rw [FrequencyCache.keys, inserted]
      rcases List.mem_cons.mp touched with rfl | earlier
      · exact List.mem_cons_self
      · exact List.mem_cons_of_mem _ (h.kept (by omega) touch earlier)
  · have taken : c.entries.length = cfg.size := by omega
    have survivors := survivors_length_of_full taken
    refine ⟨?_, ?_⟩
    · rw [inserted, List.length_cons, survivors, insertions]
      omega
    · intro room
      simp only [insertions] at room
      omega

/-- A cache that evolved is filled by its insertions; by cases on the operation. -/
theorem Evolves.fills {history : List (Touch Key)} {c : FrequencyCache cfg Key Val Count}
    (h : Evolves history c)
    : Fills c history := by
  refine h.invariant (fun history c => Fills c history) ?_ ?_
  · exact ⟨by simp [FrequencyCache.empty, insertions], fun _ _ none => nomatch none⟩
  · intro history c label c' before next
    cases next with
    | hit present => exact before.hit present
    | insert absent inserted => exact before.insert inserted
    | mapVals f =>
        refine ⟨?_, ?_⟩
        · exact List.length_map _ |>.trans before.filled
        · rw [FrequencyCache.keys_mapVals]
          exact before.kept
    | miss => exact before

-----------------------------------------------------------------------------------------
-- The time of the last touch
-----------------------------------------------------------------------------------------

/-- When the key was last touched: touches are numbered from one, the earliest first, and
zero stands for never.
-/
def lastTouch (key : Key) : List (Touch Key) → ℕ
  | [] => 0
  | touch :: history =>
      if touch.key = key then history.length + 1 else lastTouch key history

theorem lastTouch_le (key : Key) (history : List (Touch Key))
    : lastTouch key history ≤ history.length := by
  induction history with
  | nil => exact le_refl _
  | cons touch history ih =>
      simp only [lastTouch, List.length_cons]
      split
      · exact le_refl _
      · exact Nat.le_succ_of_le ih

/-- The recency order lists keys by the time of their last touch, latest first; by induction
on the history.
-/
theorem recencyOrder_pairwise (history : List (Touch Key))
    : (recencyOrder (history.map Touch.key)).Pairwise
        (fun newer older => lastTouch older history < lastTouch newer history) := by
  induction history with
  | nil => exact .nil
  | cons touch history ih =>
      simp only [List.map_cons, recencyOrder]
      have others (key : Key)
          (member : key ∈ (recencyOrder (history.map Touch.key)).erase touch.key)
          : lastTouch key (touch :: history) = lastTouch key history := by
        have other : touch.key ≠ key := by
          intro same
          exact (nodup_recencyOrder _).not_mem_erase (same ▸ member)
        simp only [lastTouch, other, if_false]
      refine List.pairwise_cons.mpr ⟨?_, ?_⟩
      · intro key member
        rw [others key member]
        simp only [lastTouch, if_true]
        exact Nat.lt_succ_of_le (lastTouch_le key history)
      · refine (ih.sublist List.erase_sublist).imp_of_mem ?_
        intro newer older newerMember olderMember less
        rwa [others newer newerMember, others older olderMember]

omit [LinearOrder Count] in
/-- So does every cache that follows this order. -/
theorem Tracks.pairwise {c : FrequencyCache cfg Key Val Count} {history : List (Touch Key)}
    (h : Tracks c history)
    : c.keys.Pairwise (fun newer older => lastTouch older history < lastTouch newer history) :=
  (recencyOrder_pairwise history).sublist h.ordered

end CachingFileSystem.ReplacementPolicy
