import CachingFileSystem.ReplacementPolicy.WorkingSet

/-! Runs that never hit: exactly those in which at least as many distinct keys as there are places
lie between two accesses of one key, whatever the sections are. While nothing was hit, all counts
are equal, and the least recent entry is replaced.
-/

namespace CachingFileSystem.ReplacementPolicy

open CachingFileSystem.Containers

variable {cfg : Sections} {Key Val Count : Type}

/-- Every access of a history is a first one, or has at least `size` distinct others since the last
one. Histories are most recent first.
-/
def AlwaysFar [DecidableEq Key] (size : ℕ) : List Key → Prop
  | [] => True
  | key :: history =>
      ¬ (key ∈ history ∧ reuseDistance key history < size) ∧ AlwaysFar size history

-----------------------------------------------------------------------------------------
-- Equal counts
-----------------------------------------------------------------------------------------

/-- Among equal elements the last one is found. -/
theorem lastMin?_of_eq {α : Type} [LinearOrder α] {l : List α} {value : α} (nonempty : l ≠ [])
    (equal : ∀ other ∈ l, other = value)
    : (lastMin? l).map Prod.fst = some (l.length - 1) := by
  obtain ⟨⟨index, least⟩, found⟩ := lastMin?_isSome nonempty
  obtain ⟨here, _, strict⟩ := lastMin?_spec found
  have inside := lastMin?_lt found
  have last : index = l.length - 1 := by
    by_contra earlier
    have later : index < l.length - 1 := by omega
    have there : l[l.length - 1]? = some l[l.length - 1] := List.getElem?_eq_getElem (by omega)
    have less := strict _ _ later there
    rw [equal _ (List.mem_of_getElem? here), equal _ (List.mem_of_getElem? there)] at less
    exact absurd less (lt_irrefl value)
  rw [found, Option.map_some, last]

/-- In a full cache of equal counts the last entry is replaced. -/
theorem victimIndex_of_eq [LinearOrder Count] {entries : List (Entry Key Val Count)} {value : Count}
    (full : entries.length = cfg.size) (equal : ∀ entry ∈ entries, entry.count = value)
    : victimIndex cfg entries = cfg.size - 1 := by
  have start := cfg.oldStart_lt_size
  have nonempty : (entries.drop cfg.oldStart).map Entry.count ≠ [] := by
    intro empty
    have none := congrArg List.length empty
    simp only [List.length_map, List.length_drop, List.length_nil] at none
    omega
  have counts : ∀ other ∈ (entries.drop cfg.oldStart).map Entry.count, other = value := by
    intro other member
    obtain ⟨entry, dropped, rfl⟩ := List.mem_map.mp member
    exact equal entry (List.mem_of_mem_drop dropped)
  rw [victimIndex, lastMin?_of_eq nonempty counts, Option.getD_some, List.length_map,
    List.length_drop, full]
  omega

/-- So all entries survive but the last one of a full cache. -/
theorem survivors_of_eq [LinearOrder Count] {entries : List (Entry Key Val Count)} {value : Count}
    (bounded : entries.length ≤ cfg.size) (equal : ∀ entry ∈ entries, entry.count = value)
    : survivors cfg entries = entries.take (cfg.size - 1) := by
  have some : 0 < cfg.size := Nat.zero_lt_of_lt cfg.oldStart_lt_size
  rcases Nat.lt_or_ge entries.length cfg.size with free | full
  · rw [survivors_of_free free, List.take_of_length_le (by omega)]
  · have exact := Nat.le_antisymm bounded full
    rw [survivors, if_neg (Nat.not_lt.mpr full), victimIndex_of_eq exact equal,
      List.eraseIdx_eq_take_drop_succ, List.drop_of_length_le (by omega), List.append_nil]

-----------------------------------------------------------------------------------------
-- Runs without a hit
-----------------------------------------------------------------------------------------

variable [DecidableEq Key]

/-- The cache holds the most recently touched keys in their order, all counted once. -/
structure OnlyNew [One Count] (c : FrequencyCache cfg Key Val Count) (history : List (Touch Key))
    : Prop where
  keys : c.keys = (recencyOrder (history.map Touch.key)).take cfg.size
  equal : ∀ entry ∈ c.entries, entry.count = 1

theorem OnlyNew.mapVals [One Count] {c : FrequencyCache cfg Key Val Count}
    {history : List (Touch Key)} (h : OnlyNew c history) (f : Key → Val → Val)
    : OnlyNew (c.mapVals f) history where
  keys := (c.keys_mapVals f).trans h.keys
  equal := by
    intro entry member
    obtain ⟨old, oldMember, rfl⟩ := List.mem_map.mp member
    exact h.equal old oldMember

/-- An insertion keeps it so; witness: both orders drop what is behind the last place. -/
theorem OnlyNew.insert [LinearOrder Count] [One Count] {c c' : FrequencyCache cfg Key Val Count}
    {history : List (Touch Key)} (h : OnlyNew c history) {key : Key} {val : Val}
    (absent : key ∉ c.keys) (inserted : c'.entries = ⟨key, val, 1⟩ :: survivors cfg c.entries)
    : OnlyNew c' (.insert key :: history) := by
  obtain ⟨places, size⟩ : ∃ places, cfg.size = places + 1 :=
    Nat.exists_eq_succ_of_ne_zero (Nat.zero_lt_of_lt cfg.oldStart_lt_size).ne'
  refine ⟨?_, ?_⟩
  · have keys : c'.keys = key :: c.keys.take places := by
      rw [FrequencyCache.keys, inserted, survivors_of_eq c.bounded h.equal, size,
        Nat.add_sub_cancel, List.map_cons, List.map_take, FrequencyCache.keys]
    have agree : c.keys.take (places + 1)
        = (recencyOrder (history.map Touch.key)).take (places + 1) := by
      rw [h.keys, size, List.take_take, Nat.min_self]
    have moved := take_cons_erase_congr agree key
    rw [List.erase_of_not_mem absent] at moved
    rw [keys, size, ← List.take_succ_cons]
    exact moved
  · rw [inserted]
    intro entry member
    rcases List.mem_cons.mp member with rfl | later
    · rfl
    · exact h.equal entry ((survivors_sublist _).subset later)

/-- A run inserts all that it touches exactly if every touch is far; by cases on the operation. -/
theorem Evolves.insertedKeys_eq_iff [LinearOrder Count] [One Count] [Add Count]
    {c : FrequencyCache cfg Key Val Count} {history : List (Touch Key)} (h : Evolves history c)
    : insertedKeys history = history.map Touch.key
      ↔ AlwaysFar cfg.size (history.map Touch.key) := by
  have both : (insertedKeys history = history.map Touch.key
        ↔ AlwaysFar cfg.size (history.map Touch.key))
      ∧ (AlwaysFar cfg.size (history.map Touch.key) → OnlyNew c history) := by
    refine h.invariant
      (fun history c =>
        (insertedKeys history = history.map Touch.key
          ↔ AlwaysFar cfg.size (history.map Touch.key))
        ∧ (AlwaysFar cfg.size (history.map Touch.key) → OnlyNew c history))
      ?_ ?_
    · refine ⟨iff_of_true rfl trivial, fun _ => ⟨?_, ?_⟩⟩
      · simp [FrequencyCache.empty, FrequencyCache.keys, recencyOrder]
      · intro entry none
        cases none
    · intro history c label c' before next
      obtain ⟨all, new⟩ := before
      cases next with
      | @hit key present =>
          -- a cached key was touched near, so the histories of a hit are on neither side
          have near : ¬ AlwaysFar cfg.size ((Touch.hit key :: history).map Touch.key) := by
            intro far
            obtain ⟨here, earlier⟩ := far
            rw [(new earlier).keys] at present
            exact here (mem_take_recencyOrder.mp present)
          refine ⟨iff_of_false ?_ near, fun far => absurd far near⟩
          intro same
          have shorter := (insertedKeys_sublist history).length_le
          have lengths := congrArg List.length same
          simp only [insertedKeys, Option.toList, List.singleton_append, List.map_cons,
            List.length_cons] at lengths
          omega
      | @insert key val c' absent inserted =>
          have far (earlier : AlwaysFar cfg.size (history.map Touch.key))
              : ¬ (key ∈ history.map Touch.key
                  ∧ reuseDistance key (history.map Touch.key) < cfg.size) := by
            intro close
            rw [(new earlier).keys] at absent
            exact absent (mem_take_recencyOrder.mpr close)
          refine ⟨?_, fun later => (new later.2).insert absent inserted⟩
          constructor
          · intro same
            have earlier := all.mp (List.cons.inj same).2
            exact ⟨far earlier, earlier⟩
          · intro later
            exact congrArg (List.cons key) (all.mpr later.2)
      | mapVals f => exact ⟨all, fun far => (new far).mapVals f⟩
      | miss => exact ⟨all, new⟩
  exact both.1

end CachingFileSystem.ReplacementPolicy
