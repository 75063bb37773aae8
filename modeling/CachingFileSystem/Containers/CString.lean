import Mathlib.Data.List.Nodup
import Mathlib.Data.List.Perm.Subperm
import Mathlib.Data.List.Range
import Mathlib.Tactic.Common

/-! Strings in memory that end with a NUL, and the functions of `string.h` that copy and append
them. Memory is what was stored there so far; its other contents are indeterminate.
-/

namespace CachingFileSystem.Containers

/-- The stores to a region, latest first: each offset with its character, absent for a NUL. -/
abbrev Stores (α : Type) := List (ℕ × Option α)

namespace Stores

variable {α : Type}

/-- The offsets that were stored to. -/
def offsets (m : Stores α) : List ℕ := m.map Prod.fst

/-- The string `chars` with its NUL is stored from an offset on. -/
def Stored (m : Stores α) : ℕ → List α → Prop
  | start, [] => m.lookup start = some none
  | start, c :: rest => m.lookup start = some (some c) ∧ m.Stored (start + 1) rest

-----------------------------------------------------------------------------------------
-- Functions
-----------------------------------------------------------------------------------------

/-- The distance to the first NUL, among at most this many characters; reading an offset that
was not stored to is undefined.
-/
def distance (m : Stores α) : ℕ → ℕ → Option ℕ
  | 0, _ => none
  | count + 1, start =>
      match m.lookup start with
      | none => none
      | some none => some 0
      | some (some _) => (m.distance count (start + 1)).map Nat.succ

/-- A string has fewer characters than there are stores. -/
def strlen (m : Stores α) (start : ℕ) : Option ℕ := m.distance m.length start

def strcpy (m : Stores α) (dest : ℕ) : List α → Stores α
  | [] => (dest, none) :: m
  | c :: rest => strcpy ((dest, some c) :: m) (dest + 1) rest

/-- Append at most `n` characters and a NUL. -/
def strncat (m : Stores α) (dest : ℕ) (src : List α) (n : ℕ) : Option (Stores α) :=
  (m.strlen dest).map (fun length => m.strcpy (dest + length) (src.take n))

-----------------------------------------------------------------------------------------
-- Copying
-----------------------------------------------------------------------------------------

/-- Copying leaves what lies before its destination alone; by induction on the string. -/
theorem lookup_strcpy_of_lt (m : Stores α) {dest offset : ℕ} (src : List α)
    (before : offset < dest)
    : (m.strcpy dest src).lookup offset = m.lookup offset := by
  induction src generalizing m dest with
  | nil =>
      rw [strcpy, List.lookup_cons, beq_eq_false_iff_ne.mpr (Nat.ne_of_lt before)]
  | cons c rest ih =>
      rw [strcpy, ih _ (Nat.lt_succ_of_lt before), List.lookup_cons,
        beq_eq_false_iff_ne.mpr (Nat.ne_of_lt before)]

/-- A copied string is stored at its destination; by induction on the string. -/
theorem stored_strcpy (m : Stores α) (dest : ℕ) (src : List α)
    : (m.strcpy dest src).Stored dest src := by
  induction src generalizing m dest with
  | nil => exact List.lookup_cons_self
  | cons c rest ih =>
      refine ⟨?_, ih _ _⟩
      rw [strcpy, lookup_strcpy_of_lt _ rest (Nat.lt_succ_self dest), List.lookup_cons_self]

/-- Copying stores to the offsets of the string and of its NUL; by induction on the string. -/
theorem mem_offsets_strcpy (m : Stores α) (dest : ℕ) (src : List α) (offset : ℕ)
    : offset ∈ (m.strcpy dest src).offsets
      ↔ offset ∈ m.offsets ∨ (dest ≤ offset ∧ offset ≤ dest + src.length) := by
  induction src generalizing m dest with
  | nil =>
      simp only [strcpy, offsets, List.map_cons, List.mem_cons, List.length_nil]
      rw [or_comm]
      exact or_congr_right (by omega)
  | cons c rest ih =>
      rw [strcpy, ih]
      simp only [offsets, List.map_cons, List.mem_cons, List.length_cons]
      rw [or_comm (a := offset = dest), or_assoc]
      exact or_congr_right (by omega)

/-- Copying to the end of a stored string appends to it; by induction on that string. -/
theorem Stored.append {m : Stores α} {start : ℕ} {front : List α}
    (h : m.Stored start front) (back : List α)
    : (m.strcpy (start + front.length) back).Stored start (front ++ back) := by
  induction front generalizing start with
  | nil => exact stored_strcpy m start back
  | cons c rest ih =>
      obtain ⟨first, later⟩ := h
      have shift : start + (c :: rest).length = start + 1 + rest.length := by
        rw [List.length_cons, Nat.add_right_comm, Nat.add_assoc]
      refine ⟨?_, ?_⟩
      · rw [lookup_strcpy_of_lt m back (by rw [List.length_cons]; omega)]
        exact first
      · rw [shift]
        exact ih later

-----------------------------------------------------------------------------------------
-- Lengths
-----------------------------------------------------------------------------------------

/-- The length of a stored string is found within enough characters; by induction on it. -/
theorem Stored.distance {m : Stores α} {start count : ℕ} {chars : List α}
    (h : m.Stored start chars) (enough : chars.length < count)
    : m.distance count start = some chars.length := by
  induction chars generalizing start count with
  | nil =>
      obtain ⟨count, rfl⟩ := Nat.exists_eq_succ_of_ne_zero (Nat.ne_of_gt enough)
      simp only [Stores.distance, show m.lookup start = some none from h, List.length_nil]
  | cons c rest ih =>
      obtain ⟨count, rfl⟩ := Nat.exists_eq_succ_of_ne_zero (Nat.ne_zero_of_lt enough)
      obtain ⟨first, later⟩ := h
      simp only [Stores.distance, first, ih later (Nat.lt_of_succ_lt_succ enough), Option.map_some,
        List.length_cons]

/-- Every offset of a stored string was stored to. -/
theorem Stored.mem_offsets {m : Stores α} {start offset : ℕ} {chars : List α}
    (h : m.Stored start chars) (low : start ≤ offset) (high : offset ≤ start + chars.length)
    : offset ∈ m.offsets := by
  have found {place : ℕ} {c : Option α} (stored : m.lookup place = some c)
      : place ∈ m.offsets := by
    obtain ⟨later, earlier, rfl, _⟩ := List.lookup_eq_some_iff.mp stored
    simp [offsets]
  induction chars generalizing start with
  | nil =>
      obtain rfl : offset = start := Nat.le_antisymm high low
      exact found h
  | cons c rest ih =>
      obtain ⟨first, later⟩ := h
      rcases Nat.eq_or_lt_of_le low with rfl | more
      · exact found first
      · exact ih later more (by rw [List.length_cons] at high; omega)

/-- So it is shorter than the number of stores, and `strlen` finds its length. -/
theorem Stored.strlen {m : Stores α} {start : ℕ} {chars : List α}
    (h : m.Stored start chars)
    : m.strlen start = some chars.length := by
  refine h.distance ?_
  have covered : List.range' start (chars.length + 1) ⊆ m.offsets := by
    intro offset member
    obtain ⟨low, high⟩ := List.mem_range'_1.mp member
    exact h.mem_offsets low (by omega)
  have distinct : (List.range' start (chars.length + 1)).Nodup := List.nodup_range'
  have fewer := (distinct.subperm covered).length_le
  rw [List.length_range', offsets, List.length_map] at fewer
  exact fewer

/-- Appending to a stored string stores the longer one, at its offsets. -/
theorem Stored.strncat {m : Stores α} {dest : ℕ} {chars : List α}
    (h : m.Stored dest chars) (src : List α) (n : ℕ)
    : ∃ m',
        m.strncat dest src n = some m'
        ∧ m'.Stored dest (chars ++ src.take n)
        ∧ ∀ offset,
            offset ∈ m'.offsets
            ↔ offset ∈ m.offsets
              ∨ (dest + chars.length ≤ offset
                  ∧ offset ≤ dest + chars.length + (src.take n).length) := by
  refine ⟨m.strcpy (dest + chars.length) (src.take n), ?_, h.append _, ?_⟩
  · rw [Stores.strncat, h.strlen, Option.map_some]
  · exact m.mem_offsets_strcpy _ _

end Stores

end CachingFileSystem.Containers
