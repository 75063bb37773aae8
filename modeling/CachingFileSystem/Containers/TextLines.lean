import Mathlib

/-! Texts of lines, each ended by a separator, whose last field is told apart by another one; and
decimal numbers in such fields.
-/

namespace CachingFileSystem.Containers

section Separators

variable {α : Type} [DecidableEq α] (sep : α)

/-- The lines that are ended by a separator. -/
def lines : List α → List (List α)
  | [] => []
  | a :: rest =>
      if a = sep then [] :: lines rest
      else
        match lines rest with
        | [] => []
        | line :: more => (a :: line) :: more

/-- What is in front of the last separator, and what is behind it. -/
def splitLast : List α → Option (List α × List α)
  | [] => none
  | a :: rest =>
      match splitLast rest with
      | some (front, back) => some (a :: front, back)
      | none => if a = sep then some ([], rest) else none

variable {sep}

/-- A line without the separator is the first one; by induction on it. -/
theorem lines_append {line : List α} (single : sep ∉ line) (rest : List α)
    : lines sep (line ++ sep :: rest) = line :: lines sep rest := by
  induction line with
  | nil => simp [lines]
  | cons a line ih =>
      obtain ⟨other, single⟩ := List.ne_and_not_mem_of_not_mem_cons single
      simp only [List.cons_append, lines, Ne.symm other, if_false, ih single]

/-- The lines of a text are those it was made of; by induction on them. -/
theorem lines_flatMap {ls : List (List α)} (single : ∀ line ∈ ls, sep ∉ line)
    : lines sep (ls.flatMap (fun line => line ++ [sep])) = ls := by
  induction ls with
  | nil => rfl
  | cons line rest ih =>
      rw [List.flatMap_cons, List.append_assoc, List.singleton_append,
        lines_append (single line List.mem_cons_self),
        ih (fun line member => single line (List.mem_cons_of_mem _ member))]

theorem splitLast_eq_none {back : List α} (absent : sep ∉ back) : splitLast sep back = none := by
  induction back with
  | nil => rfl
  | cons a rest ih =>
      obtain ⟨other, absent⟩ := List.ne_and_not_mem_of_not_mem_cons absent
      simp only [splitLast, ih absent, Ne.symm other, if_false]

/-- The last field is what was put behind the separator; by induction on what is in front. -/
theorem splitLast_append (front : List α) {back : List α} (absent : sep ∉ back)
    : splitLast sep (front ++ sep :: back) = some (front, back) := by
  induction front with
  | nil => simp only [List.nil_append, splitLast, splitLast_eq_none absent, if_true]
  | cons a front ih => simp only [List.cons_append, splitLast, ih]

end Separators

-----------------------------------------------------------------------------------------
-- Decimal numbers
-----------------------------------------------------------------------------------------

def decimal (k : ℤ) : List Char := (toString k).toList

def decimal? (chars : List Char) : Option ℤ := (String.ofList chars).toInt?

theorem decimal?_decimal (k : ℤ) : decimal? (decimal k) = some k := by
  rw [decimal?, decimal, String.ofList_toList]
  exact Int.toInt?_repr k

/-- Numbers are made of digits, and of a sign. -/
theorem not_mem_decimal {c : Char} (noDigit : c.isDigit = false) (noSign : c ≠ '-') (k : ℤ)
    : c ∉ decimal k := by
  have digits (n : ℕ) : c ∉ (Nat.repr n).toList := by
    intro member
    rw [Nat.toList_repr] at member
    have digit := Nat.isDigit_of_mem_toDigits (by decide) (by decide) member
    rw [noDigit] at digit
    cases digit
  cases k with
  | ofNat n => exact digits n
  | negSucc n =>
      intro member
      change c ∈ ("-" ++ Nat.repr (n + 1)).toList at member
      rw [String.toList_append] at member
      rcases List.mem_append.mp member with sign | digit
      · exact noSign (List.mem_singleton.mp sign)
      · exact digits _ digit

end CachingFileSystem.Containers
