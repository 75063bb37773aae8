import Mathlib.Data.List.Basic

/-! Absolute paths and the places in a directory tree they name. A place is the list of the
names on the way down from the root.
-/

namespace CachingFileSystem.DirectoryTree

/-- What stands between two slashes of a path, when it is none of the reserved names. -/
structure Component (reserved : List (List Char)) where
  chars : List Char
  nonempty : chars ≠ []
  noSlash : '/' ∉ chars
  unreserved : chars ∉ reserved
  deriving DecidableEq

/-- The name of a directory entry; `.` and `..` stand for the directory and its parent. -/
abbrev Name := Component [['.'], ['.', '.']]

abbrev Location := List Name

variable {reserved : List (List Char)}

/-- What follows a directory's path, up to the place below it. -/
def below : List (Component reserved) → List Char
  | [] => []
  | name :: rest => '/' :: (name.chars ++ below rest)

/-- The normalized absolute path of a place; the root's is a lone slash. -/
def render (place : Location) : List Char :=
  if place = [] then ['/'] else below place

def Component.ofChars? (chars : List Char) : Option (Component reserved) :=
  if fits : chars ≠ [] ∧ '/' ∉ chars ∧ chars ∉ reserved then
    some ⟨chars, fits.1, fits.2.1, fits.2.2⟩
  else none

/-- The place a path leads to that has no reserved names in it; repeated and trailing slashes
count for nothing.
-/
def components (path : List Char) : List (Component reserved) :=
  (path.splitOn '/').filterMap Component.ofChars?

theorem below_append (place rest : List (Component reserved))
    : below (place ++ rest) = below place ++ below rest := by
  induction place with
  | nil => rfl
  | cons name place ih => simp only [List.cons_append, below, ih, List.append_assoc]

theorem render_of_ne_nil {place : Location} (inner : place ≠ []) : render place = below place :=
  if_neg inner

/-- The path of any place followed by a slash, however the path is spelled. -/
theorem below_slash (place : List (Component reserved))
    : ∃ rest, below place ++ ['/'] = '/' :: rest := by
  cases place with
  | nil => exact ⟨[], rfl⟩
  | cons name place => exact ⟨_, rfl⟩

/-- A single name has only itself and nothing as its beginnings. -/
theorem prefix_singleton {path : List (Component reserved)} {name : Component reserved}
    (inner : path ≠ []) (leading : path <+: [name])
    : path = [name] := by
  obtain ⟨first, rest, rfl⟩ := List.exists_cons_of_ne_nil inner
  obtain ⟨same, none⟩ := List.cons_prefix_cons.mp leading
  rw [same, List.prefix_nil.mp none]

-----------------------------------------------------------------------------------------
-- Paths determine places
-----------------------------------------------------------------------------------------

@[simp]
theorem components_nil : (components [] : List (Component reserved)) = [] := rfl

/-- A slash separates what it stands between. -/
theorem components_append_slash (front back : List Char)
    : (components (front ++ '/' :: back) : List (Component reserved))
      = components front ++ components back := by
  simp only [components, List.splitOn_append_cons_self, List.filterMap_append]

theorem components_slash (back : List Char)
    : (components ('/' :: back) : List (Component reserved)) = components back := by
  have split := @components_append_slash reserved [] back
  rwa [components_nil, List.nil_append, List.nil_append] at split

theorem components_name (name : Component reserved) : components name.chars = [name] := by
  have fits : name.chars ≠ [] ∧ '/' ∉ name.chars ∧ name.chars ∉ reserved :=
    ⟨name.nonempty, name.noSlash, name.unreserved⟩
  rw [components, List.splitOn_eq_singleton name.noSlash, List.filterMap_cons,
    Component.ofChars?, dif_pos fits]
  rfl

/-- Reading a path back gives the place it was written for; by induction on the place. -/
theorem components_below (place : List (Component reserved))
    : components (below place) = place := by
  induction place with
  | nil => rfl
  | cons name place ih =>
      rw [below, components_slash]
      cases place with
      | nil => rw [below, List.append_nil, components_name]
      | cons next place =>
          rw [below, components_append_slash, components_name]
          rw [below, components_slash] at ih
          rw [ih]
          rfl

theorem components_render (place : Location) : components (render place) = place := by
  unfold render
  split
  · next root => rw [root, components_slash, components_nil]
  · exact components_below place

theorem render_injective : Function.Injective render :=
  Function.LeftInverse.injective components_render

/-- Every rendered path is absolute. -/
theorem render_eq_slash (place : Location) : ∃ rest, render place = '/' :: rest := by
  unfold render
  split
  · exact ⟨[], rfl⟩
  · next inner =>
      cases place with
      | nil => exact absurd rfl inner
      | cons name place => exact ⟨_, rfl⟩

/-- A path put behind the path of a directory leads below that directory. -/
theorem components_append_render (front : List Char) (place : Location)
    : components (front ++ render place) = components front ++ place := by
  obtain ⟨rest, slash⟩ := render_eq_slash place
  have read := components_render place
  rw [slash, components_slash] at read
  rw [slash, components_append_slash, read]

/-- A place lies below another, or at it, exactly when its path starts with the other's path
and a slash, both taken with a slash at the end; witness: the components of the paths.
-/
theorem below_prefix_iff {place other : List (Component reserved)}
    : below place ++ ['/'] <+: below other ++ ['/'] ↔ place <+: other := by
  constructor
  · intro leading
    obtain ⟨rest, split⟩ := leading
    have read := congrArg (@components reserved) split
    rw [List.append_assoc, List.singleton_append, components_append_slash, components_below,
      components_append_slash, components_below, components_nil, List.append_nil] at read
    exact ⟨components rest, read⟩
  · intro leading
    obtain ⟨rest, rfl⟩ := leading
    obtain ⟨tail, slash⟩ := below_slash rest
    refine ⟨tail, ?_⟩
    rw [below_append, List.append_assoc, List.append_assoc, slash]
    rfl

end CachingFileSystem.DirectoryTree
