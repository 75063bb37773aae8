import CachingFileSystem.DirectoryTree.Names
import Mathlib.Data.List.Nodup
import Mathlib.Data.List.Infix

/-! Directory trees over arbitrary files and directories, the lookup of places in them, and
renaming as POSIX has it: the source moves with all that is below it, and what it replaces
ceases to exist.
-/

namespace CachingFileSystem.DirectoryTree

inductive Inode (Leaf Dir : Type) where
  | file (leaf : Leaf)
  | directory (dir : Dir)
  deriving DecidableEq

/-- The objects of a tree and their places, in the order in which directories list them.
Every place is taken once, and whatever is not the root lies in a directory.
-/
structure Tree (Leaf Dir : Type) where
  entries : List (Location × Inode Leaf Dir)
  distinct : (entries.map Prod.fst).Nodup
  root : ∃ dir, ([], .directory dir) ∈ entries
  closed
    : ∀ place name node,
        (place ++ [name], node) ∈ entries → ∃ dir, (place, .directory dir) ∈ entries

def Inode.isDirectory {Leaf Dir : Type} : Inode Leaf Dir → Bool
  | .file _ => false
  | .directory _ => true

/-- The objects and places make up a tree. -/
def wellFormed {Leaf Dir : Type} (entries : List (Location × Inode Leaf Dir)) : Bool :=
  let directoryIn (place : Location) : Bool :=
    entries.any (fun entry => entry.1 = place && entry.2.isDirectory)
  decide (entries.map Prod.fst).Nodup && directoryIn []
  && entries.all (fun entry => entry.1 = [] || directoryIn entry.1.dropLast)

theorem any_directory {Leaf Dir : Type} {entries : List (Location × Inode Leaf Dir)}
    {place : Location}
    (found : entries.any (fun entry => entry.1 = place && entry.2.isDirectory) = true)
    : ∃ dir, (place, .directory dir) ∈ entries := by
  obtain ⟨⟨_, node⟩, member, fits⟩ := List.any_eq_true.mp found
  rw [Bool.and_eq_true, decide_eq_true_eq] at fits
  obtain ⟨rfl, isDirectory⟩ := fits
  cases node with
  | file leaf => cases isDirectory
  | directory dir => exact ⟨dir, member⟩

/-- The tree made up of these objects at these places. -/
def Tree.ofEntries {Leaf Dir : Type} (entries : List (Location × Inode Leaf Dir))
    (fits : wellFormed entries = true)
    : Tree Leaf Dir where
  entries := entries
  distinct := by
    simp only [wellFormed, Bool.and_eq_true, decide_eq_true_eq] at fits
    exact fits.1.1
  root := by
    simp only [wellFormed, Bool.and_eq_true] at fits
    exact any_directory fits.1.2
  closed := by
    intro place name node member
    simp only [wellFormed, Bool.and_eq_true, List.all_eq_true, Bool.or_eq_true,
      decide_eq_true_eq] at fits
    rcases fits.2 _ member with none | above
    · cases (List.append_eq_nil_iff.mp none).2
    · rw [List.dropLast_concat] at above
      exact any_directory above

/-- Why a lookup or a renaming fails. -/
inductive PathError where
  | noEntry
  | notDirectory
  | isDirectory
  | invalid
  | notEmpty
  | busy
  deriving DecidableEq, Repr

namespace Tree

variable {Leaf Dir : Type} {t : Tree Leaf Dir} {place rest source target : Location}

def get? (t : Tree Leaf Dir) (place : Location) : Option (Inode Leaf Dir) :=
  (t.entries.find? (fun entry => entry.1 = place)).map Prod.snd

/-- The walk from a place down through the given names. -/
def walk (t : Tree Leaf Dir) : Location → Location → Except PathError (Inode Leaf Dir)
  | here, [] =>
      match t.get? here with
      | some node => .ok node
      | none => .error .noEntry
  | here, name :: rest =>
      match t.get? here with
      | some (.directory _) => t.walk (here ++ [name]) rest
      | some (.file _) => .error .notDirectory
      | none => .error .noEntry

def resolve (t : Tree Leaf Dir) (place : Location) : Except PathError (Inode Leaf Dir) :=
  t.walk [] place

def directoryAt (t : Tree Leaf Dir) (place : Location) : Except PathError Unit :=
  match t.resolve place with
  | .ok (.directory _) => .ok ()
  | .ok (.file _) => .error .notDirectory
  | .error err => .error err

/-- The names in a directory, with what they stand for. -/
def children (t : Tree Leaf Dir) (place : Location) : List (Name × Inode Leaf Dir) :=
  t.entries.filterMap (fun entry =>
    match entry.1.getLast? with
    | some name => if entry.1.dropLast = place then some (name, entry.2) else none
    | none => none)

-----------------------------------------------------------------------------------------
-- Lookup
-----------------------------------------------------------------------------------------

/-- A place is taken by one object. -/
theorem unique {node other : Inode Leaf Dir} (here : (place, node) ∈ t.entries)
    (there : (place, other) ∈ t.entries)
    : node = other :=
  (Prod.mk.inj (List.inj_on_of_nodup_map t.distinct here there rfl)).2

theorem get?_eq_some_iff {node : Inode Leaf Dir}
    : t.get? place = some node ↔ (place, node) ∈ t.entries := by
  constructor
  · intro found
    obtain ⟨entry, first, rfl⟩ := Option.map_eq_some_iff.mp found
    have same : entry.1 = place := by simpa using List.find?_some first
    rw [← same]
    exact List.mem_of_find?_eq_some first
  · intro member
    cases found : t.entries.find? (fun entry => entry.1 = place) with
    | none =>
        have absent := List.find?_eq_none.mp found _ member
        simp at absent
    | some entry =>
        have same : entry.1 = place := by simpa using List.find?_some found
        have there : (place, entry.2) ∈ t.entries := by
          rw [← same]
          exact List.mem_of_find?_eq_some found
        rw [get?, found, Option.map_some, unique member there]

theorem get?_eq_none_iff : t.get? place = none ↔ ∀ node, (place, node) ∉ t.entries := by
  constructor
  · intro absent node member
    rw [get?_eq_some_iff.mpr member] at absent
    cases absent
  · intro absent
    cases found : t.get? place with
    | none => rfl
    | some node => exact absurd (get?_eq_some_iff.mp found) (absent node)

/-- Whatever an object is below is a directory; by induction on the names between them. -/
theorem exists_ancestor {name : Name} {node : Inode Leaf Dir}
    (member : (place ++ name :: rest, node) ∈ t.entries)
    : ∃ dir, (place, .directory dir) ∈ t.entries := by
  induction rest using List.reverseRecOn generalizing node with
  | nil => exact t.closed _ _ _ member
  | append_singleton rest last ih =>
      rw [← List.cons_append, ← List.append_assoc] at member
      obtain ⟨dir, above⟩ := t.closed _ _ _ member
      exact ih above

/-- A walk through a directory goes on from there; by induction on the names before it. -/
theorem walk_append {here : Location} {dir : Dir}
    (through : (here ++ place, .directory dir) ∈ t.entries) (rest : Location)
    : t.walk here (place ++ rest) = t.walk (here ++ place) rest := by
  induction place generalizing here with
  | nil => rw [List.nil_append, List.append_nil]
  | cons name place ih =>
      obtain ⟨above, known⟩ := exists_ancestor through
      rw [List.append_cons] at through
      rw [List.cons_append, walk, get?_eq_some_iff.mpr known]
      simp only
      rw [ih through, ← List.append_cons]

/-- A walk finds what is at its end; witness: every directory on the way is there. -/
theorem walk_eq_ok_iff {here : Location} {node : Inode Leaf Dir}
    : t.walk here rest = .ok node ↔ (here ++ rest, node) ∈ t.entries := by
  induction rest generalizing here with
  | nil =>
      rw [List.append_nil, ← get?_eq_some_iff, walk]
      cases t.get? here <;> simp
  | cons name rest ih =>
      rw [List.append_cons, ← ih, walk]
      cases found : t.get? here with
      | none =>
          refine iff_of_false (fun wrong => nomatch wrong) (fun walked => ?_)
          have member := ih.mp walked
          rw [← List.append_cons] at member
          obtain ⟨dir, above⟩ := exists_ancestor member
          exact get?_eq_none_iff.mp found _ above
      | some above =>
          cases above with
          | directory dir => exact Iff.rfl
          | file leaf =>
              refine iff_of_false (fun wrong => nomatch wrong) (fun walked => ?_)
              have member := ih.mp walked
              rw [← List.append_cons] at member
              obtain ⟨dir, above⟩ := exists_ancestor member
              cases unique above (get?_eq_some_iff.mp found)

theorem resolve_eq_ok_iff {node : Inode Leaf Dir}
    : t.resolve place = .ok node ↔ (place, node) ∈ t.entries :=
  walk_eq_ok_iff

theorem directoryAt_eq_ok_iff
    : t.directoryAt place = .ok () ↔ ∃ dir, (place, .directory dir) ∈ t.entries := by
  simp only [directoryAt, ← resolve_eq_ok_iff]
  rcases t.resolve place with err | leaf | dir <;> simp

-----------------------------------------------------------------------------------------
-- Moving
-----------------------------------------------------------------------------------------

/-- Where a place is after `source` moved to `target`. -/
def relocate (source target place : Location) : Location :=
  if source <+: place then target ++ place.drop source.length else place

theorem relocate_below : relocate source target (source ++ rest) = target ++ rest := by
  rw [relocate, if_pos (List.prefix_append source rest), List.drop_left]

theorem relocate_source : relocate source target source = target := by
  rw [relocate, if_pos (List.prefix_refl source), List.drop_length, List.append_nil]

theorem relocate_outside (outside : ¬ source <+: place) : relocate source target place = place :=
  if_neg outside

theorem relocate_self : relocate source source place = place := by
  unfold relocate
  split
  · next below =>
      obtain ⟨rest, rfl⟩ := below
      rw [List.drop_left]
  · rfl

/-- Places below one directory move below it. -/
theorem relocate_append (above : Location)
    : relocate (above ++ source) (above ++ target) (above ++ place)
      = above ++ relocate source target place := by
  simp only [relocate, List.prefix_append_right_inj, List.length_append, ← List.drop_drop,
    List.drop_left]
  split
  · rw [List.append_assoc]
  · rfl

/-- Outside of the target no two places end up as one. -/
theorem relocate_inj {other : Location} (outside : ¬ target <+: place)
    (otherOutside : ¬ target <+: other)
    (same : relocate source target place = relocate source target other)
    : place = other := by
  unfold relocate at same
  split at same
  · next below =>
      split at same
      · next otherBelow =>
          obtain ⟨rest, rfl⟩ := below
          obtain ⟨otherRest, rfl⟩ := otherBelow
          rw [List.drop_left, List.drop_left] at same
          rw [List.append_cancel_left same]
      · exact absurd ⟨_, same⟩ otherOutside
  · split at same
    · exact absurd ⟨_, same.symm⟩ outside
    · exact same

/-- The target has a place to be in, and neither place lies below the other. -/
structure Movable (t : Tree Leaf Dir) (source target : Location) : Prop where
  parent : ∃ dir, (target.dropLast, .directory dir) ∈ t.entries
  apart : ¬ source <+: target
  outside : ¬ target <+: source

theorem Movable.source_ne_nil (h : Movable t source target) : source ≠ [] :=
  fun root => h.apart (root ▸ List.nil_prefix)

theorem Movable.target_ne_nil (h : Movable t source target) : target ≠ [] :=
  fun root => h.outside (root ▸ List.nil_prefix)

/-- What moves does not end up in what is replaced. -/
theorem Movable.not_below (h : Movable t source target) : ¬ target <+: source ++ rest := by
  intro below
  rcases List.prefix_or_prefix_of_prefix below (List.prefix_append source rest) with inside | apart
  · exact h.outside inside
  · exact h.apart apart

/-- The entries after the move: without the target and what is below it, the rest relocated. -/
def movedEntries (t : Tree Leaf Dir) (source target : Location)
    : List (Location × Inode Leaf Dir) :=
  (t.entries.filter (fun entry => ¬ target <+: entry.1)).map
    (fun entry => (relocate source target entry.1, entry.2))

theorem mem_movedEntries {node : Inode Leaf Dir}
    : (place, node) ∈ t.movedEntries source target
      ↔ ∃ old,
          (old, node) ∈ t.entries
          ∧ ¬ target <+: old
          ∧ relocate source target old = place := by
  simp only [movedEntries, List.mem_map, List.mem_filter, decide_eq_true_eq, Prod.mk.injEq]
  constructor
  · intro moved
    obtain ⟨⟨old, _⟩, ⟨member, kept⟩, same, rfl⟩ := moved
    exact ⟨old, member, kept, same⟩
  · intro moved
    obtain ⟨old, member, kept, same⟩ := moved
    exact ⟨(old, node), ⟨member, kept⟩, same, rfl⟩

/-- Moving the source to the target, with all that is below it. -/
def move (t : Tree Leaf Dir) (h : Movable t source target) : Tree Leaf Dir where
  entries := t.movedEntries source target
  distinct := by
    simp only [movedEntries, List.map_map]
    have kept := (List.filter_sublist (p := fun entry => ¬ target <+: entry.1)).map Prod.fst
      |>.nodup t.distinct
    refine List.Nodup.map_on ?_ (List.Nodup.of_map _ kept)
    intro entry member other otherMember same
    have place := relocate_inj (by simpa using (List.mem_filter.mp member).2)
      (by simpa using (List.mem_filter.mp otherMember).2) same
    exact List.inj_on_of_nodup_map kept member otherMember place
  root := by
    obtain ⟨dir, member⟩ := t.root
    refine ⟨dir, mem_movedEntries.mpr ⟨[], member, ?_, relocate_outside ?_⟩⟩
    · exact fun top => h.target_ne_nil (List.prefix_nil.mp top)
    · exact fun top => h.source_ne_nil (List.prefix_nil.mp top)
  closed := by
    intro place name node member
    obtain ⟨old, oldMember, kept, same⟩ := mem_movedEntries.mp member
    rcases Classical.em (source <+: old) with below | outside
    · obtain ⟨rest, rfl⟩ := below
      rw [relocate_below] at same
      rcases List.eq_nil_or_concat rest with rfl | ⟨front, last, rfl⟩
      · -- the source itself now lies in the directory of the target
        obtain ⟨dir, parent⟩ := h.parent
        rw [List.append_nil] at same
        rw [same, List.dropLast_concat] at parent
        refine ⟨dir, mem_movedEntries.mpr ⟨place, parent, ?_, relocate_outside ?_⟩⟩
        · rw [same]
          intro below
          have shorter := below.length_le
          rw [List.length_append, List.length_singleton] at shorter
          exact Nat.not_succ_le_self _ shorter
        · intro below
          exact h.apart (same ▸ below.trans (List.prefix_append _ _))
      · -- what is below the source stays in its own directory
        rw [List.concat_eq_append, ← List.append_assoc] at same oldMember
        obtain ⟨dir, above⟩ := t.closed _ _ _ oldMember
        refine ⟨dir, mem_movedEntries.mpr ⟨source ++ front, above, h.not_below, ?_⟩⟩
        rw [relocate_below]
        exact (List.append_inj' same rfl).1
    · rw [relocate_outside outside] at same
      subst same
      obtain ⟨dir, above⟩ := t.closed _ _ _ oldMember
      refine ⟨dir, mem_movedEntries.mpr ⟨place, above, ?_, relocate_outside ?_⟩⟩
      · exact fun below => kept (below.trans (List.prefix_append _ _))
      · exact fun below => outside (below.trans (List.prefix_append _ _))

-----------------------------------------------------------------------------------------
-- Renaming
-----------------------------------------------------------------------------------------

/-- Nothing lies below the place. -/
def isEmpty (t : Tree Leaf Dir) (place : Location) : Bool :=
  t.entries.all (fun entry => place <+: entry.1 → entry.1 = place)

/-- A directory replaces an empty directory only, and anything else no directory. -/
def mayReplace (t : Tree Leaf Dir) (moved : Inode Leaf Dir) (target : Location)
    : Except PathError Unit :=
  match moved, t.get? target with
  | _, none => .ok ()
  | .file _, some (.file _) => .ok ()
  | .file _, some (.directory _) => .error .isDirectory
  | .directory _, some (.file _) => .error .notDirectory
  | .directory _, some (.directory _) => if t.isEmpty target then .ok () else .error .notEmpty

/-- Both places are names of one file. -/
def sameFile (same : Leaf → Leaf → Bool) (t : Tree Leaf Dir) (source target : Location) : Bool :=
  match t.get? source, t.get? target with
  | some (.file leaf), some (.file other) => same leaf other
  | _, _ => false

/-- The checks of `rename(2)`, in their order: whether there is anything to move. Two names of one
file both stay; `same` tells whether two files are one.
-/
def checkRename (same : Leaf → Leaf → Bool) (t : Tree Leaf Dir) (source target : Location)
    : Except PathError Bool :=
  match t.directoryAt source.dropLast with
  | .error err => .error err
  | .ok () =>
      match t.directoryAt target.dropLast with
      | .error err => .error err
      | .ok () =>
          if source = [] ∨ target = [] then .error .busy
          else
            match t.resolve source with
            | .error err => .error err
            | .ok node =>
                if source = target then .ok false
                else if source <+: target then .error .invalid
                else if target <+: source then .error .notEmpty
                else if t.sameFile same source target then .ok false
                else
                  match t.mayReplace node target with
                  | .error err => .error err
                  | .ok () => .ok true

variable {same : Leaf → Leaf → Bool}

/-- What a renaming has done that succeeds and moves something. -/
structure Renamed (same : Leaf → Leaf → Bool) (t : Tree Leaf Dir) (source target : Location)
    (t' : Tree Leaf Dir)
    : Prop where
  movable : Movable t source target
  present : ∃ node, (source, node) ∈ t.entries
  replaced : ∀ place node, (place, node) ∈ t.entries → target <+: place → place = target
  replacedFile
    : ∀ leaf,
        (target, .file leaf) ∈ t.entries
        → ∃ moved, (source, .file moved) ∈ t.entries ∧ same moved leaf = false
  entries : t'.entries = t.movedEntries source target

theorem Renamed.mem_iff {t' : Tree Leaf Dir} (h : Renamed same t source target t')
    {node : Inode Leaf Dir}
    : (place, node) ∈ t'.entries
      ↔ ∃ old,
          (old, node) ∈ t.entries
          ∧ ¬ target <+: old
          ∧ relocate source target old = place := by
  rw [h.entries]
  exact mem_movedEntries

/-- A file or an empty directory has nothing below it. -/
theorem mayReplace_eq_ok {moved : Inode Leaf Dir} (may : t.mayReplace moved target = .ok ())
    {node : Inode Leaf Dir} (member : (place, node) ∈ t.entries) (below : target <+: place)
    : place = target := by
  obtain ⟨rest, rfl⟩ := below
  cases rest with
  | nil => exact List.append_nil _
  | cons name rest =>
      obtain ⟨dir, above⟩ := exists_ancestor member
      have known := get?_eq_some_iff.mpr above
      cases moved with
      | file leaf =>
          simp only [mayReplace, known] at may
          cases may
      | directory moved =>
          simp only [mayReplace, known] at may
          split at may
          · next empty =>
              have only := List.all_eq_true.mp empty _ member
              exact of_decide_eq_true only (List.prefix_append _ _)
          · cases may

/-- What the checks make sure of; by following them. -/
theorem checkRename_cases {moves : Bool} (checked : t.checkRename same source target = .ok moves)
    : (moves = false ∧ (source = target ∨ t.sameFile same source target = true))
      ∨ (moves = true
          ∧ Movable t source target
          ∧ ∃ node,
              (source, node) ∈ t.entries
              ∧ t.mayReplace node target = .ok ()
              ∧ t.sameFile same source target = false) := by
  unfold checkRename at checked
  split at checked
  · cases checked
  split at checked
  · cases checked
  next parent =>
  split at checked
  · cases checked
  split at checked
  · cases checked
  next node found =>
  split at checked
  · next equal =>
      cases checked
      exact Or.inl ⟨rfl, Or.inl equal⟩
  split at checked
  · cases checked
  next apart =>
  split at checked
  · cases checked
  next outside =>
  split at checked
  · next linked =>
      cases checked
      exact Or.inl ⟨rfl, Or.inr linked⟩
  next unlinked =>
  split at checked
  · cases checked
  next may =>
  cases checked
  exact Or.inr ⟨rfl, ⟨directoryAt_eq_ok_iff.mp parent, apart, outside⟩, node,
    resolve_eq_ok_iff.mp found, may, Bool.eq_false_iff.mpr unlinked⟩

theorem movable_of_check (checked : t.checkRename same source target = .ok true)
    : Movable t source target := by
  rcases checkRename_cases checked with ⟨moves, _⟩ | ⟨_, movable, _⟩
  · cases moves
  · exact movable

/-- `rename(2)`. -/
def rename (same : Leaf → Leaf → Bool) (t : Tree Leaf Dir) (source target : Location)
    : Except PathError (Tree Leaf Dir) :=
  match checked : t.checkRename same source target with
  | .error err => .error err
  | .ok false => .ok t
  | .ok true => .ok (t.move (movable_of_check checked))

theorem rename_of_error {err : PathError} (checked : t.checkRename same source target = .error err)
    : t.rename same source target = .error err := by
  unfold rename
  split
  · next other failed => rw [Except.error.inj (failed.symm.trans checked)]
  · next kept => cases kept.symm.trans checked
  · next moves => cases moves.symm.trans checked

theorem rename_of_kept (checked : t.checkRename same source target = .ok false)
    : t.rename same source target = .ok t := by
  unfold rename
  split
  · next other failed => cases failed.symm.trans checked
  · rfl
  · next moves => cases moves.symm.trans checked

theorem rename_of_moves (checked : t.checkRename same source target = .ok true)
    : t.rename same source target = .ok (t.move (movable_of_check checked)) := by
  unfold rename
  split
  · next other failed => cases failed.symm.trans checked
  · next kept => cases kept.symm.trans checked
  · rfl

/-- A renaming that succeeds moved the source, or found two names of one file. -/
theorem rename_cases {t' : Tree Leaf Dir} (renamed : t.rename same source target = .ok t')
    : ((source = target ∨ t.sameFile same source target = true) ∧ t' = t)
      ∨ Renamed same t source target t' := by
  rcases checked : t.checkRename same source target with err | _ | _
  · cases (rename_of_error checked).symm.trans renamed
  · cases (rename_of_kept checked).symm.trans renamed
    rcases checkRename_cases checked with ⟨_, kept⟩ | ⟨moves, _⟩
    · exact Or.inl ⟨kept, rfl⟩
    · cases moves
  · cases (rename_of_moves checked).symm.trans renamed
    rcases checkRename_cases checked with ⟨moves, _⟩ | ⟨_, movable, node, present, may, unlinked⟩
    · cases moves
    refine Or.inr ⟨movable, ⟨node, present⟩, fun place node => mayReplace_eq_ok may,
      fun leaf there => ?_, rfl⟩
    have known := get?_eq_some_iff.mpr there
    cases node with
    | directory dir =>
        simp only [mayReplace, known] at may
        cases may
    | file moved =>
        rw [sameFile, get?_eq_some_iff.mpr present, known] at unlinked
        exact ⟨moved, present, unlinked⟩

/-- A file is no root, and what it lies in is a directory. -/
theorem file_ne_nil {leaf : Leaf} (member : (place, .file leaf) ∈ t.entries) : place ≠ [] := by
  intro top
  subst top
  obtain ⟨dir, root⟩ := t.root
  cases unique member root

theorem directoryAt_dropLast {node : Inode Leaf Dir} (inner : place ≠ [])
    (member : (place, node) ∈ t.entries)
    : t.directoryAt place.dropLast = .ok () := by
  rw [← List.dropLast_append_getLast inner] at member
  exact directoryAt_eq_ok_iff.mpr (t.closed _ _ _ member)

/-- Nothing lies below a file. -/
theorem eq_of_below_file {leaf : Leaf} {node : Inode Leaf Dir}
    (member : (place, .file leaf) ∈ t.entries) (below : (rest, node) ∈ t.entries)
    (leading : place <+: rest)
    : rest = place := by
  obtain ⟨more, rfl⟩ := leading
  cases more with
  | nil => exact List.append_nil _
  | cons name more =>
      obtain ⟨dir, above⟩ := exists_ancestor below
      cases unique member above

/-- One file can take another's place. -/
theorem exists_rename_file {moved leaf : Leaf} (present : (source, .file moved) ∈ t.entries)
    (there : (target, .file leaf) ∈ t.entries) (other : same moved leaf = false)
    (distinct : source ≠ target)
    : ∃ t', t.rename same source target = .ok t' := by
  have inner : ¬ (source = [] ∨ target = []) :=
    not_or.mpr ⟨file_ne_nil present, file_ne_nil there⟩
  have apart : ¬ source <+: target := fun leading =>
    distinct (eq_of_below_file present there leading).symm
  have outside : ¬ target <+: source := fun leading =>
    distinct (eq_of_below_file there present leading)
  have unlinked : ¬ t.sameFile same source target = true := by
    rw [sameFile, get?_eq_some_iff.mpr present, get?_eq_some_iff.mpr there]
    exact ne_true_of_eq_false other
  have may : t.mayReplace (.file moved) target = .ok () := by
    simp only [mayReplace, get?_eq_some_iff.mpr there]
  have checked : t.checkRename same source target = .ok true := by
    rw [checkRename, directoryAt_dropLast (file_ne_nil present) present,
      directoryAt_dropLast (file_ne_nil there) there]
    simp only
    rw [if_neg inner, resolve_eq_ok_iff.mpr present]
    simp only
    rw [if_neg distinct, if_neg apart, if_neg outside, if_neg unlinked, may]
  exact ⟨_, rename_of_moves checked⟩

end Tree

end CachingFileSystem.DirectoryTree
