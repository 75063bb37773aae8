import CachingFileSystem.DirectoryTree.Tree

/-! Two trees of which one lacks a single file of the other: where lookups, listings and renames
tell them apart.
-/

namespace CachingFileSystem.DirectoryTree

namespace Tree

variable {Leaf Dir : Type} {t t' : Tree Leaf Dir} {hidden here place rest source target : Location}

/-- The second tree is the first one without the file at a place. -/
structure Lacks (hidden : Location) (t t' : Tree Leaf Dir) : Prop where
  leaf : ∃ leaf, (hidden, .file leaf) ∈ t.entries
  entries : t'.entries = t.entries.filter (fun entry => entry.1 ≠ hidden)

theorem Lacks.mem_iff (h : Lacks hidden t t') {node : Inode Leaf Dir}
    : (place, node) ∈ t'.entries ↔ (place, node) ∈ t.entries ∧ place ≠ hidden := by
  rw [h.entries, List.mem_filter, decide_eq_true_eq]

-----------------------------------------------------------------------------------------
-- Lookup
-----------------------------------------------------------------------------------------

theorem Lacks.get?_hidden (h : Lacks hidden t t') : t'.get? hidden = none :=
  get?_eq_none_iff.mpr (fun _ member => (h.mem_iff.mp member).2 rfl)

theorem Lacks.get?_eq (h : Lacks hidden t t') (other : place ≠ hidden)
    : t'.get? place = t.get? place := by
  cases found : t.get? place with
  | none =>
      refine get?_eq_none_iff.mpr (fun node member => ?_)
      exact get?_eq_none_iff.mp found node (h.mem_iff.mp member).1
  | some node => exact get?_eq_some_iff.mpr (h.mem_iff.mpr ⟨get?_eq_some_iff.mp found, other⟩)

/-- A walk that does not come through the hidden place goes the same way in both trees; by
induction on the names ahead.
-/
theorem Lacks.walk_eq (h : Lacks hidden t t') (apart : ¬ hidden <+: here ++ rest)
    : t'.walk here rest = t.walk here rest := by
  induction rest generalizing here with
  | nil =>
      rw [List.append_nil] at apart
      have other : here ≠ hidden := fun same => apart (same ▸ List.prefix_refl hidden)
      rw [walk, walk, h.get?_eq other]
  | cons name rest ih =>
      have other : here ≠ hidden := fun same => apart (same ▸ List.prefix_append hidden _)
      rw [List.append_cons] at apart
      rw [walk, walk, h.get?_eq other, ih apart]

theorem Lacks.resolve_eq (h : Lacks hidden t t') (apart : ¬ hidden <+: place)
    : t'.resolve place = t.resolve place :=
  h.walk_eq apart

/-- The hidden file lies in a directory of both trees. -/
theorem Lacks.exists_parent (h : Lacks hidden t t')
    : ∃ front last dir,
        hidden = front ++ [last]
        ∧ (front, .directory dir) ∈ t.entries
        ∧ (front, .directory dir) ∈ t'.entries := by
  obtain ⟨leaf, member⟩ := h.leaf
  obtain ⟨front, last, rfl⟩ := (List.eq_nil_or_concat hidden).resolve_left (file_ne_nil member)
  rw [List.concat_eq_append] at h member ⊢
  obtain ⟨dir, above⟩ := t.closed _ _ _ member
  refine ⟨front, last, dir, rfl, above, h.mem_iff.mpr ⟨above, fun same => ?_⟩⟩
  have longer := congrArg List.length same
  rw [List.length_append] at longer
  exact absurd longer (Nat.ne_of_lt (Nat.lt_succ_self _))

/-- A walk to the hidden place and beyond stops there; witness: the directory above it. -/
theorem Lacks.resolve_hidden (h : Lacks hidden t t') (rest : Location)
    : t.resolve (hidden ++ rest) = t.walk hidden rest
      ∧ t'.resolve (hidden ++ rest) = .error .noEntry := by
  have none := h.get?_hidden
  obtain ⟨front, last, dir, rfl, above, aboveToo⟩ := h.exists_parent
  have through {u : Tree Leaf Dir} (above : (front, .directory dir) ∈ u.entries)
      : u.resolve (front ++ [last] ++ rest) = u.walk (front ++ [last]) rest := by
    have step := @walk_append _ _ u front [] dir above (last :: rest)
    rw [List.nil_append] at step
    rw [resolve, ← List.append_cons, step, walk, get?_eq_some_iff.mpr above]
  refine ⟨through above, ?_⟩
  rw [through aboveToo]
  cases rest <;> rw [walk, none]

/-- Below the hidden file there is nothing, for one reason or the other. -/
theorem Lacks.resolve_beyond (h : Lacks hidden t t') (name : Name) (rest : Location)
    : t.resolve (hidden ++ name :: rest) = .error .notDirectory
      ∧ t'.resolve (hidden ++ name :: rest) = .error .noEntry := by
  obtain ⟨leaf, member⟩ := h.leaf
  obtain ⟨walked, missing⟩ := h.resolve_hidden (name :: rest)
  refine ⟨?_, missing⟩
  rw [walked, walk, get?_eq_some_iff.mpr member]

theorem Lacks.directoryAt_eq (h : Lacks hidden t t') (apart : ¬ hidden <+: place)
    : t'.directoryAt place = t.directoryAt place := by
  rw [directoryAt, directoryAt, h.resolve_eq apart]

theorem Lacks.directoryAt_hidden (h : Lacks hidden t t') (rest : Location)
    : t.directoryAt (hidden ++ rest) = .error .notDirectory
      ∧ t'.directoryAt (hidden ++ rest) = .error .noEntry := by
  obtain ⟨leaf, member⟩ := h.leaf
  have missing := (h.resolve_hidden rest).2
  cases rest with
  | nil =>
      rw [List.append_nil] at missing ⊢
      rw [directoryAt, directoryAt, resolve_eq_ok_iff.mpr member, missing]
      exact ⟨rfl, rfl⟩
  | cons name rest =>
      rw [directoryAt, directoryAt, (h.resolve_beyond name rest).1, missing]
      exact ⟨rfl, rfl⟩

-----------------------------------------------------------------------------------------
-- Listings
-----------------------------------------------------------------------------------------

/-- Only the listing of the directory above shows the hidden file. -/
theorem Lacks.children_eq (h : Lacks hidden t t') (place : Location)
    : t'.children place
      = (t.children place).filter (fun child => place ++ [child.1] ≠ hidden) := by
  rw [children, children, h.entries, List.filterMap_filter, List.filter_filterMap]
  refine List.filterMap_congr (fun entry _ => ?_)
  rcases List.eq_nil_or_concat entry.1 with top | ⟨front, last, split⟩
  · rw [top]
    simp
  · rw [List.concat_eq_append] at split
    rw [split, List.getLast?_concat, List.dropLast_concat]
    rcases eq_or_ne front place with rfl | elsewhere
    · by_cases there : front ++ [last] = hidden <;> simp [there, Option.filter]
    · simp [elsewhere]

-----------------------------------------------------------------------------------------
-- Renaming
-----------------------------------------------------------------------------------------

variable {same : Leaf → Leaf → Bool}

theorem Lacks.sameFile_eq (h : Lacks hidden t t') (apart : source ≠ hidden)
    (targetApart : target ≠ hidden)
    : t'.sameFile same source target = t.sameFile same source target := by
  rw [sameFile, sameFile, h.get?_eq apart, h.get?_eq targetApart]

/-- A directory that the hidden file is not in is empty in both trees or in none. -/
theorem Lacks.isEmpty_eq (h : Lacks hidden t t') (apart : ¬ target <+: hidden)
    : t'.isEmpty target = t.isEmpty target := by
  rw [isEmpty, isEmpty, h.entries, List.all_filter]
  refine congrArg (List.all t.entries) (funext fun entry => ?_)
  rcases eq_or_ne entry.1 hidden with same | other
  · simp [same, apart]
  · simp [other]

theorem Lacks.mayReplace_eq (h : Lacks hidden t t') (node : Inode Leaf Dir)
    (apart : target ≠ hidden) (outside : ¬ target <+: hidden)
    : t'.mayReplace node target = t.mayReplace node target := by
  simp only [mayReplace, h.get?_eq apart, h.isEmpty_eq outside]

/-- The checks of a rename come out the same unless it has to do with the hidden file: a target
above the file is above the source as well.
-/
theorem Lacks.checkRename_eq (h : Lacks hidden t t') (apart : ¬ hidden <+: source)
    (targetApart : ¬ hidden <+: target) (aboveToo : target <+: hidden → target <+: source)
    : t'.checkRename same source target = t.checkRename same source target := by
  have ne {place : Location} (apart : ¬ hidden <+: place) : place ≠ hidden :=
    fun same => apart (same ▸ List.prefix_refl hidden)
  have front {place : Location} (apart : ¬ hidden <+: place) : ¬ hidden <+: place.dropLast :=
    fun leading => apart (leading.trans (List.dropLast_prefix place))
  unfold checkRename
  rw [h.directoryAt_eq (front apart), h.directoryAt_eq (front targetApart), h.resolve_eq apart,
    h.sameFile_eq (ne apart) (ne targetApart)]
  by_cases above : target <+: source
  · simp only [if_pos above]
  · simp only [h.mayReplace_eq _ (ne targetApart) (mt aboveToo above)]

/-- A rename that has nothing to do with the hidden file leaves it where it is. -/
theorem Lacks.move (h : Lacks hidden t t') (outside : ¬ target <+: hidden)
    (sourceOutside : ¬ source <+: hidden)
    (movable : Movable t source target) (movable' : Movable t' source target)
    : Lacks hidden (t.move movable) (t'.move movable') where
  leaf := by
    obtain ⟨leaf, member⟩ := h.leaf
    exact ⟨leaf, mem_movedEntries.mpr
      ⟨hidden, member, outside, relocate_outside sourceOutside⟩⟩
  entries := by
    change t'.movedEntries source target = (t.movedEntries source target).filter _
    rw [movedEntries, movedEntries, h.entries, List.filter_map, List.filter_filter,
      List.filter_filter]
    refine congrArg (List.map _) (List.filter_congr (fun entry _ => ?_))
    by_cases replaced : target <+: entry.1
    · simp [replaced]
    · have stays : relocate source target entry.1 = hidden ↔ entry.1 = hidden := by
        have fixed : relocate source target hidden = hidden := relocate_outside sourceOutside
        refine ⟨fun same => relocate_inj replaced outside (same.trans fixed.symm), fun same => ?_⟩
        rw [same, fixed]
      simp [replaced, stays]

/-- Such renames have the same outcome. -/
theorem Lacks.rename_cases (h : Lacks hidden t t') (apart : ¬ hidden <+: source)
    (targetApart : ¬ hidden <+: target) (aboveToo : target <+: hidden → target <+: source)
    (sourceAboveToo : source <+: hidden → source <+: target)
    : (∃ err, t.rename same source target = .error err ∧ t'.rename same source target = .error err)
      ∨ ∃ u u',
          t.rename same source target = .ok u
          ∧ t'.rename same source target = .ok u'
          ∧ Lacks hidden u u' := by
  have checks : t'.checkRename same source target = t.checkRename same source target :=
    h.checkRename_eq apart targetApart aboveToo
  rcases checked : t.checkRename same source target with err | _ | _
  · exact Or.inl ⟨err, rename_of_error checked, rename_of_error (checks.trans checked)⟩
  · exact Or.inr ⟨t, t', rename_of_kept checked, rename_of_kept (checks.trans checked), h⟩
  · have movable := movable_of_check checked
    exact Or.inr ⟨_, _, rename_of_moves checked, rename_of_moves (checks.trans checked),
      h.move (mt aboveToo movable.outside) (mt sourceAboveToo movable.apart) _ _⟩

/-- A rename fails with the error of the directory its source lies in. -/
theorem rename_source_error {err : PathError}
    (failed : t.directoryAt source.dropLast = .error err)
    : t.rename same source target = .error err := by
  apply rename_of_error
  rw [checkRename, failed]

theorem rename_target_error {err : PathError} (parent : t.directoryAt source.dropLast = .ok ())
    (failed : t.directoryAt target.dropLast = .error err)
    : t.rename same source target = .error err := by
  apply rename_of_error
  rw [checkRename, parent, failed]

/-- Renames from or to places below the hidden file meet a file, or nothing. -/
theorem Lacks.rename_source_below (h : Lacks hidden t t') (below : hidden <+: source.dropLast)
    : t.rename same source target = .error .notDirectory
      ∧ t'.rename same source target = .error .noEntry := by
  obtain ⟨rest, split⟩ := below
  obtain ⟨met, missing⟩ := h.directoryAt_hidden rest
  rw [split] at met missing
  exact ⟨rename_source_error met, rename_source_error missing⟩

theorem Lacks.rename_target_below (h : Lacks hidden t t') (apart : ¬ hidden <+: source.dropLast)
    (parent : t.directoryAt source.dropLast = .ok ()) (below : hidden <+: target.dropLast)
    : t.rename same source target = .error .notDirectory
      ∧ t'.rename same source target = .error .noEntry := by
  obtain ⟨rest, split⟩ := below
  obtain ⟨met, missing⟩ := h.directoryAt_hidden rest
  rw [split] at met missing
  have parentToo := (h.directoryAt_eq apart).trans parent
  exact ⟨rename_target_error parent met, rename_target_error parentToo missing⟩

end Tree

end CachingFileSystem.DirectoryTree
