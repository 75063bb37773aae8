import CachingFileSystem.DirectoryTree.Tree

/-! Renaming something back to where it was restores the tree, if nothing was replaced. -/

namespace CachingFileSystem.DirectoryTree.Tree

variable {Leaf Dir : Type} {t t' : Tree Leaf Dir} {place source target : Location}
  {same : Leaf → Leaf → Bool}

/-- Places outside of the target are where they were after moving there and back. -/
theorem relocate_back (outside : ¬ target <+: place)
    : relocate target source (relocate source target place) = place := by
  by_cases below : source <+: place
  · obtain ⟨rest, rfl⟩ := below
    rw [relocate_below, relocate_below]
  · rw [relocate_outside below, relocate_outside outside]

/-- Where the source was, nothing is left. -/
theorem not_below_relocate (apart : ¬ source <+: target) (outside : ¬ target <+: source)
    : ¬ source <+: relocate source target place := by
  by_cases below : source <+: place
  · obtain ⟨rest, rfl⟩ := below
    rw [relocate_below]
    intro leading
    rcases List.prefix_or_prefix_of_prefix leading (List.prefix_append target rest) with
      under | above
    · exact apart under
    · exact outside above
  · rwa [relocate_outside below]

/-- What nothing is at, nothing is below. -/
theorem not_below_of_absent (absent : ∀ node, (target, node) ∉ t.entries)
    {node : Inode Leaf Dir} (member : (place, node) ∈ t.entries)
    : ¬ target <+: place := by
  intro leading
  obtain ⟨rest, rfl⟩ := leading
  cases rest with
  | nil => exact absent node (by rwa [List.append_nil] at member)
  | cons name rest =>
      obtain ⟨dir, above⟩ := exists_ancestor member
      exact absent _ above

theorem eq_of_entries (entries : t.entries = t'.entries) : t = t' := by
  obtain ⟨_, _, _, _⟩ := t
  obtain ⟨_, _, _, _⟩ := t'
  cases entries
  rfl

/-- Moving back what was moved to a free place leaves every entry where it was. -/
theorem movedEntries_back (renamed : Renamed same t source target t')
    (absent : ∀ node, (target, node) ∉ t.entries)
    : t'.movedEntries target source = t.entries := by
  have kept : t.entries.filter (fun entry => ¬ target <+: entry.1) = t.entries := by
    refine List.filter_eq_self.mpr (fun entry member => ?_)
    exact decide_eq_true (not_below_of_absent absent member)
  have free : t'.entries
      = t.entries.map (fun entry => (relocate source target entry.1, entry.2)) := by
    rw [renamed.entries, movedEntries, kept]
  have vacated : t'.entries.filter (fun entry => ¬ source <+: entry.1) = t'.entries := by
    refine List.filter_eq_self.mpr (fun entry member => ?_)
    rw [free] at member
    obtain ⟨_, _, rfl⟩ := List.mem_map.mp member
    exact decide_eq_true (not_below_relocate renamed.movable.apart renamed.movable.outside)
  rw [movedEntries, vacated, free, List.map_map]
  refine (List.map_congr_left (fun entry member => ?_)).trans (List.map_id _)
  exact Prod.ext (relocate_back (not_below_of_absent absent member)) rfl

/-- What is renamed is there. -/
theorem exists_source (renamed : t.rename same source target = .ok t')
    : ∃ node, (source, node) ∈ t.entries := by
  rcases checked : t.checkRename same source target with err | moves
  · cases (rename_of_error checked).symm.trans renamed
  unfold checkRename at checked
  split at checked
  · cases checked
  split at checked
  · cases checked
  split at checked
  · cases checked
  split at checked
  · cases checked
  next node found =>
  exact ⟨node, resolve_eq_ok_iff.mp found⟩

/-- A renaming to where nothing is moves something. -/
theorem renamed_of_absent (renamed : t.rename same source target = .ok t')
    (absent : ∀ node, (target, node) ∉ t.entries)
    : Renamed same t source target t' := by
  rcases rename_cases renamed with ⟨equal | linked, _⟩ | moved
  · obtain ⟨node, present⟩ := exists_source renamed
    exact absurd (equal ▸ present) (absent node)
  · unfold sameFile at linked
    split at linked
    · next _ there => exact absurd (get?_eq_some_iff.mp there) (absent _)
    · cases linked
  · exact moved

/-- What is outside of both places stays. -/
theorem Renamed.outside (renamed : Renamed same t source target t') {node : Inode Leaf Dir}
    (member : (place, node) ∈ t.entries) (apart : ¬ source <+: place) (beside : ¬ target <+: place)
    : (place, node) ∈ t'.entries :=
  renamed.mem_iff.mpr ⟨place, member, beside, relocate_outside apart⟩

/-- Where something was moved from, nothing is. -/
theorem Renamed.vacant (renamed : Renamed same t source target t') (node : Inode Leaf Dir)
    : (source, node) ∉ t'.entries := by
  intro there
  obtain ⟨old, _, _, equal⟩ := renamed.mem_iff.mp there
  have left : ¬ source <+: relocate source target old :=
    not_below_relocate renamed.movable.apart renamed.movable.outside
  rw [equal] at left
  exact left (List.prefix_refl _)

/-- A renaming to a free place can be undone; by the checks, one after the other. -/
theorem rename_back (renamed : Renamed same t source target t')
    (absent : ∀ node, (target, node) ∉ t.entries)
    : t'.rename same target source = .ok t := by
  have apart := renamed.movable.apart
  have outside := renamed.movable.outside
  have inner : ¬ (target = [] ∨ source = []) :=
    not_or.mpr ⟨renamed.movable.target_ne_nil, renamed.movable.source_ne_nil⟩
  have distinct : ¬ target = source := by
    intro equal
    exact apart (equal ▸ List.prefix_refl _)
  obtain ⟨node, present⟩ := renamed.present
  have moved : (target, node) ∈ t'.entries :=
    renamed.mem_iff.mpr ⟨source, present, outside, relocate_source⟩
  have vacant : t'.get? source = none := get?_eq_none_iff.mpr renamed.vacant
  have above {place beyond : Location} (leading : ¬ place <+: beyond)
      : ¬ place <+: beyond.dropLast :=
    fun below => leading (below.trans (List.dropLast_prefix _))
  have short {place : Location} (nonempty : place ≠ []) : ¬ place <+: place.dropLast := by
    intro leading
    have length := leading.length_le
    rw [List.length_dropLast] at length
    have positive := List.length_pos_iff.mpr nonempty
    omega
  have targetParent : t'.directoryAt target.dropLast = .ok () := by
    obtain ⟨dir, parent⟩ := renamed.movable.parent
    exact directoryAt_eq_ok_iff.mpr ⟨dir, renamed.outside parent (above apart)
      (short renamed.movable.target_ne_nil)⟩
  have sourceParent : t'.directoryAt source.dropLast = .ok () := by
    obtain ⟨dir, parent⟩ := directoryAt_eq_ok_iff.mp
      (directoryAt_dropLast renamed.movable.source_ne_nil present)
    exact directoryAt_eq_ok_iff.mpr ⟨dir, renamed.outside parent
      (short renamed.movable.source_ne_nil) (above outside)⟩
  have unlinked : ¬ t'.sameFile same target source = true := by
    rw [sameFile, vacant]
    cases t'.get? target with
    | none => exact Bool.false_ne_true
    | some node => cases node <;> exact Bool.false_ne_true
  have may : t'.mayReplace node source = .ok () := by
    cases node <;> simp only [mayReplace, vacant]
  have checked : t'.checkRename same target source = .ok true := by
    rw [checkRename, targetParent, sourceParent]
    simp only
    rw [if_neg inner, resolve_eq_ok_iff.mpr moved]
    simp only
    rw [if_neg distinct, if_neg outside, if_neg apart, if_neg unlinked, may]
  rw [rename_of_moves checked]
  exact congrArg Except.ok (eq_of_entries (movedEntries_back renamed absent))

end CachingFileSystem.DirectoryTree.Tree
