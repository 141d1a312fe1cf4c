import GitBranchManager.Discovery.AccountedScans

/-! # The directories that a scan comes to

A scan goes from the base folder to the directories in a directory, unless that one is a repository
or is skipped as unchanged.
-/

namespace GitBranchManager

open Library

namespace Scan

/-- Whether the directory is as it was, and held no repository then. -/
def unchangedAt (scan : Scan) (path : List Text) : Bool := scan.unchanged { path, depth := path.length }

inductive Visited (scan : Scan) : List Text → Prop
  | base (hDepth : 0 ≤ scan.baseFolder.maxDepth) : Visited scan []
  | child {path : List Text} {entry : DirEntry} (hParent : Visited scan path) (hChanged : scan.unchangedAt path = false)
      (hNoRepo : (scan.fs path).repo = none) (hEntry : entry ∈ (scan.fs path).entries)
      (hPlaceholder : entry.isCloudPlaceholder = false) (hLink : entry.isLinkLike = false)
      (hSkip : scan.shouldSkipName entry.name = false)
      (hDepth : ((path.length + 1 : Nat) : Int) ≤ scan.baseFolder.maxDepth) : Visited scan (path ++ [entry.name])

variable {scan : Scan}

theorem admits_child {path : List Text} {name : Text} {depth : Nat} :
    scan.admits { path := path ++ [name], depth := depth + 1 } = true ↔
      ((depth + 1 : Nat) : Int) ≤ scan.baseFolder.maxDepth ∧ scan.shouldSkipName name = false := by
  simp [admits]

theorem mem_expand_of_entry {item : WorkItem} {entry : DirEntry} (hAdmits : scan.admits item = true)
    (hChanged : scan.unchanged item = false) (hNoRepo : (scan.fs item.path).repo = none)
    (hEntry : entry ∈ (scan.fs item.path).entries) (hPlaceholder : entry.isCloudPlaceholder = false)
    (hLink : entry.isLinkLike = false) :
    { path := item.path ++ [entry.name], depth := item.depth + 1 } ∈ scan.expand item := by
  rw [expand, hAdmits, hChanged, children, hNoRepo]
  refine List.mem_map.mpr ⟨entry, List.mem_filter.mpr ⟨hEntry, ?_⟩, rfl⟩
  rw [hPlaceholder, hLink]
  rfl

theorem visited_of_walked {item : WorkItem} (hItem : item ∈ scan.walk root) :
    item.depth = item.path.length ∧ (scan.admits item = true → scan.Visited item.path) := by
  refine forall_mem_unfold scan.ranked (P := fun item => item.depth = item.path.length ∧
    (scan.admits item = true → scan.Visited item.path)) ?_ ⟨rfl, fun hAdmits => .base (scan.depth_le hAdmits)⟩
    item hItem
  rintro item ⟨hDepth, hVisited⟩ child hChild
  obtain ⟨hAdmits, hChanged, hIn⟩ := scan.mem_expand hChild
  obtain ⟨hNoRepo, entry, hEntry, hPlaceholder, hLink, rfl⟩ := scan.mem_children hIn
  refine ⟨by simp [hDepth], fun hChildAdmits => ?_⟩
  obtain ⟨hDeep, hSkip⟩ := admits_child.mp hChildAdmits
  rw [hDepth] at hDeep
  exact .child (hVisited hAdmits) hChanged hNoRepo hEntry hPlaceholder hLink hSkip hDeep

theorem walked_of_visited {path : List Text} (h : scan.Visited path) :
    { path, depth := path.length } ∈ scan.walk root ∧ scan.admits { path, depth := path.length } = true := by
  induction h with
  | base hDepth =>
    refine ⟨mem_unfold_self scan.ranked root, ?_⟩
    simp [admits, hDepth]
  | @child path entry hParent hChanged hNoRepo hEntry hPlaceholder hLink hSkip hDepth ih =>
    obtain ⟨hWalked, hAdmits⟩ := ih
    rw [List.length_append, List.length_singleton]
    refine ⟨?_, admits_child.mpr ⟨hDepth, hSkip⟩⟩
    exact expand_mem_unfold scan.ranked hWalked
      (mem_expand_of_entry hAdmits hChanged hNoRepo hEntry hPlaceholder hLink)

/-- Something is found or touched at the visited directories only. -/
theorem mem_effectsBelow_root {effect : IndexEffect} : effect ∈ scan.effectsBelow root ↔
    ∃ path, scan.Visited path ∧ effect ∈ scan.ownEffects { path, depth := path.length } := by
  rw [effectsBelow, List.mem_flatMap]
  constructor
  · rintro ⟨⟨path, depth⟩, hItem, hEffect⟩
    obtain ⟨hDepth, hVisited⟩ := visited_of_walked hItem
    obtain rfl : depth = path.length := hDepth
    refine ⟨path, hVisited ?_, hEffect⟩
    rw [ownEffects] at hEffect
    split at hEffect
    · cases hEffect
    next hAdmits => simpa using hAdmits
  · rintro ⟨path, hVisited, hEffect⟩
    exact ⟨_, (walked_of_visited hVisited).1, hEffect⟩

theorem ownEffects_of_visited {path : List Text} (h : scan.Visited path) :
    scan.ownEffects { path, depth := path.length } =
      if scan.unchangedAt path then [.touch (scan.pathOf { path, depth := path.length })]
      else (scan.fs path).repo.toList.map fun repo => .upsert (scan.recordOf repo) := by
  rw [ownEffects, (walked_of_visited h).2]
  rfl

/-- The repositories that are found are those at visited directories. -/
theorem upsert_mem_effectsBelow_root {record : RepoRecord} :
    .upsert record ∈ scan.effectsBelow root ↔ ∃ path repo, scan.Visited path ∧ scan.unchangedAt path = false ∧
      (scan.fs path).repo = some repo ∧ record = scan.recordOf repo := by
  rw [mem_effectsBelow_root]
  refine exists_congr fun path => ?_
  constructor
  · rintro ⟨hVisited, hEffect⟩
    rw [ownEffects_of_visited hVisited] at hEffect
    split at hEffect
    · cases List.mem_singleton.mp hEffect
    next hChanged =>
      obtain ⟨repo, hRepo, hRecord⟩ := List.mem_map.mp hEffect
      cases hRecord
      exact ⟨repo, hVisited, Bool.eq_false_of_not_eq_true hChanged, Option.mem_toList.mp hRepo, rfl⟩
  · rintro ⟨repo, hVisited, hChanged, hRepo, rfl⟩
    rw [ownEffects_of_visited hVisited, hChanged]
    exact ⟨hVisited, List.mem_map.mpr ⟨repo, Option.mem_toList.mpr hRepo, rfl⟩⟩

/-- The directories that are touched are the visited ones that are skipped. -/
theorem touch_mem_effectsBelow_root {directory : Text} :
    .touch directory ∈ scan.effectsBelow root ↔ ∃ path, scan.Visited path ∧ scan.unchangedAt path = true ∧
      directory = scan.pathOf { path, depth := path.length } := by
  rw [mem_effectsBelow_root]
  refine exists_congr fun path => and_congr_right fun hVisited => ?_
  rw [ownEffects_of_visited hVisited]
  constructor
  · intro hEffect
    split at hEffect
    next hSame =>
      cases List.mem_singleton.mp hEffect
      exact ⟨hSame, rfl⟩
    · obtain ⟨repo, _, hRecord⟩ := List.mem_map.mp hEffect
      cases hRecord
  · rintro ⟨hSame, rfl⟩
    rw [if_pos hSame]
    exact List.mem_singleton_self _

end Scan

end GitBranchManager
