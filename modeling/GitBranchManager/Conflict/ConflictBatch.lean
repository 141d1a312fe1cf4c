import Mathlib.Data.Finset.Dedup
import Mathlib.Data.Finset.Insert
import Mathlib.Data.List.Induction
import GitBranchManager.Library.InsertionMap
import GitBranchManager.Status.WorkingCopyStatus

/-! # The files of a conflict

A batch lists every file that was in conflict since the operation began, and what has become of each. It is
kept by the core and, apart from it, by the conflict window.
-/

namespace GitBranchManager

inductive ConflictFileState
  | unresolved
  | resolved
  deriving DecidableEq, Repr

/-- What a batch reads of a file in conflict. Paths are only compared. -/
structure ConflictedFile (Path : Type*) where
  path : Path
  conflict : ConflictKind

variable {Path : Type*} [DecidableEq Path]

/-! ## The batch of the core -/

structure ConflictBatchEntry (Path : Type*) where
  path : Path
  kind : ConflictKind := .none
  state : ConflictFileState := .unresolved

structure ConflictBatch (Path : Type*) where
  operationFingerprint : Bytes
  entries : List (ConflictBatchEntry Path) := []

namespace ConflictBatch

def forOperation (operationFingerprint : Bytes) : ConflictBatch Path := { operationFingerprint }

/-- A path that is not tracked yet comes last. -/
def track (entries : List (ConflictBatchEntry Path)) (candidate : ConflictedFile Path) :
    List (ConflictBatchEntry Path) :=
  if entries.any fun entry => entry.path = candidate.path then entries
  else entries ++ [{ path := candidate.path, kind := candidate.conflict, state := .unresolved }]

def rederive (conflicted : List (ConflictedFile Path)) (entry : ConflictBatchEntry Path) : ConflictBatchEntry Path :=
  { entry with
    state := if conflicted.any fun candidate => candidate.path = entry.path then .unresolved else .resolved }

def merge (batch : ConflictBatch Path) (conflicted : List (ConflictedFile Path)) : ConflictBatch Path :=
  { batch with entries := conflicted.foldl track (batch.entries.map (rederive conflicted)) }

def resolvedCount (batch : ConflictBatch Path) : Nat :=
  batch.entries.countP fun entry => entry.state = .resolved

def allResolved (batch : ConflictBatch Path) : Bool :=
  !batch.entries.isEmpty && batch.resolvedCount == batch.entries.length

end ConflictBatch

/-! ## The batch of the conflict window -/

namespace ConflictResolveLogic

structure ConflictBatchEntry (Path : Type*) where
  path : Path
  state : ConflictFileState
  deriving DecidableEq

structure ConflictBatch (Path : Type*) where
  entries : List (ConflictBatchEntry Path) := []

namespace ConflictBatch

/-- One file of a scan; the paths that are tracked are kept as a set. -/
def track (tracked : List (ConflictBatchEntry Path) × Finset Path) (candidate : ConflictedFile Path) :
    List (ConflictBatchEntry Path) × Finset Path :=
  if candidate.path ∈ tracked.2 then tracked
  else (tracked.1 ++ [{ path := candidate.path, state := .unresolved }], insert candidate.path tracked.2)

def rederive (stillConflicted : Finset Path) (entry : ConflictBatchEntry Path) : ConflictBatchEntry Path :=
  { entry with state := if entry.path ∈ stillConflicted then .unresolved else .resolved }

def merge (batch : ConflictBatch Path) (conflicted : List (ConflictedFile Path)) : ConflictBatch Path :=
  let stillConflicted := (conflicted.map ConflictedFile.path).toFinset
  let entries := batch.entries.map (rederive stillConflicted)
  let alreadyTracked := (entries.map ConflictBatchEntry.path).toFinset
  { entries := (conflicted.foldl track (entries, alreadyTracked)).1 }

def resolvedCount (batch : ConflictBatch Path) : Nat :=
  (batch.entries.filter fun entry => entry.state = .resolved).length

def allResolved (batch : ConflictBatch Path) : Bool :=
  !batch.entries.isEmpty && batch.resolvedCount == batch.entries.length

end ConflictBatch

end ConflictResolveLogic

/-! ## The union of all scans -/

namespace ConflictBatch

/-- The state that a scan gives a path. -/
def stateIn (scan : List (ConflictedFile Path)) (path : Path) : ConflictFileState :=
  if path ∈ scan.map ConflictedFile.path then .unresolved else .resolved

/-- The entries are of these paths, each once, in the state that the scan gives it. -/
structure Lists (paths : List Path) (scan : List (ConflictedFile Path)) (entries : List (ConflictBatchEntry Path)) :
    Prop where
  paths_eq : entries.map ConflictBatchEntry.path = paths.eraseDups
  state_eq : ∀ entry ∈ entries, entry.state = stateIn scan entry.path

theorem any_path {entries : List (ConflictBatchEntry Path)} {path : Path} :
    (entries.any fun entry => entry.path = path) = true ↔ path ∈ entries.map ConflictBatchEntry.path := by
  simp only [List.any_eq_true, decide_eq_true_eq, List.mem_map]

theorem rederive_state (scan : List (ConflictedFile Path)) (entry : ConflictBatchEntry Path) :
    (rederive scan entry).state = stateIn scan entry.path := by
  simp only [rederive, stateIn, List.any_eq_true, decide_eq_true_eq, List.mem_map]

/-- One more file of the scan. -/
theorem Lists.track {paths : List Path} {scan : List (ConflictedFile Path)} {entries : List (ConflictBatchEntry Path)}
    (h : Lists paths scan entries) {candidate : ConflictedFile Path} (hScan : candidate ∈ scan) :
    Lists (paths ++ [candidate.path]) scan (track entries candidate) := by
  have hTracked : candidate.path ∈ entries.map ConflictBatchEntry.path ↔ candidate.path ∈ paths := by
    rw [h.paths_eq, List.mem_eraseDups]
  rw [ConflictBatch.track]
  constructor
  · rw [Library.eraseDups_concat, apply_ite (List.map ConflictBatchEntry.path), List.map_append, h.paths_eq]
    simp only [any_path, hTracked, List.contains_iff_mem, List.map_cons, List.map_nil]
  · intro entry hEntry
    split at hEntry
    · exact h.state_eq entry hEntry
    · obtain hOld | hNew := List.mem_append.mp hEntry
      · exact h.state_eq entry hOld
      · obtain rfl := List.mem_singleton.mp hNew
        exact (if_pos (List.mem_map_of_mem hScan)).symm

theorem Lists.foldl_track {paths : List Path} {scan : List (ConflictedFile Path)} :
    ∀ {candidates : List (ConflictedFile Path)} {entries : List (ConflictBatchEntry Path)}, candidates ⊆ scan →
      Lists paths scan entries →
        Lists (paths ++ candidates.map ConflictedFile.path) scan (candidates.foldl ConflictBatch.track entries) := by
  intro candidates
  induction candidates generalizing paths with
  | nil =>
    intro entries _ h
    rw [List.map_nil, List.append_nil]
    exact h
  | cons candidate candidates ih =>
    intro entries hScan h
    rw [List.map_cons, List.append_cons]
    exact ih (List.subset_of_cons_subset hScan) (h.track (hScan List.mem_cons_self))

theorem Lists.merge {paths : List Path} {scan next : List (ConflictedFile Path)} {batch : ConflictBatch Path}
    (h : Lists paths scan batch.entries) :
    Lists (paths ++ next.map ConflictedFile.path) next (batch.merge next).entries := by
  refine Lists.foldl_track (List.Subset.refl next) ⟨?_, ?_⟩
  · rw [List.map_map, ← h.paths_eq]
    rfl
  · intro entry hEntry
    obtain ⟨old, -, rfl⟩ := List.mem_map.mp hEntry
    exact rederive_state next old

theorem lists_scans (operationFingerprint : Bytes) (scans : List (List (ConflictedFile Path))) :
    Lists (scans.flatten.map ConflictedFile.path) (scans.getLastD [])
      (scans.foldl merge (forOperation operationFingerprint)).entries := by
  induction scans using List.reverseRecOn with
  | nil => exact ⟨rfl, nofun⟩
  | append_singleton scans scan ih =>
    rw [List.flatten_concat, List.map_append, List.foldl_append, List.getLastD_concat]
    exact ih.merge

/-- All are resolved when there is one, and the last scan has none. -/
theorem Lists.allResolved_iff {paths : List Path} {scan : List (ConflictedFile Path)} {batch : ConflictBatch Path}
    (h : Lists paths scan batch.entries) (hScan : scan.map ConflictedFile.path ⊆ paths) :
    batch.allResolved = true ↔ batch.entries ≠ [] ∧ scan = [] := by
  rw [allResolved, resolvedCount, Bool.and_eq_true, Bool.not_eq_true', List.isEmpty_eq_false_iff, beq_iff_eq,
    List.countP_eq_length]
  refine and_congr_right fun _ => ?_
  constructor
  · intro hAll
    refine List.eq_nil_iff_forall_not_mem.mpr fun candidate hMem => ?_
    have hPath : candidate.path ∈ scan.map ConflictedFile.path := List.mem_map_of_mem hMem
    obtain ⟨entry, hEntry, hEq⟩ := List.mem_map.mp (h.paths_eq.symm ▸ List.mem_eraseDups.mpr (hScan hPath))
    have hState := h.state_eq entry hEntry
    rw [hEq, stateIn, if_pos hPath, of_decide_eq_true (hAll entry hEntry)] at hState
    exact nomatch hState
  · rintro rfl entry hEntry
    exact decide_eq_true (h.state_eq entry hEntry)

end ConflictBatch

/-! ## The two batches agree -/

/-- What the window keeps of an entry. -/
def ConflictBatchEntry.shown {Path : Type*} (entry : ConflictBatchEntry Path) :
    ConflictResolveLogic.ConflictBatchEntry Path :=
  { path := entry.path, state := entry.state }

theorem foldl_track_shown {candidates : List (ConflictedFile Path)} :
    ∀ {entries : List (ConflictBatchEntry Path)} {tracked : Finset Path},
      tracked = (entries.map ConflictBatchEntry.path).toFinset →
      (candidates.foldl ConflictResolveLogic.ConflictBatch.track (entries.map ConflictBatchEntry.shown, tracked)).1 =
        (candidates.foldl ConflictBatch.track entries).map ConflictBatchEntry.shown := by
  induction candidates with
  | nil => exact fun _ => rfl
  | cons candidate candidates ih =>
    intro entries tracked hTracked
    have hMem : candidate.path ∈ tracked ↔
        (entries.any fun entry => entry.path = candidate.path) = true := by
      rw [hTracked, List.mem_toFinset, ConflictBatch.any_path]
    rw [List.foldl_cons, List.foldl_cons, ConflictResolveLogic.ConflictBatch.track, ConflictBatch.track]
    by_cases hIn : candidate.path ∈ tracked
    · rw [if_pos hIn, if_pos (hMem.mp hIn)]
      exact ih hTracked
    · rw [if_neg hIn, if_neg (mt hMem.mpr hIn), ← ih]
      · rw [List.map_append]
        rfl
      · ext path
        simp only [hTracked, Finset.mem_insert, List.mem_toFinset, List.map_append, List.mem_append, List.map_cons,
          List.map_nil, List.mem_singleton, or_comm]

theorem merge_shown {batch : ConflictBatch Path} {shown : ConflictResolveLogic.ConflictBatch Path}
    (h : shown.entries = batch.entries.map ConflictBatchEntry.shown) (conflicted : List (ConflictedFile Path)) :
    (shown.merge conflicted).entries = (batch.merge conflicted).entries.map ConflictBatchEntry.shown := by
  have hRederive : shown.entries.map
      (ConflictResolveLogic.ConflictBatch.rederive (conflicted.map ConflictedFile.path).toFinset) =
        (batch.entries.map (ConflictBatch.rederive conflicted)).map ConflictBatchEntry.shown := by
    rw [h, List.map_map, List.map_map]
    refine List.map_congr_left fun entry _ => ?_
    simp only [Function.comp_apply, ConflictResolveLogic.ConflictBatch.rederive, ConflictBatchEntry.shown,
      ConflictBatch.rederive_state, ConflictBatch.stateIn, List.mem_toFinset]
    rfl
  rw [ConflictResolveLogic.ConflictBatch.merge, ConflictBatch.merge, hRederive]
  refine foldl_track_shown ?_
  rw [List.map_map]
  rfl

theorem foldl_merge_shown {batch : ConflictBatch Path} {shown : ConflictResolveLogic.ConflictBatch Path}
    (h : shown.entries = batch.entries.map ConflictBatchEntry.shown) (scans : List (List (ConflictedFile Path))) :
    (scans.foldl ConflictResolveLogic.ConflictBatch.merge shown).entries =
      (scans.foldl ConflictBatch.merge batch).entries.map ConflictBatchEntry.shown := by
  induction scans generalizing batch shown with
  | nil => exact h
  | cons scan scans ih => exact ih (merge_shown h scan)

omit [DecidableEq Path] in
theorem allResolved_shown {batch : ConflictBatch Path} {shown : ConflictResolveLogic.ConflictBatch Path}
    (h : shown.entries = batch.entries.map ConflictBatchEntry.shown) : shown.allResolved = batch.allResolved := by
  rw [ConflictResolveLogic.ConflictBatch.allResolved, ConflictResolveLogic.ConflictBatch.resolvedCount,
    ConflictBatch.allResolved, ConflictBatch.resolvedCount, h, List.isEmpty_map, List.length_map,
    ← List.countP_eq_length_filter, List.countP_map]
  rfl

/-- Both batches, after the same scans. -/
theorem conflict_batches_are_the_union (operationFingerprint : Bytes) (scans : List (List (ConflictedFile Path))) :
    let core := scans.foldl ConflictBatch.merge (ConflictBatch.forOperation operationFingerprint)
    let shown := scans.foldl ConflictResolveLogic.ConflictBatch.merge {}
    core.entries.map ConflictBatchEntry.shown =
        (scans.flatten.map ConflictedFile.path).eraseDups.map (fun path =>
          { path, state := if path ∈ (scans.getLastD []).map ConflictedFile.path then .unresolved else .resolved }) ∧
      (core.allResolved = true ↔ core.entries ≠ [] ∧ scans.getLastD [] = []) ∧
      shown.entries = core.entries.map ConflictBatchEntry.shown ∧ shown.allResolved = core.allResolved := by
  intro core shown
  have hLists := ConflictBatch.lists_scans operationFingerprint scans
  have hStart : ({} : ConflictResolveLogic.ConflictBatch Path).entries =
      (ConflictBatch.forOperation operationFingerprint : ConflictBatch Path).entries.map ConflictBatchEntry.shown := rfl
  have hShown : shown.entries = core.entries.map ConflictBatchEntry.shown :=
    foldl_merge_shown hStart scans
  refine ⟨?_, hLists.allResolved_iff ?_, hShown, allResolved_shown hShown⟩
  · rw [← hLists.paths_eq, List.map_map]
    refine List.map_congr_left fun entry hEntry => ?_
    exact congrArg (ConflictResolveLogic.ConflictBatchEntry.mk entry.path) (hLists.state_eq entry hEntry)
  · obtain rfl | ⟨before, last, rfl⟩ := List.eq_nil_or_concat scans
    · exact List.Subset.refl _
    · rw [List.concat_eq_append, List.getLastD_concat, List.flatten_concat, List.map_append]
      exact List.subset_append_right _ _

end GitBranchManager
