import GitBranchManager.Discovery.TouchedSubtree
import GitBranchManager.Discovery.VisitedDirectories

/-! # The rows that a scan leaves

A repository is in the list after a scan when the scan passed it on, or when a row of it was there
that the sweep passes over.
-/

namespace GitBranchManager

open Library

/-- What tells one repository from another in the index. -/
def RepoRecord.key (record : RepoRecord) : Text × Text := (record.gitDir, record.workDir)

namespace RepoIndexDb

/-- The repository has a row that is not missing. -/
def Live (rows : List RepoRecord) (key : Text × Text) : Prop :=
  ∃ row ∈ rows, row.key = key ∧ row.missingSince = none

def Begins (directory : Text) (row : RepoRecord) : Prop :=
  Like.BeginsWith directory row.workDir ∨ Like.BeginsWith directory row.gitDir

/-- The row is not missing, and the sweep leaves it. -/
def Stands (scan : Scan) (row : RepoRecord) : Prop :=
  row.missingSince = none ∧ (row.baseFolderId = scan.baseFolder.id → scan.generation ≤ row.lastSeenGeneration)

/-- The row is not missing, and one of the effects touches it. -/
def Touched (scan : Scan) (effects : List IndexEffect) (row : RepoRecord) : Prop :=
  row.missingSince = none ∧ row.baseFolderId = scan.baseFolder.id ∧ ∃ directory, .touch directory ∈ effects ∧
    Begins directory row

variable {scan : Scan} {rows : List RepoRecord} {key : Text × Text}

theorem sameRow_iff {record row : RepoRecord} : sameRow record row = true ↔ row.key = record.key := by
  simp [sameRow, RepoRecord.key]

theorem live_markMissing {now : Int} :
    Live (markMissing rows scan.baseFolder.id scan.generation now) key ↔
      ∃ row ∈ rows, row.key = key ∧ Stands scan row := by
  simp only [Live, markMissing, List.mem_map, exists_exists_and_eq_and]
  refine exists_congr fun row => and_congr_right fun _ => ?_
  split
  next hSwept =>
    obtain ⟨hBase, hOld, _⟩ := hSwept
    constructor
    · rintro ⟨_, hNone⟩
      cases hNone
    · rintro ⟨_, _, hSeen⟩
      exact absurd (hSeen hBase) (Int.not_le.mpr hOld)
  next hKept =>
    refine and_congr_right fun _ => ?_
    constructor
    · intro hNone
      refine ⟨hNone, fun hBase => Int.not_lt.mp fun hOld => hKept ⟨hBase, hOld, hNone⟩⟩
    · exact And.left

/-- A row of the repository is there after it was put into the index. -/
theorem exists_upsertRepo {record : RepoRecord} {P : RepoRecord → Prop}
    (hNew : P { record with missingSince := none }) :
    (∃ row ∈ upsertRepo rows record, row.key = key ∧ P row) ↔
      record.key = key ∨ ∃ row ∈ rows, row.key = key ∧ P row := by
  rw [upsertRepo]
  split
  next hAny =>
    obtain ⟨old, hOld, hSame⟩ := List.any_eq_true.mp hAny
    simp only [List.mem_map, exists_exists_and_eq_and]
    constructor
    · rintro ⟨row, hMem, hKey, hRow⟩
      by_cases hReplaced : sameRow record row = true
      · rw [if_pos hReplaced] at hKey
        exact .inl hKey
      · rw [if_neg hReplaced] at hKey hRow
        exact .inr ⟨row, hMem, hKey, hRow⟩
    · rintro (hKey | ⟨row, hMem, hKey, hRow⟩)
      · refine ⟨old, hOld, ?_⟩
        rw [if_pos hSame]
        exact ⟨hKey, hNew⟩
      · refine ⟨row, hMem, ?_⟩
        split
        next hReplaced => exact ⟨(sameRow_iff.mp hReplaced).symm.trans hKey, hNew⟩
        next => exact ⟨hKey, hRow⟩
  next =>
    simp only [List.mem_append, List.mem_singleton]
    constructor
    · rintro ⟨row, hMem | rfl, hKey, hRow⟩
      · exact .inr ⟨row, hMem, hKey, hRow⟩
      · exact .inl hKey
    · rintro (hKey | ⟨row, hMem, hKey, hRow⟩)
      · exact ⟨_, .inr rfl, hKey, hNew⟩
      · exact ⟨row, .inl hMem, hKey, hRow⟩

theorem touched_upsert {record row : RepoRecord} {effects : List IndexEffect} :
    Touched scan (.upsert record :: effects) row ↔ Touched scan effects row := by
  simp [Touched]

/-- A row that is touched stands from then on. -/
theorem exists_touchReposUnder {directory : Text} {effects : List IndexEffect} :
    (∃ row ∈ touchReposUnder rows scan.baseFolder.id directory scan.generation,
      row.key = key ∧ (Stands scan row ∨ Touched scan effects row)) ↔
    ∃ row ∈ rows, row.key = key ∧ (Stands scan row ∨ Touched scan (.touch directory :: effects) row) := by
  rw [touchReposUnder_eq]
  simp only [List.mem_map, exists_exists_and_eq_and]
  refine exists_congr fun row => and_congr_right fun _ => ?_
  split
  next hBegun =>
    refine and_congr_right fun _ => ?_
    constructor
    · rintro (⟨hNone, _⟩ | ⟨hNone, _⟩)
      · exact .inr ⟨hNone, hBegun.1, directory, List.mem_cons_self, hBegun.2⟩
      · exact .inr ⟨hNone, hBegun.1, directory, List.mem_cons_self, hBegun.2⟩
    · rintro (⟨hNone, _⟩ | ⟨hNone, _⟩)
      · exact .inl ⟨hNone, fun _ => Int.le_refl _⟩
      · exact .inl ⟨hNone, fun _ => Int.le_refl _⟩
  next hNot =>
    refine and_congr_right fun _ => or_congr_right ?_
    constructor
    · rintro ⟨hNone, hBase, other, hMem, hBegins⟩
      exact ⟨hNone, hBase, other, List.mem_cons_of_mem _ hMem, hBegins⟩
    · rintro ⟨hNone, hBase, other, hMem, hBegins⟩
      cases hMem with
      | head => exact absurd ⟨hBase, hBegins⟩ hNot
      | tail _ hLater => exact ⟨hNone, hBase, other, hLater, hBegins⟩

theorem stands_foldl {effects : List IndexEffect}
    (hSeen : ∀ record, .upsert record ∈ effects → scan.generation ≤ record.lastSeenGeneration) :
    (∃ row ∈ effects.foldl scan.applyEffect rows, row.key = key ∧ Stands scan row) ↔
      (∃ record, .upsert record ∈ effects ∧ record.key = key) ∨
      ∃ row ∈ rows, row.key = key ∧ (Stands scan row ∨ Touched scan effects row) := by
  induction effects generalizing rows with
  | nil => simp [Touched]
  | cons effect effects ih =>
    rw [List.foldl_cons, ih fun record hMem => hSeen record (List.mem_cons_of_mem _ hMem)]
    cases effect with
    | upsert record =>
      have hRecord : Stands scan { record with missingSince := none } :=
        ⟨rfl, fun _ => hSeen record List.mem_cons_self⟩
      rw [Scan.applyEffect, exists_upsertRepo (.inl hRecord)]
      simp only [touched_upsert, List.mem_cons, IndexEffect.upsert.injEq, or_and_right, exists_or, exists_eq_left]
      rw [or_left_comm, or_assoc]
    | touch directory =>
      rw [Scan.applyEffect, exists_touchReposUnder]
      simp

end RepoIndexDb

end GitBranchManager
