import GitBranchManager.Diff.Provenance
import GitBranchManager.Stage.TouchedLines

/-! # Selections made in a diff that is no longer there

An operation carries positions, not lines. What it touches are the lines at these
positions in the diff git reports when it runs, so a selection made in an older diff is
honoured exactly when the operation refuses or the same lines still stand there.
-/

namespace GitBranchManager

open UnifiedDiffParser Library.EditScript

/-- The run changes nothing, or exactly the lines chosen in the hunk that was shown. -/
def LineOperation.Honours (op : LineOperation) (git : Git) (shown : DiffHunk) : Prop :=
  ((op.run git).1.succeeded = false ∧ (op.run git).2 = []) ∨
    ∃ file hunk write, op.locate git = .ok (file, hunk) ∧ (op.run git).2 = [write] ∧
      write.touched file = chosen shown op.lineIndices

def LineOperation.Accepted (op : LineOperation) (git : Git) : Prop :=
  ∀ file hunk write, op.locate git = .ok (file, hunk) → op.write file hunk = .ok write →
    git.run write = .ok ()

def LineOperation.restores (file : DiffFile) (hunk : DiffHunk) : LineOperation → Bool
  | .partialStage request =>
    request.staged && selectionCoversWholeAddedFile file hunk (selection hunk request.lineIndices)
  | .discardLines _ => false

/-- The hunk found when the operation runs has no line to touch at the chosen positions,
or has the lines there that were shown. -/
def LineOperation.StillFits (op : LineOperation) (git : Git) (shown : DiffHunk) : Prop :=
  ∀ file hunk, op.locate git = .ok (file, hunk) →
    (op.lineIndices ≠ [] ∧ op.restores file hunk = false ∧ chosen hunk op.lineIndices = []) ∨
      chosen hunk op.lineIndices = chosen shown op.lineIndices

theorem pickHunk_ok {file file' : DiffFile} {hunkIndex : Nat} {hunk : DiffHunk}
    (h : pickHunk file hunkIndex = .ok (file', hunk)) : file' = file ∧ hunk ∈ file.hunks := by
  rw [pickHunk] at h
  split at h
  · cases h
  · rename_i hHunk
    cases h
    exact ⟨rfl, List.mem_of_getElem? hHunk⟩

theorem workingTreeDiff_ok {git : Git} {staged : Bool} {pathspec : List Bytes} {diff : ParsedDiff}
    (h : git.workingTreeDiff staged pathspec = .ok diff) : ∃ text, diff = parse {} text := by
  rw [Git.workingTreeDiff] at h
  cases hText : git.diffText staged pathspec with
  | error error => rw [hText] at h; cases h
  | ok text => rw [hText] at h; cases h; exact ⟨text, rfl⟩

theorem LineOperation.locate_ok {op : LineOperation} {git : Git} {file : DiffFile} {hunk : DiffHunk}
    (h : op.locate git = .ok (file, hunk)) :
    ∃ text, file ∈ (parse {} text).files ∧ hunk ∈ file.hunks := by
  cases op with
  | partialStage request =>
    change request.locate git = .ok (file, hunk) at h
    rw [PartialStageRequest.locate] at h
    split at h
    · cases h
    · split at h
      · cases h
      · rename_i diff hDiff
        obtain ⟨text, rfl⟩ := workingTreeDiff_ok hDiff
        split at h
        · cases h
        · rename_i front rest hFiles
          split at h
          · split at h
            · cases h
            · rename_i found hFound
              split at h
              · cases h
              · obtain ⟨rfl, hHunk⟩ := pickHunk_ok h
                exact ⟨text, List.mem_of_find?_eq_some hFound, hHunk⟩
          · obtain ⟨rfl, hHunk⟩ := pickHunk_ok h
            exact ⟨text, hFiles ▸ List.mem_cons_self, hHunk⟩
  | discardLines request =>
    change request.locate git = .ok (file, hunk) at h
    rw [DiscardLinesRequest.locate] at h
    split at h
    · cases h
    · split at h
      · cases h
      · rename_i diff hDiff
        obtain ⟨text, rfl⟩ := workingTreeDiff_ok hDiff
        split at h
        · cases h
        · rename_i front rest hFiles
          obtain ⟨rfl, hHunk⟩ := pickHunk_ok h
          exact ⟨text, hFiles ▸ List.mem_cons_self, hHunk⟩

section Write

variable (file : DiffFile) {hunk : DiffHunk}

/-- A located hunk is refused when nothing is chosen in it, else its chosen lines are touched. -/
def WriteSpec (write : Except Stop GitWrite) (hunk : DiffHunk) (lineIndices : List Nat)
    (restores : Bool) : Prop :=
  (∃ message, write = .error (.refusal message) ∧
      (lineIndices ≠ [] ∧ restores = false ∧ chosen hunk lineIndices = [])) ∨
    ∃ planned, write = .ok planned ∧ planned.touched file = chosen hunk lineIndices ∧
      ¬ (lineIndices ≠ [] ∧ restores = false ∧ chosen hunk lineIndices = [])

theorem writeSpec_apply (h : ∀ line ∈ hunk.lines, LF ∉ line.text) (lineIndices : List Nat)
    (cached unstaging : Bool) (message : Bytes) :
    let patch := if lineIndices.isEmpty then buildHunkPatch file hunk false unstaging
      else buildLineSelectionPatch file hunk (selection hunk lineIndices) unstaging
    WriteSpec file (if patch.isEmpty then .error (.refusal message)
      else .ok (.apply cached unstaging patch)) hunk lineIndices false := by
  have hPatch := patch_changes file h lineIndices unstaging
  dsimp only at hPatch ⊢
  generalize (if lineIndices.isEmpty = true then buildHunkPatch file hunk false unstaging
    else buildLineSelectionPatch file hunk (selection hunk lineIndices) unstaging) =
      patch at hPatch ⊢
  cases patch with
  | nil =>
    obtain ⟨hSome, hNone⟩ := hPatch.1.mp rfl
    exact .inl ⟨message, rfl, hSome, rfl, hNone⟩
  | cons b patch =>
    refine .inr ⟨_, rfl, hPatch.2 (by simp), ?_⟩
    rintro ⟨hSome, -, hNone⟩
    cases hPatch.1.mpr ⟨hSome, hNone⟩

theorem writeSpec_restoreStaged (hHunk : hunk ∈ file.hunks) {lineIndices : List Nat}
    (hCovers : selectionCoversWholeAddedFile file hunk (selection hunk lineIndices) = true)
    (paths : List Bytes) : WriteSpec file (.ok (.restoreStaged paths)) hunk lineIndices true := by
  refine .inr ⟨_, rfl, ?_, fun hNone => nomatch hNone.2.1⟩
  have hOne : file.hunks = [hunk] := by
    simp only [selectionCoversWholeAddedFile, Bool.and_eq_true, beq_iff_eq] at hCovers
    obtain ⟨only, hOnly⟩ := List.length_eq_one_iff.mp hCovers.1.2
    rw [hOnly, List.mem_singleton] at hHunk
    rw [hOnly, hHunk]
  rw [GitWrite.touched, hOne, chosen_of_covers hCovers, List.flatMap_singleton]

theorem LineOperation.write_spec (op : LineOperation) (h : ∀ line ∈ hunk.lines, LF ∉ line.text)
    (hHunk : hunk ∈ file.hunks) :
    WriteSpec file (op.write file hunk) hunk op.lineIndices (op.restores file hunk) := by
  cases op with
  | partialStage request =>
    change WriteSpec file (request.write file hunk) hunk request.lineIndices (request.staged &&
      selectionCoversWholeAddedFile file hunk (selection hunk request.lineIndices))
    rw [PartialStageRequest.write]
    dsimp only
    split
    next hRestores =>
      rw [hRestores]
      exact writeSpec_restoreStaged file hHunk (Bool.and_eq_true_iff.mp hRestores).2 _
    next hRestores =>
      rw [Bool.not_eq_true] at hRestores
      rw [hRestores]
      exact writeSpec_apply file h request.lineIndices true request.staged _
  | discardLines request => exact writeSpec_apply file h request.lineIndices false true _

end Write

theorem Stop.outcome_succeeded (stop : Stop) : stop.outcome.succeeded = false := by
  cases stop <;> rfl

def gitReporting (text : Bytes) : Git where
  diffText _ _ := .ok text
  run _ := .ok ()

def fileLines : List Bytes := [ascii "diff --git a/f b/f", ascii "--- a/f", ascii "+++ b/f"]

def threeHunks : Bytes :=
  Library.Lines.join LF (fileLines ++
    [ascii "@@ -1 +1,2 @@", ascii " x", ascii "+a", ascii "@@ -10 +11,2 @@", ascii " y", ascii "+b",
      ascii "@@ -20 +22,2 @@", ascii " z", ascii "+c"])

def lastTwoHunks : Bytes :=
  Library.Lines.join LF (fileLines ++
    [ascii "@@ -11 +11,2 @@", ascii " y", ascii "+b", ascii "@@ -21 +22,2 @@", ascii " z", ascii "+c"])

def shownHunk (text : Bytes) (hunkIndex : Nat) : DiffHunk :=
  (((parse {} text).files.flatMap DiffFile.hunks)[hunkIndex]?).getD {}

def stageSecond : LineOperation := .partialStage { path := ascii "f", hunkIndex := 1 }

end GitBranchManager
