import GitBranchManager.Refs.RefOperations

/-! # A resolution is written and staged

The file is emptied when it is opened. What the file system and git answer at each step is up to
them.
-/

namespace GitBranchManager

/-- The working files, and for each path that has no conflict the blob in the index. -/
structure WorkTree where
  files : Bytes → Option Bytes
  staged : Bytes → Option Bytes

namespace WorkTree

def write (tree : WorkTree) (path content : Bytes) : WorkTree :=
  { tree with files := Function.update tree.files path (some content) }

@[simp] theorem files_write (tree : WorkTree) (path content : Bytes) :
    (tree.write path content).files path = some content :=
  Function.update_self path _ _

theorem files_write_of_ne (tree : WorkTree) {path other : Bytes} (content : Bytes) (h : other ≠ path) :
    (tree.write path content).files other = tree.files other :=
  Function.update_of_ne h _ _

end WorkTree

/-- What the file system does with an opened file; `failsAfter` is how many bytes are in the file
when writing or closing fails. -/
structure OutputFile where
  opens : Bool := true
  failsAfter : Option Nat := none

inductive ConflictResolution
  | takeOurs
  | takeTheirs
  | markResolved
  | writeResolved
  deriving DecidableEq, Repr

structure ResolveConflictRequest where
  path : Bytes
  resolution : ConflictResolution := .markResolved
  oursBlobMissing : Bool := false
  theirsBlobMissing : Bool := false
  resolvedContent : Bytes := []

namespace ResolveConflictRequest

variable (request : ResolveConflictRequest)

def refused (code : GitErrorCode) (message : Bytes) : OperationOutcome := { error := some { code, message } }

def addCommand : GitCommand := [ascii "add", ascii "-A", ascii "--", request.path]

def stage (git : ProcessRunner WorkTree) (tree : WorkTree) : OperationOutcome × WorkTree :=
  match git tree request.addCommand with
  | (.error e, tree) => (failedOutcomeOf e, tree)
  | (.ok _, tree) => ({ succeeded := true, summary := ascii "Resolved " ++ request.path }, tree)

def takeSide (ours : Bool) (git : ProcessRunner WorkTree) (tree : WorkTree) : OperationOutcome × WorkTree :=
  if (if ours then request.oursBlobMissing else request.theirsBlobMissing) then
    match git tree [ascii "rm", ascii "-f", ascii "--", request.path] with
    | (.error e, tree) => (failedOutcomeOf e, tree)
    | (.ok _, tree) =>
      ({ succeeded := true, summary := ascii "Resolved " ++ request.path ++ ascii " as deleted" }, tree)
  else
    match git tree [ascii "checkout", if ours then ascii "--ours" else ascii "--theirs", ascii "--", request.path] with
    | (.error e, tree) => (failedOutcomeOf e, tree)
    | (.ok _, tree) => request.stage git tree

def couldNotWrite : OperationOutcome := refused .io (ascii "Could not write " ++ request.path)

def writeResolved (workDir : Bytes) (out : OutputFile) (git : ProcessRunner WorkTree) (tree : WorkTree) :
    OperationOutcome × WorkTree :=
  if request.resolvedContent.isEmpty then
    (refused .invalidArgument (ascii "No resolved content to write"), tree)
  else if workDir.isEmpty then (refused .invalidArgument (ascii "No working tree to write into"), tree)
  else if !out.opens then (request.couldNotWrite, tree)
  else
    match out.failsAfter with
    | some count => (request.couldNotWrite, tree.write request.path (request.resolvedContent.take count))
    | none => request.stage git (tree.write request.path request.resolvedContent)

def run (workDir : Bytes) (out : OutputFile) (git : ProcessRunner WorkTree) (tree : WorkTree) :
    OperationOutcome × WorkTree :=
  if request.path.isEmpty then (refused .invalidArgument (ascii "No path to resolve"), tree)
  else
    match request.resolution with
    | .takeOurs => request.takeSide true git tree
    | .takeTheirs => request.takeSide false git tree
    | .markResolved => request.stage git tree
    | .writeResolved => request.writeResolved workDir out git tree

/-- The file is the content and its path is staged, or the operation failed and the file is as it was. -/
def AllOrNothing (before : WorkTree) (result : OperationOutcome × WorkTree) : Prop :=
  result.1.succeeded = true ∧ result.2.files request.path = some request.resolvedContent ∧
      (result.2.staged request.path).isSome = true ∨
    result.1.succeeded = false ∧ result.2.files request.path = before.files request.path

/-- Nothing is opened, every step is done, or the bytes that are left are the ones that were there. -/
def LeavesWhole (workDir : Bytes) (out : OutputFile) (git : ProcessRunner WorkTree) (tree : WorkTree) : Prop :=
  request.path = [] ∨ request.resolvedContent = [] ∨ workDir = [] ∨ out.opens = false ∨
    match out.failsAfter with
    | some count => tree.files request.path = some (request.resolvedContent.take count)
    | none =>
      match git (tree.write request.path request.resolvedContent) request.addCommand with
      | (.error _, _) => tree.files request.path = some request.resolvedContent
      | (.ok _, after) => (after.staged request.path).isSome = true

variable {request} {workDir : Bytes} {out : OutputFile} {git : ProcessRunner WorkTree} {tree : WorkTree}

theorem allOrNothing_unchanged {outcome : OperationOutcome} (h : outcome.succeeded = false) :
    request.AllOrNothing tree (outcome, tree) :=
  .inr ⟨h, rfl⟩

theorem allOrNothing_couldNotWrite_iff (written : Bytes) :
    request.AllOrNothing tree (request.couldNotWrite, tree.write request.path written) ↔
      tree.files request.path = some written := by
  rw [AllOrNothing, WorkTree.files_write]
  constructor
  · rintro (⟨hDone, -, -⟩ | ⟨-, hSame⟩)
    · cases hDone
    · exact hSame.symm
  · intro hSame
    exact .inr ⟨rfl, hSame.symm⟩

/-- `git add` reads the working file and leaves it alone. -/
theorem allOrNothing_stage_iff
    (hAdd : ∀ tree, (git tree request.addCommand).2.files = tree.files) :
    request.AllOrNothing tree (request.stage git (tree.write request.path request.resolvedContent)) ↔
      match git (tree.write request.path request.resolvedContent) request.addCommand with
      | (.error _, _) => tree.files request.path = some request.resolvedContent
      | (.ok _, after) => (after.staged request.path).isSome = true := by
  have hFiles := congrFun (hAdd (tree.write request.path request.resolvedContent)) request.path
  rw [WorkTree.files_write] at hFiles
  rw [AllOrNothing, stage]
  rcases hGit : git (tree.write request.path request.resolvedContent) request.addCommand with ⟨_ | _, after⟩
  · rw [hGit] at hFiles
    constructor
    · rintro (⟨hDone, -, -⟩ | ⟨-, hSame⟩)
      · cases hDone
      · exact hSame.symm.trans hFiles
    · intro hSame
      exact .inr ⟨rfl, hFiles.trans hSame.symm⟩
  · rw [hGit] at hFiles
    constructor
    · rintro (⟨-, -, hStaged⟩ | ⟨hFailed, -⟩)
      · exact hStaged
      · cases hFailed
    · intro hStaged
      exact .inl ⟨rfl, hFiles, hStaged⟩

/-- A written resolution is all or nothing exactly when no step after the opening fails, or the
bytes it leaves are the ones that were there. -/
theorem write_allOrNothing_iff (hWrite : request.resolution = .writeResolved)
    (hAdd : ∀ tree, (git tree request.addCommand).2.files = tree.files) :
    request.AllOrNothing tree (request.run workDir out git tree) ↔
      request.LeavesWhole workDir out git tree := by
  rw [run, hWrite, LeavesWhole]
  by_cases hPath : request.path = []
  · simp only [hPath, List.isEmpty_nil, if_true, true_or, iff_true]
    exact allOrNothing_unchanged rfl
  rw [if_neg (by simpa using hPath), writeResolved]
  by_cases hContent : request.resolvedContent = []
  · simp only [hContent, List.isEmpty_nil, if_true, true_or, or_true, iff_true]
    exact allOrNothing_unchanged rfl
  rw [if_neg (by simpa using hContent)]
  by_cases hDir : workDir = []
  · simp only [hDir, List.isEmpty_nil, if_true, true_or, or_true, iff_true]
    exact allOrNothing_unchanged rfl
  rw [if_neg (by simpa using hDir)]
  cases hOpens : out.opens with
  | false =>
    simp only [Bool.not_false, if_true, true_or, or_true, iff_true]
    exact allOrNothing_unchanged rfl
  | true =>
    simp only [Bool.not_true, Bool.false_eq_true, if_false, hPath, hContent, hDir, false_or, reduceCtorEq]
    cases out.failsAfter with
    | some count => exact allOrNothing_couldNotWrite_iff _
    | none => exact allOrNothing_stage_iff hAdd

/-- A `git add` that stages the path as it stands. -/
def addsFile : ProcessRunner WorkTree := fun tree command =>
  match command with
  | [_, _, _, path] => (.ok [], { tree with staged := Function.update tree.staged path (tree.files path) })
  | _ => (.ok [], tree)

def conflicted : WorkTree where
  files path := if path = ascii "notes" then some (ascii "<<<<<<< HEAD\na\n=======\nb\n>>>>>>> x\n") else none
  staged _ := none

def notes : ResolveConflictRequest where
  path := ascii "notes"
  resolution := .writeResolved
  resolvedContent := ascii "a\n"

/-- On a full disk the conflict is gone and so is its resolution. -/
theorem notes_full_disk :
    (notes.run (ascii "/repo") { failsAfter := some 0 } addsFile conflicted).1.succeeded = false ∧
    (notes.run (ascii "/repo") { failsAfter := some 0 } addsFile conflicted).2.files (ascii "notes") = some [] ∧
    ¬ notes.AllOrNothing conflicted
      (notes.run (ascii "/repo") { failsAfter := some 0 } addsFile conflicted) := by
  refine ⟨by decide, by decide, ?_⟩
  rintro (⟨hDone, -, -⟩ | ⟨-, hSame⟩)
  · cases hDone
  · revert hSame
    decide

theorem write_allOrNothing_iff_notes :
    notes.AllOrNothing conflicted (notes.run (ascii "/repo") {} addsFile conflicted) ↔
      notes.LeavesWhole (ascii "/repo") {} addsFile conflicted :=
  write_allOrNothing_iff rfl fun _ => rfl

theorem files_stage (hAdd : ∀ tree, (git tree request.addCommand).2.files = tree.files) (tree : WorkTree) :
    (request.stage git tree).2.files = tree.files := by
  have hFiles := hAdd tree
  rw [stage]
  split
  · rename_i hGit
    rwa [hGit] at hFiles
  · rename_i hGit
    rwa [hGit] at hFiles

/-- No other file is touched. -/
theorem write_other_files (hWrite : request.resolution = .writeResolved)
    (hAdd : ∀ tree, (git tree request.addCommand).2.files = tree.files) {other : Bytes}
    (hOther : other ≠ request.path) :
    (request.run workDir out git tree).2.files other = tree.files other := by
  rw [run, hWrite]
  split
  · rfl
  change (request.writeResolved workDir out git tree).2.files other = tree.files other
  rw [writeResolved]
  split
  · rfl
  split
  · rfl
  split
  · rfl
  cases out.failsAfter with
  | some count => exact WorkTree.files_write_of_ne tree _ hOther
  | none =>
    change (request.stage git (tree.write request.path request.resolvedContent)).2.files other = tree.files other
    rw [files_stage hAdd, WorkTree.files_write_of_ne tree _ hOther]

end ResolveConflictRequest

end GitBranchManager
