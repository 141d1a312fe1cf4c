import GitBranchManager.Base.GitError
import GitBranchManager.Diff.PatchBuilder

/-! # Hunk- and line-level staging, unstaging and discarding

Both operations recompute the file's diff, look the requested hunk up by its index and
hand git at most one write. What git answers is a parameter: the text of the diff it
reports and whether it carries a write out.
-/

namespace GitBranchManager

open UnifiedDiffParser

inductive GitWrite
  | apply (cached reverse : Bool) (patch : Bytes)
  | restoreStaged (paths : List Bytes)
  deriving DecidableEq, Repr

structure Git where
  diffText : (staged : Bool) → (pathspec : List Bytes) → GitResult Bytes
  run : GitWrite → GitResult Unit

/-- `DiffService::workingTreeDiff` with the default options. -/
def Git.workingTreeDiff (git : Git) (staged : Bool) (pathspec : List Bytes) : GitResult ParsedDiff :=
  (git.diffText staged pathspec).map (parse {})

inductive Stop
  | refusal (message : Bytes)
  | gitFailure (error : GitError)
  deriving DecidableEq, Repr

def Stop.outcome : Stop → OperationOutcome
  | .refusal message => { error := some { code := .invalidArgument, message := message } }
  | .gitFailure error => { error := some error, summary := error.message }

def Git.finish (git : Git) (describe : Bytes) (write : GitWrite) : OperationOutcome × List GitWrite :=
  match git.run write with
  | .error error => ((Stop.gitFailure error).outcome, [])
  | .ok _ => ({ succeeded := true, summary := describe }, [write])

def goneMessage : Bytes := ascii "That change no longer exists -- the file may have changed"

def noChangesMessage (path : Bytes) : Bytes :=
  ascii "No pending changes found for \"" ++ path ++ ascii "\""

def pickHunk (file : DiffFile) (hunkIndex : Nat) : Except Stop (DiffFile × DiffHunk) :=
  match file.hunks[hunkIndex]? with
  | none => .error (.refusal goneMessage)
  | some hunk => .ok (file, hunk)

def selection (hunk : DiffHunk) (lineIndices : List Nat) : List Bool :=
  lineIndices.foldl (fun selected index => selected.set index true)
    (List.replicate hunk.lines.length lineIndices.isEmpty)

def selectionCoversWholeAddedFile (file : DiffFile) (hunk : DiffHunk) (selected : List Bool) : Bool :=
  file.kind == .added && file.hunks.length == 1 &&
    hunk.lines.zipIdx.all fun (line, i) => !line.kind.isChange || selected.getD i false

structure PartialStageRequest where
  path : Bytes
  oldPath : Bytes := []
  staged : Bool := false
  hunkIndex : Nat := 0
  lineIndices : List Nat := []

namespace PartialStageRequest

def describe (request : PartialStageRequest) : Bytes :=
  (if request.staged then ascii "Unstage " else ascii "Stage ") ++
    (if request.lineIndices.isEmpty then ascii "hunk in " else ascii "selected lines in ") ++ request.path

def pairsARename (request : PartialStageRequest) : Bool :=
  request.staged && !request.oldPath.isEmpty && request.oldPath != request.path

def pathspec (request : PartialStageRequest) : List Bytes :=
  if request.pairsARename then [request.oldPath, request.path] else [request.path]

def locate (request : PartialStageRequest) (git : Git) : Except Stop (DiffFile × DiffHunk) :=
  if request.path.isEmpty then .error (.refusal (ascii "No file specified"))
  else match git.workingTreeDiff request.staged request.pathspec with
  | .error error => .error (.gitFailure error)
  | .ok diff =>
    match diff.files with
    | [] => .error (.refusal (noChangesMessage request.path))
    | front :: _ =>
      if request.pairsARename then
        -- Two pathspecs can answer with two files, so the rename is picked by name.
        match diff.files.find? fun file => file.newPath == request.path with
        | none => .error (.refusal goneMessage)
        | some file =>
          if file.kind != .renamed || file.oldPath != request.oldPath then
            .error (.refusal goneMessage)
          else pickHunk file request.hunkIndex
      else pickHunk front request.hunkIndex

def write (request : PartialStageRequest) (file : DiffFile) (hunk : DiffHunk) : Except Stop GitWrite :=
  let selected := selection hunk request.lineIndices
  if request.staged && selectionCoversWholeAddedFile file hunk selected then
    .ok (.restoreStaged [request.path])
  else
    let patch :=
      if request.lineIndices.isEmpty then buildHunkPatch file hunk false request.staged
      else buildLineSelectionPatch file hunk selected request.staged
    if patch.isEmpty then .error (.refusal (ascii "Nothing selected to apply"))
    else .ok (.apply true request.staged patch)

def run (request : PartialStageRequest) (git : Git) : OperationOutcome × List GitWrite :=
  match (request.locate git).bind fun (file, hunk) => request.write file hunk with
  | .error stop => (stop.outcome, [])
  | .ok write => git.finish request.describe write

end PartialStageRequest

structure DiscardLinesRequest where
  path : Bytes
  hunkIndex : Nat := 0
  lineIndices : List Nat := []

namespace DiscardLinesRequest

def describe (request : DiscardLinesRequest) : Bytes :=
  ascii "Discard " ++
    (if request.lineIndices.isEmpty then ascii "hunk in "
    else if request.lineIndices.length = 1 then ascii "1 line in "
    else Library.Decimal.numeral request.lineIndices.length ++ ascii " lines in ") ++ request.path

def locate (request : DiscardLinesRequest) (git : Git) : Except Stop (DiffFile × DiffHunk) :=
  if request.path.isEmpty then .error (.refusal (ascii "No file specified"))
  else match git.workingTreeDiff false [request.path] with
  | .error error => .error (.gitFailure error)
  | .ok diff =>
    match diff.files with
    | [] => .error (.refusal (noChangesMessage request.path))
    | front :: _ => pickHunk front request.hunkIndex

/-- `unstaging` because the patch is applied in reverse, against the new side. -/
def write (request : DiscardLinesRequest) (file : DiffFile) (hunk : DiffHunk) : Except Stop GitWrite :=
  let patch :=
    if request.lineIndices.isEmpty then buildHunkPatch file hunk false true
    else buildLineSelectionPatch file hunk (selection hunk request.lineIndices) true
  if patch.isEmpty then .error (.refusal (ascii "Nothing selected to discard"))
  else .ok (.apply false true patch)

def run (request : DiscardLinesRequest) (git : Git) : OperationOutcome × List GitWrite :=
  match (request.locate git).bind fun (file, hunk) => request.write file hunk with
  | .error stop => (stop.outcome, [])
  | .ok write => git.finish request.describe write

end DiscardLinesRequest

inductive LineOperation
  | partialStage (request : PartialStageRequest)
  | discardLines (request : DiscardLinesRequest)

namespace LineOperation

def lineIndices : LineOperation → List Nat
  | .partialStage request => request.lineIndices
  | .discardLines request => request.lineIndices

def hunkIndex : LineOperation → Nat
  | .partialStage request => request.hunkIndex
  | .discardLines request => request.hunkIndex

def locate : LineOperation → Git → Except Stop (DiffFile × DiffHunk)
  | .partialStage request => request.locate
  | .discardLines request => request.locate

def write : LineOperation → DiffFile → DiffHunk → Except Stop GitWrite
  | .partialStage request => request.write
  | .discardLines request => request.write

def describe : LineOperation → Bytes
  | .partialStage request => request.describe
  | .discardLines request => request.describe

def run : LineOperation → Git → OperationOutcome × List GitWrite
  | .partialStage request => request.run
  | .discardLines request => request.run

theorem run_eq (op : LineOperation) (git : Git) :
    op.run git =
      match (op.locate git).bind fun (file, hunk) => op.write file hunk with
      | .error stop => (stop.outcome, [])
      | .ok write => git.finish op.describe write := by
  cases op <;> rfl

end LineOperation

end GitBranchManager
