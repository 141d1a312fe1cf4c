import GitBranchManager.Diff.UnifiedDiffParser

/-! # The two patch builders

`buildHunkPatch` prints a whole hunk, `buildLineSelectionPatch` a subset of its
changed lines. Both write the same file header and count the lines they emit.
-/

namespace GitBranchManager

def DiffLineKind.onOldSide : DiffLineKind → Bool
  | .context | .removed => true
  | .added | .noNewlineMarker => false

def DiffLineKind.onNewSide : DiffLineKind → Bool
  | .context | .added => true
  | .removed | .noNewlineMarker => false

def DiffLineKind.isChange : DiffLineKind → Bool
  | .added | .removed => true
  | .context | .noNewlineMarker => false

namespace UnifiedDiffParser

/-- `appendPatchHeader`: the lines up to and with `+++ `. -/
def patchHeader (file : DiffFile) (oldPath newPath : Bytes) (unstaging : Bool) : Bytes :=
  let isRenameOrCopy := (file.kind == .renamed || file.kind == .copied) && oldPath != newPath
  let contentOnlyAtNewPath := unstaging && isRenameOrCopy
  let headerOldPath := if contentOnlyAtNewPath then newPath else oldPath
  if !unstaging && file.kind == .added then
    ascii "diff --git a/" ++ newPath ++ ascii " b/" ++ newPath ++ [LF] ++
    ascii "new file mode " ++ (if file.newMode.isEmpty then ascii "100644" else file.newMode) ++ [LF] ++
    ascii "--- /dev/null" ++ [LF] ++
    ascii "+++ b/" ++ newPath ++ [LF]
  else
    ascii "diff --git a/" ++ headerOldPath ++ ascii " b/" ++ newPath ++ [LF] ++
    (if isRenameOrCopy && !contentOnlyAtNewPath then
      ascii "similarity index " ++ intToString file.similarity ++ ascii "%" ++ [LF] ++
      (if file.kind == .renamed then ascii "rename from " else ascii "copy from ") ++ oldPath ++ [LF] ++
      (if file.kind == .renamed then ascii "rename to " else ascii "copy to ") ++ newPath ++ [LF]
    else []) ++
    ascii "--- a/" ++ headerOldPath ++ [LF] ++
    ascii "+++ b/" ++ newPath ++ [LF]

/-- The file's paths, each standing in for the other where one is empty. -/
def patchHeaderOf (file : DiffFile) (unstaging : Bool) : Bytes :=
  patchHeader file (if file.oldPath.isEmpty then file.newPath else file.oldPath)
    (if file.newPath.isEmpty then file.oldPath else file.newPath) unstaging

def hunkRanges (oldStart oldCount newStart newCount : UInt32) : Bytes :=
  ascii "@@ -" ++ uintToString oldStart ++ ascii "," ++ uintToString oldCount ++ ascii " +" ++
    uintToString newStart ++ ascii "," ++ uintToString newCount ++ ascii " @@" ++ [LF]

def countLines {α : Type} (p : α → Bool) (lines : List α) : UInt32 :=
  lines.foldl (fun count line => if p line then count + 1 else count) 0

def noNewlineText : Bytes := ascii "\\ No newline at end of file"

def hunkLine (reverse : Bool) (line : DiffLine) : Bytes :=
  match line.kind with
  | .context => space :: line.text ++ [LF]
  | .added => (if reverse then minus else plus) :: line.text ++ [LF]
  | .removed => (if reverse then plus else minus) :: line.text ++ [LF]
  | .noNewlineMarker => noNewlineText ++ [LF]

def buildHunkPatch (file : DiffFile) (hunk : DiffHunk) (reverse unstaging : Bool) : Bytes :=
  let oldCount := countLines (fun line => line.kind.onOldSide) hunk.lines
  let newCount := countLines (fun line => line.kind.onNewSide) hunk.lines
  patchHeaderOf file unstaging ++
    (if reverse then hunkRanges hunk.newStart newCount hunk.oldStart oldCount
    else hunkRanges hunk.oldStart oldCount hunk.newStart newCount) ++
    hunk.lines.flatMap (hunkLine reverse)

structure EmittedLine where
  marker : UInt8
  text : Bytes
  deriving DecidableEq, Repr

def backslash : UInt8 := 92

/-- The loop over the hunk's lines. A selection shorter than the hunk selects
nothing past its end; a marker stays only behind a line that was emitted. -/
def selectLines (unstaging : Bool) : Bool → List DiffLine → List Bool → List EmittedLine
  | _, [], _ => []
  | previousLineEmitted, line :: lines, selected =>
    let isSelected := selected.headD false
    match line.kind with
    | .context => ⟨space, line.text⟩ :: selectLines unstaging true lines selected.tail
    | .added =>
      if isSelected then ⟨plus, line.text⟩ :: selectLines unstaging true lines selected.tail
      else if unstaging then ⟨space, line.text⟩ :: selectLines unstaging true lines selected.tail
      else selectLines unstaging false lines selected.tail
    | .removed =>
      if isSelected then ⟨minus, line.text⟩ :: selectLines unstaging true lines selected.tail
      else if unstaging then selectLines unstaging false lines selected.tail
      else ⟨space, line.text⟩ :: selectLines unstaging true lines selected.tail
    | .noNewlineMarker =>
      if previousLineEmitted then
        ⟨backslash, line.text⟩ :: selectLines unstaging previousLineEmitted lines selected.tail
      else selectLines unstaging previousLineEmitted lines selected.tail

def EmittedLine.changes (emitted : EmittedLine) : Bool :=
  emitted.marker == plus || emitted.marker == minus

def EmittedLine.onOldSide (emitted : EmittedLine) : Bool :=
  emitted.marker == space || emitted.marker == minus

def EmittedLine.onNewSide (emitted : EmittedLine) : Bool :=
  emitted.marker == space || emitted.marker == plus

def EmittedLine.bytes (emitted : EmittedLine) : Bytes :=
  if emitted.marker = backslash then noNewlineText ++ [LF]
  else emitted.marker :: emitted.text ++ [LF]

/-- Empty when the selection holds no changed line. The counts are those of the
lines actually emitted. -/
def buildLineSelectionPatch (file : DiffFile) (hunk : DiffHunk) (selected : List Bool)
    (unstaging : Bool) : Bytes :=
  let body := selectLines unstaging false hunk.lines selected
  if !body.any EmittedLine.changes then []
  else
    patchHeaderOf file unstaging ++
      hunkRanges hunk.oldStart (countLines EmittedLine.onOldSide body)
        hunk.newStart (countLines EmittedLine.onNewSide body) ++
      body.flatMap EmittedLine.bytes

theorem countLines_eq {α : Type} (p : α → Bool) (lines : List α) :
    countLines p lines = UInt32.ofNat (lines.countP p) := by
  have hFold : ∀ (lines : List α) (count : UInt32),
      lines.foldl (fun count line => if p line then count + 1 else count) count =
        count + UInt32.ofNat (lines.countP p) := by
    intro lines
    induction lines with
    | nil => intro count; simp
    | cons line lines ih =>
      intro count
      rw [List.foldl_cons, ih]
      by_cases hp : p line = true
      · simp only [hp, if_true, List.countP_cons_of_pos, UInt32.ofNat_add]
        rw [UInt32.add_assoc, UInt32.add_comm 1]
        rfl
      · simp only [hp, if_false, Bool.false_eq_true, List.countP_cons_of_neg, not_false_eq_true]
  rw [countLines, hFold, UInt32.zero_add]

end UnifiedDiffParser

end GitBranchManager
