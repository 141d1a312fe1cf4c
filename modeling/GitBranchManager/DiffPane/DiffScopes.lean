import GitBranchManager.Diff.UnifiedDiffParser
import GitBranchManager.Library.Scans

/-! # Scopes, segments and index positions of the diff pane

The pane draws the staged diff (HEAD to index) and the unstaged one (index to work tree) of a
file in one list. The index is the new side of the first and the old side of the second. Maps
from hunk index and sets of lines are lists here; what the list lacks is the empty entry.
-/

namespace GitBranchManager.DiffPane

open Library

structure DiffLine where
  kind : DiffLineKind
  oldLine : Int
  newLine : Int
  text : Bytes := []
  deriving DecidableEq, Repr

structure DiffHunk where
  oldStart : Int
  oldCount : Int
  newStart : Int
  newCount : Int
  lines : List DiffLine
  deriving DecidableEq, Repr

structure DiffFile where
  binary : Bool := false
  hunks : List DiffHunk := []
  deriving DecidableEq, Repr

/-- `staged ? line.newLine : line.oldLine`. -/
def DiffLine.number (staged : Bool) (line : DiffLine) : Int :=
  if staged then line.newLine else line.oldLine

def DiffHunk.start (staged : Bool) (hunk : DiffHunk) : Int :=
  if staged then hunk.newStart else hunk.oldStart

def isChanged (kind : DiffLineKind) : Bool := kind == .added || kind == .removed

structure DiffSide where
  file : Option DiffFile
  staged : Bool
  deriving DecidableEq, Repr

structure IndexPosition where
  line : Int
  offset : Int
  deriving DecidableEq, Repr

structure IndexKey where
  line : Int
  offset : Int
  rank : Int
  deriving DecidableEq, Repr

def indexRankOf (staged : Bool) : Int := if staged then 1 else 0

def compareIndexPositions (a b : IndexPosition) : Ordering :=
  (compare a.line b.line).then (compare a.offset b.offset)

def compareIndexKeys (a b : IndexKey) : Ordering :=
  (compare a.line b.line).then ((compare a.offset b.offset).then (compare a.rank b.rank))

def IndexPosition.key (position : IndexPosition) (rank : Int) : IndexKey where
  line := position.line
  offset := position.offset
  rank := rank

/-- The walk of `_positionsOf`; `line` is the last index line passed. -/
def positionsFrom (staged : Bool) (line : Int) : List DiffLine → List IndexPosition
  | [] => []
  | element :: lines =>
    let own := element.number staged
    let line := if own > 0 then own else line
    { line, offset := if own > 0 then 0 else 1 } :: positionsFrom staged line lines

def positionsOf (hunk : DiffHunk) (staged : Bool) : List IndexPosition :=
  positionsFrom staged (hunk.start staged - 1) hunk.lines

def indexPositionOf (hunk : DiffHunk) (lineIndex : Nat) (staged : Bool) : IndexPosition :=
  let last := if lineIndex < hunk.lines.length then lineIndex else hunk.lines.length - 1
  (positionsOf hunk staged).getD last { line := hunk.start staged - 1, offset := 1 }

/-- The changes of the other sides, sorted by `compareIndexKeys`. -/
structure IndexBarriers where
  keys : List IndexKey := []
  deriving DecidableEq, Repr

namespace IndexBarriers

def keysOfHunk (staged : Bool) (hunk : DiffHunk) : List IndexKey :=
  ((hunk.lines.zip (positionsOf hunk staged)).filter fun row => isChanged row.1.kind).map fun row =>
    row.2.key (indexRankOf staged)

def keysOfSide (side : DiffSide) : List IndexKey :=
  match side.file with
  | none => []
  | some file => if file.binary then [] else file.hunks.flatMap (keysOfHunk side.staged)

def ofChanges (sides : List DiffSide) : IndexBarriers where
  keys := Comparison.sort compareIndexKeys (sides.flatMap keysOfSide)

/-- The loop of the binary search; it halves the range, so that the number of keys is enough
fuel. -/
def search (keys : List IndexKey) (low : IndexKey) : Nat → Nat → Nat → Nat
  | 0, lo, _ => lo
  | fuel + 1, lo, hi =>
    if lo < hi then
      let mid := (lo + hi) / 2
      match keys[mid]? with
      | some key =>
        if (compareIndexKeys key low).isLE then search keys low fuel (mid + 1) hi
        else search keys low fuel lo mid
      | none => lo
    else lo

def anyStrictlyBetween (barriers : IndexBarriers) (low high : IndexKey) : Bool :=
  let lo := search barriers.keys low barriers.keys.length 0 barriers.keys.length
  barriers.keys[lo]?.any fun key => (compareIndexKeys key high).isLT

end IndexBarriers

structure DiffScope where
  lineIndices : List Nat
  changedLineIndices : List Nat
  addedCount : Nat
  removedCount : Nat
  deriving DecidableEq, Repr

def kDefaultScopeGap : Int := 2

def scopeFrom (hunk : DiffHunk) (changedIndices : List Nat) : DiffScope :=
  let first := changedIndices.headD 0
  let last := changedIndices.getLastD 0
  let added := changedIndices.countP fun index => hunk.lines[index]?.any fun line => line.kind == .added
  { lineIndices := List.range' first (last + 1 - first)
    changedLineIndices := changedIndices
    addedCount := added
    removedCount := changedIndices.length - added }

/-- The loop over the changes: a change joins the last one of the open group or closes it. -/
def groupChanges (joins : Nat → Nat → Bool) (groups : List (List Nat)) (group : List Nat) :
    List Nat → List (List Nat)
  | [] => groups ++ [group]
  | index :: changed =>
    if joins (group.getLastD 0) index then groupChanges joins groups (group ++ [index]) changed
    else groupChanges joins (groups ++ [group]) [index] changed

def changedIndices (hunk : DiffHunk) : List Nat :=
  (List.range hunk.lines.length).filter fun i => hunk.lines[i]?.any fun line => isChanged line.kind

def joinsChange (hunk : DiffHunk) (maxGap : Int) (staged : Bool) (barriers : IndexBarriers)
    (last index : Nat) : Bool :=
  let keyOf (i : Nat) := (indexPositionOf hunk i staged).key (indexRankOf staged)
  let gap : Int := index - last - 1
  let blocked := !barriers.keys.isEmpty && barriers.anyStrictlyBetween (keyOf last) (keyOf index)
  decide (gap ≤ maxGap) && !blocked

def splitHunkIntoScopes (hunk : DiffHunk) (maxGap : Int) (staged : Bool) (barriers : IndexBarriers) :
    List DiffScope :=
  match changedIndices hunk with
  | [] => []
  | first :: changed =>
    (groupChanges (joinsChange hunk maxGap staged barriers) [] [first] changed).map (scopeFrom hunk)

def splitDiffFileIntoScopes (file : DiffFile) (maxGap : Int) (staged : Bool) (barriers : IndexBarriers) :
    List (List DiffScope) :=
  if file.binary then []
  else file.hunks.map fun hunk => splitHunkIntoScopes hunk maxGap staged barriers

/-- What `DiffBarrierMemo` remembers: for each side the changes of the others. -/
def barriersFor (sides : List DiffSide) : List IndexBarriers :=
  sides.mapIdx fun i _ => IndexBarriers.ofChanges (sides.eraseIdx i)

/-- What `_scopesBySource` asks of its caches. -/
def scopesBySource (maxGap : Int) (sides : List DiffSide) : List (List (List DiffScope)) :=
  (sides.zip (barriersFor sides)).map fun (side, barriers) =>
    match side.file with
    | none => []
    | some file => splitDiffFileIntoScopes file maxGap side.staged barriers

/-- An unchanged row of the full-file view, the source it is drawn from and its index line. -/
structure DiffFillRow where
  sourceIndex : Nat
  indexLine : Int
  line : DiffLine
  deriving DecidableEq, Repr

inductive DiffSegment
  | gap (lineIndices : List Nat)
  | scope (scope : DiffScope)
  | fill (rows : List DiffFillRow)
  deriving DecidableEq, Repr

def DiffSegment.lineIndices : DiffSegment → List Nat
  | .gap lineIndices => lineIndices
  | .scope card => card.lineIndices
  | .fill _ => []

def flushRun (run : List Nat) : List DiffSegment := if run.isEmpty then [] else [.gap run]

def gapRuns (hiddenLines : List Nat) (run : List Nat) : List Nat → List DiffSegment
  | [] => flushRun run
  | i :: rest =>
    if hiddenLines.contains i then flushRun run ++ gapRuns hiddenLines [] rest
    else gapRuns hiddenLines (run ++ [i]) rest

def gapUpTo (hiddenLines : List Nat) (cursor last : Nat) : List DiffSegment :=
  gapRuns hiddenLines [] (List.range' cursor (last - cursor))

def segmentsFrom (hunk : DiffHunk) (hiddenLines : List Nat) (cursor : Nat) :
    List DiffScope → List DiffSegment
  | [] => gapUpTo hiddenLines cursor hunk.lines.length
  | scope :: scopes =>
    gapUpTo hiddenLines cursor (scope.lineIndices.headD 0) ++ .scope scope ::
      segmentsFrom hunk hiddenLines (scope.lineIndices.getLastD 0 + 1) scopes

def hunkSegments (hunk : DiffHunk) (scopes : List DiffScope) (hiddenLines : List Nat) :
    List DiffSegment := segmentsFrom hunk hiddenLines 0 scopes

def changedIndexLines (file : Option DiffFile) (staged : Bool) : List Int :=
  match file with
  | none => []
  | some file =>
    if file.binary then []
    else file.hunks.flatMap fun hunk =>
      ((hunk.lines.filter fun line => isChanged line.kind).map (DiffLine.number staged)).filter (· > 0)

def inCards (scopes : List DiffScope) (line : Nat) : Bool :=
  scopes.any fun scope => scope.lineIndices.contains line

/-- The index lines of a side's context rows, inside its cards or outside of them. -/
def contextIndexLines (side : DiffSide) (scopesByHunk : List (List DiffScope)) (inside : Bool) :
    List Int :=
  match side.file with
  | none => []
  | some file =>
    if file.binary then []
    else file.hunks.zipIdx.flatMap fun (hunk, h) =>
      (hunk.lines.zipIdx.filter fun (line, l) => line.kind == .context && line.number side.staged > 0 &&
        inCards (scopesByHunk.getD h []) l == inside).map fun (line, _) => line.number side.staged

/-- What `hiddenContextLines` collects of a side. -/
structure DrawnLines where
  changed : List Int := []
  card : List Int := []
  gap : List Int := []
  deriving DecidableEq, Repr

def drawnLines (side : DiffSide) (scopesByHunk : List (List DiffScope)) : DrawnLines where
  changed := changedIndexLines side.file side.staged
  card := contextIndexLines side scopesByHunk true
  gap := contextIndexLines side scopesByHunk false

def otherDraws (sides : List DiffSide) (drawn : List DrawnLines) (i : Nat) (rank indexLine : Int) : Bool :=
  ((sides.zip drawn).eraseIdx i).any fun (side, other) =>
    other.changed.contains indexLine || other.card.contains indexLine ||
      decide (rank > indexRankOf side.staged) && other.gap.contains indexLine

def hiddenFor (i : Nat) (sides : List DiffSide) (side : DiffSide) (scopesByHunk : List (List DiffScope))
    (drawn : List DrawnLines) : List (List Nat) :=
  match side.file with
  | none => []
  | some file =>
    if file.binary then []
    else file.hunks.mapIdx fun h hunk =>
      (List.range hunk.lines.length).filter fun l =>
        !inCards (scopesByHunk.getD h []) l && hunk.lines[l]?.any fun line =>
          line.kind == .context && line.number side.staged > 0 &&
            otherDraws sides drawn i (indexRankOf side.staged) (line.number side.staged)

def hiddenContextLines (sides : List DiffSide) (scopesBySide : List (List (List DiffScope))) :
    List (List (List Nat)) :=
  if sides.length < 2 then sides.map fun _ => []
  else
    let drawn := (sides.zip scopesBySide).map fun (side, scopesByHunk) => drawnLines side scopesByHunk
    sides.mapIdx fun i side => hiddenFor i sides side (scopesBySide.getD i []) drawn

end GitBranchManager.DiffPane
