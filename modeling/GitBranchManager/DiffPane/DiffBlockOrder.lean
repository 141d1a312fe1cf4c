import GitBranchManager.DiffPane.DiffScopes
import GitBranchManager.Library.InsertionMap
import GitBranchManager.Status.DiffFingerprints

/-! # The painted order of the diff pane, and its full-file fill -/

namespace GitBranchManager.DiffPane

open Library

/-- `hunkIndex` is -1 for a run of fill rows. -/
structure DiffBlock where
  sourceIndex : Nat
  hunkIndex : Int
  segment : DiffSegment
  position : IndexPosition
  deriving DecidableEq, Repr

/-- The blocks of a segment: in a merged list a context run is placed row by row. -/
def segmentBlocks (merged : Bool) (staged : Bool) (sourceIndex hunkIndex : Nat) (hunk : DiffHunk)
    (segment : DiffSegment) : List DiffBlock :=
  match merged, segment with
  | true, .gap lineIndices => lineIndices.map fun line =>
    { sourceIndex, hunkIndex, segment := .gap [line], position := indexPositionOf hunk line staged }
  | _, segment =>
    [{ sourceIndex
       hunkIndex
       segment
       position := match segment.lineIndices.head? with
         | none => { line := hunk.start staged, offset := 0 }
         | some first => indexPositionOf hunk first staged }]

def sideBlocks (merged : Bool) (side : DiffSide) (sourceIndex : Nat) (scopesByHunk : List (List DiffScope))
    (hidden : List (List Nat)) : List DiffBlock :=
  match side.file with
  | none => []
  | some file =>
    if file.binary then []
    else file.hunks.zipIdx.flatMap fun (hunk, h) =>
      (hunkSegments hunk (scopesByHunk.getD h []) (hidden.getD h [])).flatMap
        (segmentBlocks merged side.staged sourceIndex h hunk)

def fillBlock (row : DiffFillRow) : DiffBlock where
  sourceIndex := row.sourceIndex
  hunkIndex := -1
  segment := .fill [row]
  position := { line := row.indexLine, offset := 0 }

def stagedAt (sides : List DiffSide) (sourceIndex : Nat) : Bool :=
  (sides[sourceIndex]?.map DiffSide.staged).getD false

/-- The comparison of the sort; a block comes with its place in the unsorted list. -/
def compareBlocks (sides : List DiffSide) (a b : DiffBlock × Nat) : Ordering :=
  (compareIndexPositions a.1.position b.1.position).then
    ((compare (indexRankOf (stagedAt sides a.1.sourceIndex))
        (indexRankOf (stagedAt sides b.1.sourceIndex))).then
      ((compare a.1.sourceIndex b.1.sourceIndex).then (compare a.2 b.2)))

/-- What a block becomes when the one after it joins it. -/
def joinBlocks? (last block : DiffBlock) : Option DiffBlock :=
  match last.segment, block.segment with
  | .fill rows, .fill more => some { last with segment := .fill (rows ++ more) }
  | .gap lines, .gap more =>
    if block.sourceIndex = last.sourceIndex ∧ block.hunkIndex = last.hunkIndex then
      some { last with segment := .gap (lines ++ more) }
    else none
  | _, _ => none

def joinAdjacentGaps (out : List DiffBlock) : List DiffBlock → List DiffBlock
  | [] => out
  | block :: blocks =>
    match out.getLast?.bind fun last => joinBlocks? last block with
    | some joined => joinAdjacentGaps (out.dropLast ++ [joined]) blocks
    | none => joinAdjacentGaps (out ++ [block]) blocks

def unorderedBlocks (sides : List DiffSide) (scopesBySource : List (List (List DiffScope)))
    (fill : Option (List DiffFillRow)) : List DiffBlock :=
  let hidden := hiddenContextLines sides scopesBySource
  (sides.zipIdx.flatMap fun (side, i) =>
    sideBlocks (1 < sides.length) side i (scopesBySource.getD i []) (hidden.getD i [])) ++
    (fill.getD []).map fillBlock

def orderedDiffBlocks (sides : List DiffSide) (scopesBySource : List (List (List DiffScope)))
    (fill : Option (List DiffFillRow)) : List DiffBlock :=
  let blocks := unorderedBlocks sides scopesBySource fill
  if 1 < sides.length ∨ fill.isSome then
    joinAdjacentGaps [] ((Comparison.sort (compareBlocks sides) blocks.zipIdx).map Prod.fst)
  else blocks

/-- A source of the pane: its excerpt, its full-context diff and its direction. -/
structure DiffFillSource where
  excerpt : Option DiffFile
  full : Option DiffFile
  staged : Bool
  deriving DecidableEq, Repr

def indexLineOf (line : DiffLine) (staged : Bool) : Option Int :=
  let n := line.number staged
  if line.kind = .noNewlineMarker ∨ n = 0 then none else some n

/-- `line.kind.value`. -/
def kindValue : DiffLineKind → Nat
  | .context => 0
  | .added => 1
  | .removed => 2
  | .noNewlineMarker => 3

/-- A changed row as `_changes` prints it. -/
def changeText (line : DiffLine) : Bytes :=
  [bar].intercalate [intText (kindValue line.kind), intText line.oldLine, intText line.newLine, line.text]

def changesOf (file : DiffFile) : List Bytes :=
  file.hunks.flatMap fun hunk => (hunk.lines.filter fun line => isChanged line.kind).map changeText

def sameChanges (a b : DiffFile) : Bool := changesOf a == changesOf b

/-- What the scan of the sources holds: the index lines drawn, and for an index line the best
candidate so far: its source, its row, and whether that source is staged. -/
structure FillScan where
  drawn : List Int := []
  candidates : InsertionMap Int (Nat × DiffLine × Bool) := .empty

def offerCandidate (sourceIndex : Nat) (staged : Bool)
    (candidates : InsertionMap Int (Nat × DiffLine × Bool)) (line : DiffLine) :
    InsertionMap Int (Nat × DiffLine × Bool) :=
  if line.kind ≠ .context then candidates
  else match candidates.get? (line.number staged) with
    | none => candidates.put (line.number staged) (sourceIndex, line, staged)
    | some held =>
      if held.2.2 && !staged then candidates.put (line.number staged) (sourceIndex, line, staged)
      else candidates

/-- One turn of the loop over the sources; `none` refuses the fill. -/
def scanSource (scan : FillScan) (source : DiffFillSource) (sourceIndex : Nat) : Option FillScan :=
  match source.excerpt, source.full with
  | none, _ => some scan
  | some _, none => none
  | some excerpt, some full =>
    if excerpt.binary || full.binary then none
    else if !sameChanges excerpt full then none
    else some
      { drawn := scan.drawn ++ excerpt.hunks.flatMap fun hunk =>
          hunk.lines.filterMap fun line => indexLineOf line source.staged
        candidates := (full.hunks.flatMap DiffHunk.lines).foldl
          (offerCandidate sourceIndex source.staged) scan.candidates }

def fillRows (scan : FillScan) : List DiffFillRow :=
  let lines := Comparison.sort compare
    ((scan.candidates.entries.map Prod.fst).filter fun l => !scan.drawn.contains l)
  lines.filterMap fun l => (scan.candidates.get? l).map fun held =>
    { sourceIndex := held.1, indexLine := l, line := held.2.1 }

def fullFileFillRows (sources : List DiffFillSource) : Option (List DiffFillRow) :=
  (sources.zipIdx.foldlM (fun scan source => scanSource scan source.1 source.2) {}).map fillRows

end GitBranchManager.DiffPane
