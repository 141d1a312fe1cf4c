import Mathlib.Algebra.Order.Ring.Rat
import GitBranchManager.DiffPane.DiffBlockOrder

/-! # The lazily built diff list

The blocks of the pane become the items of a list that is built as it is scrolled, with the keys of all rows in
painted order, and tables that lead from a row to its item and back.
-/

namespace GitBranchManager.DiffPane

open Library

def colon : UInt8 := 58

def selectionRowKey (sourceIndex : Nat) (hunkIndex : Int) (lineIndex : Nat) : Bytes :=
  intText sourceIndex ++ colon :: (intText hunkIndex ++ colon :: intText lineIndex)

/-- Never a `selectionRowKey`, as it does not begin with a number. -/
def selectionFillRowKey (sourceIndex : Nat) (indexLine : Int) : Bytes :=
  ascii "f" ++ colon :: (intText sourceIndex ++ colon :: intText indexLine)

structure DiffListMetrics where
  rowExtent : ℚ
  headingExtent : ℚ
  cardChromeExtent : ℚ
  cardLeadExtent : ℚ
  gapChromeExtent : ℚ
  charsPerLine : Int

structure DiffListSync where
  segmentOfUnit : List Nat
  segmentCount : Nat
  spacerExtentOf : Nat → ℚ
  leadExtentOf : Nat → ℚ

inductive DiffListItem
  | leading (index : Nat)
  | heading (block : DiffBlock)
  | block (block : DiffBlock)
  | fill (row : DiffFillRow)
  | spacer (segment : Nat) (atStart : Bool)
  deriving DecidableEq, Repr

/-- `text.length`: the code units of a text, which is kept as UTF-8 here. -/
def textLength (text : Bytes) : Nat :=
  (text.countP fun b => b < 0x80 || 0xC0 ≤ b) + text.countP fun b => 0xF0 ≤ b

def rowExtentOf (metrics : DiffListMetrics) (line : DiffLine) : ℚ :=
  let chars := metrics.charsPerLine
  if chars ≤ 0 then metrics.rowExtent
  else
    let lines := (textLength line.text + chars - 1) / chars
    metrics.rowExtent * if lines < 1 then 1 else lines

/-- `sides[sourceIndex].file!.hunks[hunkIndex].lines`. -/
def linesOf (sides : List DiffSide) (block : DiffBlock) : Option (List DiffLine) := do
  let side ← sides[block.sourceIndex]?
  let file ← side.file
  if block.hunkIndex < 0 then none
  else
    let hunk ← file.hunks[block.hunkIndex.toNat]?
    some hunk.lines

def isCard (block : DiffBlock) : Bool :=
  match block.segment with
  | .scope _ => true
  | _ => false

/-- The lists of the factory, which grow together, and its counters. -/
structure DiffListBuild where
  items : List DiffListItem := []
  extents : List ℚ := []
  rowKeys : List Bytes := []
  itemRowStart : List Nat := []
  cardItems : List Nat := []
  changedRows : List Nat := []
  fillRunOffsets : List Nat := []
  segmentOfItem : List Nat := []
  leads : List (Option ℚ) := []
  segment : Nat := 0
  unit : Nat := 0
  lastSourceIndex : Option Nat := none
  lastHunkIndex : Option Int := none

namespace DiffListBuild

def add (b : DiffListBuild) (item : DiffListItem) (extent : ℚ) (lead : Option ℚ) : DiffListBuild :=
  { b with
    itemRowStart := b.itemRowStart ++ [b.rowKeys.length]
    items := b.items ++ [item]
    extents := b.extents ++ [extent]
    fillRunOffsets := b.fillRunOffsets ++ [0]
    segmentOfItem := b.segmentOfItem ++ [b.segment]
    leads := b.leads ++ [lead] }

/-- One turn of the loop of `padTo`. -/
def closeSegment (sync : DiffListSync) (b : DiffListBuild) : DiffListBuild :=
  let closed := b.add (.spacer b.segment false) (sync.spacerExtentOf b.segment) none
  let next := { closed with segment := closed.segment + 1 }
  if next.segment < sync.segmentCount then
    next.add (.spacer next.segment true) (sync.leadExtentOf next.segment) none
  else next

/-- The loop goes up by one segment each time. -/
def padTo (sync : Option DiffListSync) (next : Nat) (b : DiffListBuild) : DiffListBuild :=
  match sync with
  | none => b
  | some sync => (closeSegment sync)^[next - b.segment] b

def segmentOfNextUnit (sync : Option DiffListSync) (b : DiffListBuild) : Option (Nat × DiffListBuild) :=
  match sync with
  | none => some (0, b)
  | some sync => sync.segmentOfUnit[b.unit]?.map fun segment => (segment, { b with unit := b.unit + 1 })

def addFillRow (metrics : DiffListMetrics) (sync : Option DiffListSync) (b : DiffListBuild)
    (row : DiffFillRow × Nat) : Option DiffListBuild := do
  let (next, b) ← b.segmentOfNextUnit sync
  let b := (b.padTo sync next).add (.fill row.1) (rowExtentOf metrics row.1.line)
    (some (if row.2 = 0 then metrics.gapChromeExtent / 2 else 0))
  some
    { b with
      fillRunOffsets := b.fillRunOffsets.set (b.items.length - 1) row.2
      rowKeys := b.rowKeys ++ [selectionFillRowKey row.1.sourceIndex row.1.indexLine] }

def addHeading (metrics : DiffListMetrics) (headings : Bool) (block : DiffBlock) (b : DiffListBuild) : DiffListBuild :=
  if headings && (some block.sourceIndex != b.lastSourceIndex || some block.hunkIndex != b.lastHunkIndex) then
    { b with lastSourceIndex := some block.sourceIndex, lastHunkIndex := some block.hunkIndex }.add (.heading block)
      metrics.headingExtent none
  else b

/-- One row of a card or a gap, with the height of the rows so far. -/
def addRow (metrics : DiffListMetrics) (block : DiffBlock) (lines : List DiffLine) (state : DiffListBuild × ℚ)
    (lineIndex : Nat) : Option (DiffListBuild × ℚ) := do
  let (b, extent) := state
  let line ← lines[lineIndex]?
  some
    ({ b with
        changedRows :=
          if isCard block && line.kind != .context then b.changedRows ++ [b.rowKeys.length] else b.changedRows
        rowKeys := b.rowKeys ++ [selectionRowKey block.sourceIndex block.hunkIndex lineIndex] },
      extent + rowExtentOf metrics line)

def addCard (metrics : DiffListMetrics) (sides : List DiffSide) (block : DiffBlock) (b : DiffListBuild) :
    Option DiffListBuild := do
  let lines ← linesOf sides block
  let card := isCard block
  let item := b.items.length
  let b := if card then { b with cardItems := b.cardItems ++ [item] } else b
  let b := b.add (.block block) 0 (some (if card then metrics.cardLeadExtent else metrics.gapChromeExtent / 2))
  let (b, extent) ← block.segment.lineIndices.foldlM (addRow metrics block lines)
    (b, if card then metrics.cardChromeExtent else metrics.gapChromeExtent)
  some { b with extents := b.extents.set item extent }

/-- One turn of the loop over the blocks. -/
def addBlock (sides : List DiffSide) (headings : Bool) (metrics : DiffListMetrics) (sync : Option DiffListSync)
    (b : DiffListBuild) (block : DiffBlock) : Option DiffListBuild :=
  match block.segment with
  | .fill rows => rows.zipIdx.foldlM (addFillRow metrics sync) b
  | _ => do
    let (next, b) ← b.segmentOfNextUnit sync
    ((b.padTo sync next).addHeading metrics headings block).addCard metrics sides block

end DiffListBuild

structure DiffListModel where
  items : List DiffListItem
  rowKeys : List Bytes
  rowIndex : InsertionMap Bytes Nat
  itemRowStart : List Nat
  itemOfRows : List Nat
  cardItems : List Nat
  changedRows : List Nat
  offsets : List ℚ
  fillRunOffsets : List Nat
  segmentOfItem : List Nat
  leads : List (Option ℚ)

namespace DiffListModel

/-- What the factory makes of its lists once all blocks are in. -/
def ofBuild (b : DiffListBuild) : DiffListModel :=
  let itemRowStart := b.itemRowStart ++ [b.rowKeys.length]
  { items := b.items
    rowKeys := b.rowKeys
    rowIndex := b.rowKeys.zipIdx.foldl (fun index row => index.put row.1 row.2) .empty
    itemRowStart
    itemOfRows := (List.range b.items.length).foldl (fun itemOfRow i =>
        (List.range' (itemRowStart.getD i 0) (itemRowStart.getD (i + 1) 0 - itemRowStart.getD i 0)).foldl
          (fun itemOfRow r => itemOfRow.set r i) itemOfRow)
      (List.replicate b.rowKeys.length 0)
    cardItems := b.cardItems
    changedRows := b.changedRows
    offsets := (List.range b.items.length).foldl
      (fun offsets i => offsets.set (i + 1) (offsets.getD i 0 + b.extents.getD i 0))
      (List.replicate (b.items.length + 1) 0)
    fillRunOffsets := b.fillRunOffsets
    segmentOfItem := b.segmentOfItem
    leads := b.leads }

def addLeading (leadingExtents : List ℚ) : DiffListBuild :=
  leadingExtents.zipIdx.foldl (fun b leading => b.add (.leading leading.2) leading.1 none) {}

/-- `none` is an index out of range, or a block of a side with no file. -/
def fromBlocks (blocks : List DiffBlock) (sides : List DiffSide) (headings : Bool) (metrics : DiffListMetrics)
    (leadingExtents : List ℚ) (sync : Option DiffListSync) : Option DiffListModel := do
  let b ← blocks.foldlM (DiffListBuild.addBlock sides headings metrics sync) (addLeading leadingExtents)
  some (ofBuild (b.padTo sync ((sync.map DiffListSync.segmentCount).getD 0)))

variable (model : DiffListModel)

def rowIndexOf (key : Bytes) : Option Nat := model.rowIndex.get? key

def itemOfRow (row : Nat) : Option Nat := model.itemOfRows[row]?

def firstRowOf (item : Nat) : Option Nat := model.itemRowStart[item]?

def rowCountOf (item : Nat) : Option Nat := do
  let next ← model.itemRowStart[item + 1]?
  let first ← model.itemRowStart[item]?
  some (next - first)

end DiffListModel

end GitBranchManager.DiffPane
