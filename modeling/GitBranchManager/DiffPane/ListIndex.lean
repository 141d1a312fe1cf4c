import GitBranchManager.DiffPane.DiffListModel
import GitBranchManager.DiffPane.FullFileFill
import GitBranchManager.DiffPane.PaintedRows
import GitBranchManager.Library.Cuts

/-! # The diff list is an index of the diff

All tables of the list follow from its items. With the spacers of a synced column taken out the items are those
that are drawn without it.
-/

namespace GitBranchManager.DiffPane

open Library

/-! ## What an item draws -/

def isSpacer : DiffListItem → Bool
  | .spacer _ _ => true
  | _ => false

def isCardItem : DiffListItem → Bool
  | .block block => isCard block
  | _ => false

/-- A row of a card or a gap: its key, and whether it is a changed row of a card. -/
def rowOf (sides : List DiffSide) (block : DiffBlock) (l : Nat) : Bytes × Bool :=
  (selectionRowKey block.sourceIndex block.hunkIndex l,
    isCard block && ((linesOf sides block).bind fun lines => lines[l]?).any fun line => line.kind != .context)

def rowsOf (sides : List DiffSide) : DiffListItem → List (Bytes × Bool)
  | .block block => block.segment.lineIndices.map (rowOf sides block)
  | .fill row => [(selectionFillRowKey row.sourceIndex row.indexLine, false)]
  | _ => []

/-- The tables that the items alone decide. -/
structure Indexed (sides : List DiffSide) (b : DiffListBuild) : Prop where
  rowKeys : b.rowKeys = (b.items.flatMap (rowsOf sides)).map Prod.fst
  itemRowStart : b.itemRowStart = Cuts.starts (rowsOf sides) b.items
  cardItems : b.cardItems = Cuts.places isCardItem b.items
  changedRows : b.changedRows = Cuts.places Prod.snd (b.items.flatMap (rowsOf sides))

variable {sides : List DiffSide} {b b' : DiffListBuild}

theorem Indexed.length_rowKeys (h : Indexed sides b) : b.rowKeys.length = (b.items.flatMap (rowsOf sides)).length := by
  rw [h.rowKeys, List.length_map]

/-- An item that draws no row, and is no card. -/
theorem Indexed.add (h : Indexed sides b) {item : DiffListItem} (hRows : rowsOf sides item = [])
    (hCard : isCardItem item = false) (extent : ℚ) (lead : Option ℚ) : Indexed sides (b.add item extent lead) where
  rowKeys := by
    rw [DiffListBuild.add, List.flatMap_append, List.flatMap_singleton, hRows, List.append_nil]
    exact h.rowKeys
  itemRowStart := by
    rw [DiffListBuild.add, Cuts.starts_concat, ← h.itemRowStart, ← h.length_rowKeys]
  cardItems := by
    rw [DiffListBuild.add, Cuts.places_concat, hCard, if_neg Bool.false_ne_true, List.append_nil]
    exact h.cardItems
  changedRows := by
    rw [DiffListBuild.add, List.flatMap_append, List.flatMap_singleton, hRows, List.append_nil]
    exact h.changedRows

/-! ## Spacers -/

/-- What begins a segment: nothing in the first. -/
def opened (k : Nat) : List DiffListItem := if 0 < k then [.spacer k true] else []

/-- The spacers of all segments before this one. -/
def spacersBefore (segment : Nat) : List DiffListItem :=
  (List.range segment).flatMap fun k => opened k ++ [.spacer k false]

theorem spacersBefore_succ (segment : Nat) :
    spacersBefore (segment + 1) = spacersBefore segment ++ opened segment ++ [.spacer segment false] := by
  rw [spacersBefore, List.range_succ, List.flatMap_append, List.flatMap_singleton, List.append_assoc]
  rfl

def segmentCountOf (sync : Option DiffListSync) : Nat := (sync.map DiffListSync.segmentCount).getD 0

/-- The spacers so far: the segment that is open has begun, unless there are no more. -/
structure Spaced (sync : Option DiffListSync) (b : DiffListBuild) : Prop where
  spacers : b.items.filter isSpacer =
    spacersBefore b.segment ++ if b.segment < segmentCountOf sync then opened b.segment else []
  segment_le : b.segment ≤ segmentCountOf sync

/-- Where the factory is: what it has drawn, the hunk that it headed last, and how many units it has read. -/
structure Built (sides : List DiffSide) (sync : Option DiffListSync) (drawn : List DiffListItem)
    (last : Option (Nat × Int)) (units : Nat) (b : DiffListBuild) : Prop where
  indexed : Indexed sides b
  spaced : Spaced sync b
  drawn_eq : b.items.filter (fun item => !isSpacer item) = drawn
  lastSourceIndex : b.lastSourceIndex = last.map Prod.fst
  lastHunkIndex : b.lastHunkIndex = last.map Prod.snd
  unit_eq : sync.isSome = true → b.unit = units

section Steps

variable {sync : Option DiffListSync} {drawn : List DiffListItem} {last : Option (Nat × Int)} {units : Nat}

/-- An item that is drawn, whatever its rows. -/
theorem Built.append (h : Built sides sync drawn last units b) {item : DiffListItem} (hSpacer : isSpacer item = false)
    (hIndexed : Indexed sides b') (hItems : b'.items = b.items ++ [item]) (hSegment : b'.segment = b.segment)
    (hSource : b'.lastSourceIndex = b.lastSourceIndex) (hHunk : b'.lastHunkIndex = b.lastHunkIndex)
    (hUnit : b'.unit = b.unit) : Built sides sync (drawn ++ [item]) last units b' where
  indexed := hIndexed
  spaced := by
    refine ⟨?_, hSegment.symm ▸ h.spaced.segment_le⟩
    rw [hItems, List.filter_append, List.filter_singleton, hSpacer, hSegment, ← h.spaced.spacers]
    exact List.append_nil _
  drawn_eq := by
    rw [hItems, List.filter_append, List.filter_singleton, hSpacer, h.drawn_eq]
    rfl
  lastSourceIndex := hSource.trans h.lastSourceIndex
  lastHunkIndex := hHunk.trans h.lastHunkIndex
  unit_eq hSync := hUnit.trans (h.unit_eq hSync)

theorem filter_spacer_add (b : DiffListBuild) (segment : Nat) (atStart : Bool) (extent : ℚ) (lead : Option ℚ) :
    (b.add (.spacer segment atStart) extent lead).items.filter isSpacer =
        b.items.filter isSpacer ++ [.spacer segment atStart] ∧
      (b.add (.spacer segment atStart) extent lead).items.filter (fun item => !isSpacer item) =
        b.items.filter fun item => !isSpacer item := by
  rw [DiffListBuild.add, List.filter_append, List.filter_append]
  exact ⟨rfl, List.append_nil _⟩

/-- The open segment is closed, and the next one begun if there is one. -/
theorem Built.closeSegment {given : DiffListSync} (h : Built sides (some given) drawn last units b)
    (hSegment : b.segment < given.segmentCount) :
    Built sides (some given) drawn last units (b.closeSegment given) ∧
      (b.closeSegment given).segment = b.segment + 1 := by
  have hSpacers := h.spaced.spacers
  rw [segmentCountOf, Option.map_some, Option.getD_some, if_pos hSegment] at hSpacers
  obtain ⟨hClosed, hDrawn⟩ := filter_spacer_add b b.segment false (given.spacerExtentOf b.segment) none
  rw [hSpacers, ← spacersBefore_succ] at hClosed
  have hIndexed : Indexed sides (b.add (.spacer b.segment false) (given.spacerExtentOf b.segment) none) :=
    h.indexed.add rfl rfl _ _
  by_cases hMore : b.segment + 1 < given.segmentCount
  · have hEq : b.closeSegment given =
        { b.add (.spacer b.segment false) (given.spacerExtentOf b.segment) none with segment := b.segment + 1 }.add
          (.spacer (b.segment + 1) true) (given.leadExtentOf (b.segment + 1)) none := if_pos hMore
    obtain ⟨hOpened, hSame⟩ := filter_spacer_add
      { b.add (.spacer b.segment false) (given.spacerExtentOf b.segment) none with segment := b.segment + 1 }
      (b.segment + 1) true (given.leadExtentOf (b.segment + 1)) none
    rw [hEq]
    refine ⟨{ h with indexed := ?_, spaced := ⟨?_, hMore.le⟩, drawn_eq := hSame.trans (hDrawn.trans h.drawn_eq) }, rfl⟩
    · have hNext : Indexed sides
          { b.add (.spacer b.segment false) (given.spacerExtentOf b.segment) none with segment := b.segment + 1 } :=
        ⟨hIndexed.1, hIndexed.2, hIndexed.3, hIndexed.4⟩
      exact hNext.add rfl rfl _ _
    · refine hOpened.trans ((congrArg (· ++ _) hClosed).trans (congrArg (spacersBefore (b.segment + 1) ++ ·) ?_))
      exact (if_pos hMore).symm
  · have hEq : b.closeSegment given =
        { b.add (.spacer b.segment false) (given.spacerExtentOf b.segment) none with segment := b.segment + 1 } :=
      if_neg hMore
    rw [hEq]
    refine ⟨{ h with indexed := ?_, spaced := ⟨?_, hSegment⟩, drawn_eq := hDrawn.trans h.drawn_eq }, rfl⟩
    · exact ⟨hIndexed.1, hIndexed.2, hIndexed.3, hIndexed.4⟩
    · refine hClosed.trans ((List.append_nil _).symm.trans (congrArg (spacersBefore (b.segment + 1) ++ ·) ?_))
      exact (if_neg hMore).symm

theorem Built.padTo (h : Built sides sync drawn last units b) {next : Nat} (hNext : next ≤ segmentCountOf sync) :
    Built sides sync drawn last units (b.padTo sync next) ∧ (b.padTo sync next).segment = max b.segment next := by
  cases sync with
  | none =>
    obtain rfl := Nat.le_zero.mp hNext
    exact ⟨h, (Nat.max_zero _).symm⟩
  | some given =>
    rw [DiffListBuild.padTo]
    suffices hRounds : ∀ rounds, b.segment + rounds ≤ given.segmentCount →
        Built sides (some given) drawn last units ((DiffListBuild.closeSegment given)^[rounds] b) ∧
          ((DiffListBuild.closeSegment given)^[rounds] b).segment = b.segment + rounds by
      have hBound : b.segment ≤ given.segmentCount := h.spaced.segment_le
      change next ≤ given.segmentCount at hNext
      obtain ⟨hBuilt, hSegment⟩ := hRounds (next - b.segment) (by omega)
      exact ⟨hBuilt, hSegment.trans (by omega)⟩
    intro rounds
    induction rounds with
    | zero => exact fun _ => ⟨h, rfl⟩
    | succ rounds ih =>
      intro hRounds
      obtain ⟨hBuilt, hSegment⟩ := ih (by omega)
      rw [Function.iterate_succ_apply']
      obtain ⟨hNext, hMore⟩ := hBuilt.closeSegment (by omega)
      exact ⟨hNext, hMore.trans (by omega)⟩

/-- The segments of a partition of these units. -/
structure Partitions (sync : Option DiffListSync) (units : Nat) : Prop where
  length_eq : ∀ given ∈ sync, given.segmentOfUnit.length = units
  ascending : ∀ given ∈ sync, given.segmentOfUnit.Pairwise (· ≤ ·)
  below : ∀ given ∈ sync, ∀ k ∈ given.segmentOfUnit, k < given.segmentCount

/-- The next unit is there, and the column is padded up to its segment. -/
theorem Built.nextUnit (h : Built sides sync drawn last units b) {count : Nat} (hParts : Partitions sync count)
    (hUnits : units < count) :
    ∃ next read, b.segmentOfNextUnit sync = some (next, read) ∧
      Built sides sync drawn last (units + 1) (read.padTo sync next) := by
  cases sync with
  | none =>
    have hRead : Built sides none drawn last (units + 1) b := { h with unit_eq := nofun }
    exact ⟨0, b, rfl, (hRead.padTo (Nat.zero_le _)).1⟩
  | some given =>
    have hUnit : b.unit = units := h.unit_eq rfl
    have hLess : b.unit < given.segmentOfUnit.length := by
      rw [hUnit, hParts.length_eq given rfl]
      exact hUnits
    have hAt : given.segmentOfUnit[b.unit]? = some given.segmentOfUnit[b.unit] := List.getElem?_eq_getElem hLess
    have hRead : Built sides (some given) drawn last (units + 1) { b with unit := b.unit + 1 } :=
      { h with
        indexed := ⟨h.indexed.1, h.indexed.2, h.indexed.3, h.indexed.4⟩
        spaced := ⟨h.spaced.1, h.spaced.2⟩
        unit_eq := fun _ => congrArg (· + 1) hUnit }
    have hBelow := hParts.below given rfl _ (List.mem_of_getElem? hAt)
    refine ⟨_, _, ?_, (hRead.padTo hBelow.le).1⟩
    rw [DiffListBuild.segmentOfNextUnit, hAt]
    rfl

/-! ## Rows -/

variable (metrics : DiffListMetrics)

theorem Built.addFillRow (h : Built sides sync drawn last units b) {count : Nat} (hParts : Partitions sync count)
    (hUnits : units < count) (row : DiffFillRow × Nat) :
    ∃ next, b.addFillRow metrics sync row = some next ∧
      Built sides sync (drawn ++ [.fill row.1]) last (units + 1) next := by
  obtain ⟨segment, read, hRead, hPadded⟩ := h.nextUnit hParts hUnits
  rw [DiffListBuild.addFillRow, hRead]
  refine ⟨_, rfl, hPadded.append rfl ?_ rfl rfl rfl rfl rfl⟩
  have hIndexed := hPadded.indexed
  refine { rowKeys := ?_, itemRowStart := ?_, cardItems := ?_, changedRows := ?_ }
  · dsimp only [DiffListBuild.add]
    rw [List.flatMap_append, List.map_append, ← hIndexed.rowKeys]
    rfl
  · dsimp only [DiffListBuild.add]
    rw [Cuts.starts_concat, ← hIndexed.itemRowStart, ← hIndexed.length_rowKeys]
  · dsimp only [DiffListBuild.add]
    rw [Cuts.places_concat, ← hIndexed.cardItems]
    exact (List.append_nil _).symm
  · dsimp only [DiffListBuild.add]
    rw [List.flatMap_append, List.flatMap_singleton, rowsOf, Cuts.places_concat, ← hIndexed.changedRows]
    exact (List.append_nil _).symm

theorem Built.addFillRows {count : Nat} (hParts : Partitions sync count) (rows : List (DiffFillRow × Nat)) :
    ∀ {b : DiffListBuild} {drawn : List DiffListItem} {units : Nat}, Built sides sync drawn last units b →
      units + rows.length ≤ count →
        ∃ next, rows.foldlM (DiffListBuild.addFillRow metrics sync) b = some next ∧
          Built sides sync (drawn ++ (rows.map Prod.fst).map .fill) last (units + rows.length) next := by
  induction rows with
  | nil =>
    intro b drawn units h _
    rw [List.map_nil, List.map_nil, List.append_nil]
    exact ⟨b, rfl, h⟩
  | cons row rows ih =>
    intro b drawn units h hUnits
    rw [List.length_cons] at hUnits
    obtain ⟨next, hNext, hBuilt⟩ := h.addFillRow metrics hParts (by omega) row
    obtain ⟨done, hDone, hAll⟩ := ih hBuilt (by omega)
    refine ⟨done, ?_, ?_⟩
    · rw [List.foldlM_cons, hNext]
      exact hDone
    · have hCount : units + (rows.length + 1) = units + 1 + rows.length := by omega
      rw [List.map_cons, List.map_cons, List.append_cons, List.length_cons, hCount]
      exact hAll

/-- Whether a heading is drawn above this block. -/
def headed (headings : Bool) (last : Option (Nat × Int)) (block : DiffBlock) : Bool :=
  headings && last != some (block.sourceIndex, block.hunkIndex)

theorem Built.addHeading (h : Built sides sync drawn last units b) (headings : Bool) (block : DiffBlock) :
    Built sides sync (drawn ++ if headed headings last block then [.heading block] else [])
      (if headed headings last block then some (block.sourceIndex, block.hunkIndex) else last) units
      (b.addHeading metrics headings block) := by
  have hHeaded : (headings &&
      (some block.sourceIndex != b.lastSourceIndex || some block.hunkIndex != b.lastHunkIndex)) =
        headed headings last block := by
    rw [headed, h.lastSourceIndex, h.lastHunkIndex]
    cases last with
    | none => rfl
    | some last =>
      obtain ⟨source, hunk⟩ := last
      congr 1
      rw [Bool.eq_iff_iff]
      simp only [Option.map_some, Bool.or_eq_true, bne_iff_ne, ne_eq, Option.some.injEq, Prod.mk.injEq, not_and_or]
      exact or_congr (not_congr eq_comm) (not_congr eq_comm)
  rw [DiffListBuild.addHeading, hHeaded]
  split
  next =>
    have hNamed : Built sides sync drawn (some (block.sourceIndex, block.hunkIndex)) units
        { b with lastSourceIndex := some block.sourceIndex, lastHunkIndex := some block.hunkIndex } :=
      { h with
        indexed := ⟨h.indexed.1, h.indexed.2, h.indexed.3, h.indexed.4⟩
        spaced := ⟨h.spaced.1, h.spaced.2⟩
        lastSourceIndex := rfl
        lastHunkIndex := rfl }
    exact hNamed.append rfl (hNamed.indexed.add rfl rfl _ _) rfl rfl rfl rfl rfl
  next =>
    rw [List.append_nil]
    exact h

/-- The rows of a card or a gap are there. -/
def Drawable (sides : List DiffSide) (block : DiffBlock) : Prop :=
  ∃ lines, linesOf sides block = some lines ∧ ∀ l ∈ block.segment.lineIndices, l < lines.length

theorem foldlM_addRow {block : DiffBlock} {lines : List DiffLine} (hLines : linesOf sides block = some lines)
    (lineIndices : List Nat) : ∀ {b : DiffListBuild} (extent : ℚ) {rows : List (Bytes × Bool)},
      (∀ l ∈ lineIndices, l < lines.length) → b.rowKeys = rows.map Prod.fst →
        b.changedRows = Cuts.places Prod.snd rows → ∃ total,
          lineIndices.foldlM (DiffListBuild.addRow metrics block lines) (b, extent) =
          some ({ b with
            rowKeys := (rows ++ lineIndices.map (rowOf sides block)).map Prod.fst
            changedRows := Cuts.places Prod.snd (rows ++ lineIndices.map (rowOf sides block)) }, total) := by
  induction lineIndices with
  | nil =>
    intro b extent rows _ hKeys hChanged
    refine ⟨extent, ?_⟩
    rw [List.map_nil, List.append_nil, ← hKeys, ← hChanged]
    rfl
  | cons l lineIndices ih =>
    intro b extent rows hIn hKeys hChanged
    obtain ⟨line, hAt⟩ : ∃ line, lines[l]? = some line :=
      ⟨_, List.getElem?_eq_getElem (hIn l List.mem_cons_self)⟩
    have hRowOf : rowOf sides block l =
        (selectionRowKey block.sourceIndex block.hunkIndex l, isCard block && line.kind != .context) := by
      rw [rowOf, hLines, Option.bind_some, hAt, Option.any_some]
    have hRow : DiffListBuild.addRow metrics block lines (b, extent) l = some ({ b with
        changedRows :=
          if isCard block && line.kind != .context then b.changedRows ++ [b.rowKeys.length] else b.changedRows
        rowKeys := b.rowKeys ++ [selectionRowKey block.sourceIndex block.hunkIndex l] },
        extent + rowExtentOf metrics line) := by
      rw [DiffListBuild.addRow, hAt]
      rfl
    have hKeysNext : b.rowKeys ++ [selectionRowKey block.sourceIndex block.hunkIndex l] =
        (rows ++ [rowOf sides block l]).map Prod.fst := by
      rw [List.map_append, hKeys, hRowOf]
      rfl
    have hChangedNext :
        (if isCard block && line.kind != .context then b.changedRows ++ [b.rowKeys.length] else b.changedRows) =
          Cuts.places Prod.snd (rows ++ [rowOf sides block l]) := by
      rw [Cuts.places_concat, hRowOf, ← hChanged, hKeys, List.length_map]
      dsimp only
      split
      · rfl
      · exact (List.append_nil _).symm
    obtain ⟨total, hRest⟩ := ih
      (b := { b with
        changedRows :=
          if isCard block && line.kind != .context then b.changedRows ++ [b.rowKeys.length] else b.changedRows
        rowKeys := b.rowKeys ++ [selectionRowKey block.sourceIndex block.hunkIndex l] })
      (extent + rowExtentOf metrics line) (fun l' hMem => hIn l' (List.mem_cons_of_mem _ hMem)) hKeysNext hChangedNext
    refine ⟨total, ?_⟩
    rw [List.foldlM_cons, hRow, List.map_cons, List.append_cons rows]
    exact hRest

theorem Built.addCard (h : Built sides sync drawn last units b) {block : DiffBlock} (hDrawable : Drawable sides block) :
    ∃ next, b.addCard metrics sides block = some next ∧
      Built sides sync (drawn ++ [.block block]) last units next := by
  obtain ⟨lines, hLines, hIn⟩ := hDrawable
  have hIndexed := h.indexed
  -- the tables with the new item, before any of its rows
  let c : DiffListBuild :=
    (if isCard block then { b with cardItems := b.cardItems ++ [b.items.length] } else b).add (.block block) 0
      (some (if isCard block then metrics.cardLeadExtent else metrics.gapChromeExtent / 2))
  have hItems : c.items = b.items ++ [.block block] := by
    dsimp only [c]
    cases isCard block <;> rfl
  have hKeys : c.rowKeys = (b.items.flatMap (rowsOf sides)).map Prod.fst := by
    rw [← hIndexed.rowKeys]
    dsimp only [c]
    cases isCard block <;> rfl
  have hChanged : c.changedRows = Cuts.places Prod.snd (b.items.flatMap (rowsOf sides)) := by
    rw [← hIndexed.changedRows]
    dsimp only [c]
    cases isCard block <;> rfl
  have hStarts : c.itemRowStart = Cuts.starts (rowsOf sides) (b.items ++ [.block block]) := by
    rw [Cuts.starts_concat, ← hIndexed.itemRowStart, ← hIndexed.length_rowKeys]
    dsimp only [c]
    cases isCard block <;> rfl
  have hCards : c.cardItems = Cuts.places isCardItem (b.items ++ [.block block]) := by
    rw [Cuts.places_concat, ← hIndexed.cardItems, isCardItem]
    dsimp only [c]
    cases isCard block
    · exact (List.append_nil _).symm
    · rfl
  have hRest : c.segment = b.segment ∧ c.lastSourceIndex = b.lastSourceIndex ∧
      c.lastHunkIndex = b.lastHunkIndex ∧ c.unit = b.unit := by
    dsimp only [c]
    cases isCard block <;> exact ⟨rfl, rfl, rfl, rfl⟩
  obtain ⟨total, hFold⟩ := foldlM_addRow metrics hLines block.segment.lineIndices
    (if isCard block then metrics.cardChromeExtent else metrics.gapChromeExtent) hIn hKeys hChanged
  have hTables : Indexed sides { c with
      rowKeys := (b.items.flatMap (rowsOf sides) ++ block.segment.lineIndices.map (rowOf sides block)).map Prod.fst
      changedRows := Cuts.places Prod.snd
        (b.items.flatMap (rowsOf sides) ++ block.segment.lineIndices.map (rowOf sides block))
      extents := c.extents.set b.items.length total } := by
    refine { rowKeys := ?_, itemRowStart := ?_, cardItems := ?_, changedRows := ?_ }
    · rw [hItems, List.flatMap_append, List.flatMap_singleton]
      rfl
    · exact hItems ▸ hStarts
    · exact hItems ▸ hCards
    · rw [hItems, List.flatMap_append, List.flatMap_singleton]
      rfl
  refine ⟨_, ?_, h.append rfl hTables hItems hRest.1 hRest.2.1 hRest.2.2.1 hRest.2.2.2⟩
  rw [DiffListBuild.addCard, hLines, Option.bind_eq_bind, Option.bind_some]
  exact congrArg (Option.bind · _) hFold

/-! ## Blocks -/

/-- How many units a block is. -/
def unitsOf (block : DiffBlock) : Nat :=
  match block.segment with
  | .fill rows => rows.length
  | _ => 1

/-- What the list holds for a block, after the hunk that was headed last. -/
def drawnBlock (headings : Bool) (last : Option (Nat × Int)) (block : DiffBlock) : List DiffListItem :=
  match block.segment with
  | .fill rows => rows.map .fill
  | _ => (if headed headings last block then [.heading block] else []) ++ [.block block]

def headedAfter (headings : Bool) (last : Option (Nat × Int)) (block : DiffBlock) : Option (Nat × Int) :=
  match block.segment with
  | .fill _ => last
  | _ => if headed headings last block then some (block.sourceIndex, block.hunkIndex) else last

def drawnBlocks (headings : Bool) : Option (Nat × Int) → List DiffBlock → List DiffListItem
  | _, [] => []
  | last, block :: blocks =>
    drawnBlock headings last block ++ drawnBlocks headings (headedAfter headings last block) blocks

/-- A block that is a run of fill rows, or whose rows are there. -/
def Shown (sides : List DiffSide) (block : DiffBlock) : Prop :=
  (∃ rows, block.segment = .fill rows) ∨ Drawable sides block

omit metrics in
theorem Shown.drawable {block : DiffBlock} (h : Shown sides block) (hNotFill : ∀ rows, block.segment ≠ .fill rows) :
    Drawable sides block := by
  obtain ⟨rows, hFill⟩ | hDrawable := h
  · exact absurd hFill (hNotFill rows)
  · exact hDrawable

theorem Built.addBlock (h : Built sides sync drawn last units b) {count : Nat} (hParts : Partitions sync count)
    (headings : Bool) {block : DiffBlock} (hUnits : units + unitsOf block ≤ count) (hShown : Shown sides block) :
    ∃ next, b.addBlock sides headings metrics sync block = some next ∧
      Built sides sync (drawn ++ drawnBlock headings last block) (headedAfter headings last block)
        (units + unitsOf block) next := by
  have hCard (hOne : units + 1 ≤ count) (hDrawable : Drawable sides block) :
      ∃ next, (b.segmentOfNextUnit sync).bind (fun read =>
          ((read.2.padTo sync read.1).addHeading metrics headings block).addCard metrics sides block) = some next ∧
        Built sides sync (drawn ++ ((if headed headings last block then [.heading block] else []) ++ [.block block]))
          (if headed headings last block then some (block.sourceIndex, block.hunkIndex) else last)
          (units + 1) next := by
    obtain ⟨segment, read, hRead, hPadded⟩ := h.nextUnit hParts hOne
    obtain ⟨next, hNext, hBuilt⟩ := (hPadded.addHeading metrics headings block).addCard metrics hDrawable
    rw [hRead, ← List.append_assoc]
    exact ⟨next, hNext, hBuilt⟩
  rw [DiffListBuild.addBlock, drawnBlock, headedAfter, unitsOf]
  rw [unitsOf] at hUnits
  cases hSegment : block.segment with
  | fill rows =>
    rw [hSegment] at hUnits
    obtain ⟨next, hNext, hBuilt⟩ := h.addFillRows metrics hParts rows.zipIdx (by rw [List.length_zipIdx]; exact hUnits)
    rw [List.length_zipIdx, List.zipIdx_map_fst] at hBuilt
    exact ⟨next, hNext, hBuilt⟩
  | gap lineIndices =>
    rw [hSegment] at hUnits
    exact hCard hUnits (hShown.drawable (by rw [hSegment]; simp))
  | scope card =>
    rw [hSegment] at hUnits
    exact hCard hUnits (hShown.drawable (by rw [hSegment]; simp))

theorem Built.addBlocks {count : Nat} (hParts : Partitions sync count) (headings : Bool) (blocks : List DiffBlock) :
    ∀ {b : DiffListBuild} {drawn : List DiffListItem} {last : Option (Nat × Int)} {units : Nat},
      Built sides sync drawn last units b → units + (blocks.map unitsOf).sum ≤ count →
        (∀ block ∈ blocks, Shown sides block) →
          ∃ next last' units', blocks.foldlM (DiffListBuild.addBlock sides headings metrics sync) b = some next ∧
            Built sides sync (drawn ++ drawnBlocks headings last blocks) last' units' next := by
  induction blocks with
  | nil =>
    intro b drawn last units h _ _
    refine ⟨b, last, units, rfl, ?_⟩
    rw [drawnBlocks, List.append_nil]
    exact h
  | cons block blocks ih =>
    intro b drawn last units h hUnits hShown
    rw [List.map_cons, List.sum_cons] at hUnits
    obtain ⟨hBlock, hRest⟩ := List.forall_mem_cons.mp hShown
    obtain ⟨next, hNext, hBuilt⟩ := h.addBlock metrics hParts headings (by omega) hBlock
    obtain ⟨done, last', units', hDone, hAll⟩ := ih hBuilt (by omega) hRest
    refine ⟨done, last', units', ?_, ?_⟩
    · rw [List.foldlM_cons, hNext]
      exact hDone
    · rw [drawnBlocks, ← List.append_assoc]
      exact hAll

end Steps

end GitBranchManager.DiffPane
