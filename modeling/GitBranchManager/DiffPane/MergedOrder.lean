import GitBranchManager.DiffPane.MergedRows

/-! # The merged staging view

The two working-copy diffs of a file in one list: each changed row in one card, each index line
once, in the order of the index.
-/

namespace GitBranchManager.DiffPane

open Library

/-- Fill rows stand at index lines that no hunk shows. -/
structure FillsBetween (first second : DiffSide) (rows : List DiffFillRow) : Prop where
  sorted : rows.Pairwise fun a b => a.indexLine < b.indexLine
  positive : ∀ row ∈ rows, 0 < row.indexLine
  notFirst : ∀ row ∈ rows, ¬first.Shows row.indexLine
  notSecond : ∀ row ∈ rows, ¬second.Shows row.indexLine

/-- A side of the pair, by its source index, and the other one. -/
inductive Seat (first second : DiffSide) : Nat → DiffSide → DiffSide → Prop
  | first : Seat first second 0 first second
  | second : Seat first second 1 second first

namespace Seat

variable {first second side other side' other' : DiffSide} {i j : Nat}

theorem pair (h : Seat first second i side other) (hPair : MergedPair first second) :
    MergedPair side other := by
  cases h with
  | first => exact hPair
  | second => exact hPair.symm

theorem own (h : Seat first second i side other) : [first, second][i]? = some side := by
  cases h <;> rfl

theorem of_getElem? (h : [first, second][i]? = some side) : ∃ other, Seat first second i side other := by
  rcases i with _ | _ | i
  · exact ⟨second, Option.some_inj.mp h ▸ .first⟩
  · exact ⟨first, Option.some_inj.mp h ▸ .second⟩
  · exact absurd h (by simp)

theorem notShown (h : Seat first second i side other) {rows : List DiffFillRow}
    (hFill : FillsBetween first second rows) {row : DiffFillRow} (hRow : row ∈ rows) :
    ¬side.Shows row.indexLine := by
  cases h with
  | first => exact hFill.notFirst row hRow
  | second => exact hFill.notSecond row hRow

theorem cases (h : Seat first second i side other) (h' : Seat first second j side' other') :
    (i = j ∧ side' = side ∧ other' = other) ∨ (i ≠ j ∧ side' = other ∧ other' = side) := by
  cases h <;> cases h' <;> simp

end Seat

section Blocks

variable {maxGap : Int} {first second : DiffSide} {fill : Option (List DiffFillRow)}

/-- The blocks of the pair before the sort. -/
abbrev unsortedPair (maxGap : Int) (first second : DiffSide) (fill : Option (List DiffFillRow)) :
    List DiffBlock :=
  unorderedBlocks [first, second] (scopesBySource maxGap [first, second]) fill

theorem unsortedPair_eq : unsortedPair maxGap first second fill =
      blocksAgainst maxGap first second 0 ++ blocksAgainst maxGap second first 1 ++
        (fill.getD []).map fillBlock := by
  rw [unsortedPair, unorderedBlocks, hiddenContextLines_pair, scopesBySource_pair]
  simp only [List.zipIdx_cons, List.zipIdx_nil, List.flatMap_cons, List.flatMap_nil, List.append_nil]
  rfl

theorem paintedRows_unsortedPair :
    paintedRows (unsortedPair maxGap first second fill) =
      rowsAgainst maxGap first second 0 ++ rowsAgainst maxGap second first 1 ++
        (fill.getD []).map PaintedRow.fill := by
  rw [unsortedPair_eq, ← paintedRows_blocksAgainst, ← paintedRows_blocksAgainst]
  simp only [paintedRows, List.flatMap_append, List.flatMap_map]
  congr 1
  exact List.map_eq_flatMap.symm

theorem block_cases (hPair : MergedPair first second) {block : DiffBlock}
    (h : block ∈ unsortedPair maxGap first second fill) :
    (∃ i side other, Seat first second i side other ∧
        block ∈ blocksAgainst maxGap side other i ∧ SideBlock maxGap side other i block) ∨
      ∃ row ∈ fill.getD [], block = fillBlock row := by
  rw [unsortedPair_eq, List.append_assoc] at h
  rcases List.mem_append.mp h with hFirst | hRest
  · exact .inl ⟨0, first, second, .first, hFirst, sideBlock_of_mem hPair hFirst⟩
  · rcases List.mem_append.mp hRest with hSecond | hFill
    · exact .inl ⟨1, second, first, .second, hSecond, sideBlock_of_mem hPair.symm hSecond⟩
    · obtain ⟨row, hRow, rfl⟩ := List.mem_map.mp hFill
      exact .inr ⟨row, hRow, rfl⟩

theorem pairwise_unsortedPair (maxGap : Int) (hFill : FillsBetween first second (fill.getD [])) :
    (paintedRows (unsortedPair maxGap first second fill)).Pairwise PaintedRow.Before :=
  pairwise_unorderedBlocks (laidIn_scopesBySource maxGap _) hFill.sorted

def sortedPair (maxGap : Int) (first second : DiffSide) (fill : Option (List DiffFillRow)) :
    List (DiffBlock × Nat) :=
  Comparison.sort (compareBlocks [first, second]) (unsortedPair maxGap first second fill).zipIdx

theorem orderedDiffBlocks_pair :
    orderedDiffBlocks [first, second] (scopesBySource maxGap [first, second]) fill =
      joinAdjacentGaps [] ((sortedPair maxGap first second fill).map Prod.fst) := by
  rw [orderedDiffBlocks, if_pos (.inl Nat.one_lt_two)]
  rfl

/-- The sort and the joining of gaps keep the rows, and those of the cards. -/
theorem perm_paintedRows :
    (paintedRows (orderedDiffBlocks [first, second] (scopesBySource maxGap [first, second]) fill)).Perm
        (paintedRows (unsortedPair maxGap first second fill)) ∧
      (cardRows (orderedDiffBlocks [first, second] (scopesBySource maxGap [first, second]) fill)).Perm
        (cardRows (unsortedPair maxGap first second fill)) := by
  refine ⟨perm_orderedDiffBlocks, ?_⟩
  rw [orderedDiffBlocks_pair, cardRows_joinAdjacentGaps]
  exact (perm_sortedBlocks _ _).flatMap_right _

theorem cardRows_sublist (blocks : List DiffBlock) :
    (cardRows blocks).Sublist (paintedRows blocks) := by
  induction blocks with
  | nil => exact List.Sublist.refl _
  | cons block blocks ih =>
    rw [cardRows, paintedRows, List.flatMap_cons, List.flatMap_cons]
    refine List.Sublist.append ?_ ih
    rw [DiffBlock.cardRows]
    split
    · exact List.Sublist.refl _
    · exact List.nil_sublist _

end Blocks

/-- Where a painted row stands on the index. -/
def PaintedRow.position (sides : List DiffSide) : PaintedRow → IndexPosition
  | .hunk i h l =>
    (sides[i]?.bind fun side =>
      side.hunks[h]?.map fun hunk => indexPositionOf hunk l side.staged).getD { line := 0, offset := 0 }
  | .fill row => { line := row.indexLine, offset := 0 }

def PaintedRow.isMarker (sides : List DiffSide) : PaintedRow → Bool
  | .hunk i h l => (sides[i]?.bind fun side => side.row? h l).any (·.kind == .noNewlineMarker)
  | .fill _ => false

theorem PaintedRow.position_hunk {sides : List DiffSide} {side : DiffSide} {i h l : Nat}
    {hunk : DiffHunk} {line : DiffLine} (hSide : sides[i]? = some side)
    (hRow : RowAt side.hunks h l hunk line) :
    (PaintedRow.hunk i h l).position sides = indexPositionOf hunk l side.staged := by
  simp only [PaintedRow.position, hSide, Option.bind_some, hRow.inHunks, Option.map_some,
    Option.getD_some]

section Order

variable {maxGap : Int} {first second side other : DiffSide} {fill : Option (List DiffFillRow)}

/-- The rows of a block and where they stand. -/
inductive BlockRow (maxGap : Int) (first second : DiffSide) (fill : List DiffFillRow)
    (block : DiffBlock) : PaintedRow → Prop
  | gap {i h l : Nat} {side other : DiffSide} {hunk : DiffHunk} {line : DiffLine}
      (seat : Seat first second i side other) (row : RowAt side.hunks h l hunk line)
      (outside : inCards (cardsAgainst maxGap side other hunk) l = false)
      (drawn : PaintedRow.hunk i h l ∈ rowsAgainst maxGap side other i)
      (source : block.sourceIndex = i)
      (position : block.position = indexPositionOf hunk l side.staged) :
      BlockRow maxGap first second fill block (.hunk i h l)
  | card {i h l start last : Nat} {side other : DiffSide} {hunk : DiffHunk} {line : DiffLine}
      {scope : DiffScope}
      (seat : Seat first second i side other) (row : RowAt side.hunks h l hunk line)
      (member : scope ∈ cardsAgainst maxGap side other hunk)
      (isCard : IsCard hunk side.staged (IndexBarriers.ofChanges [other]) scope start last)
      (inCard : start ≤ l ∧ l ≤ last) (head : PaintedRow.hunk i h start ∈ block.rows)
      (source : block.sourceIndex = i)
      (position : block.position = indexPositionOf hunk start side.staged) :
      BlockRow maxGap first second fill block (.hunk i h l)
  | fill {row : DiffFillRow} (mem : row ∈ fill) (only : block.rows = [.fill row])
      (position : block.position = { line := row.indexLine, offset := 0 }) :
      BlockRow maxGap first second fill block (.fill row)

theorem blockRow_of_mem (hPair : MergedPair first second) {block : DiffBlock}
    (hBlock : block ∈ unsortedPair maxGap first second fill)
    {row : PaintedRow} (hRow : row ∈ block.rows) :
    BlockRow maxGap first second (fill.getD []) block row := by
  rcases block_cases hPair hBlock with ⟨i, side, other, hSeat, hMem, hSide⟩ | ⟨filled, hFilled, rfl⟩
  · have hDrawn : row ∈ rowsAgainst maxGap side other i := by
      rw [← paintedRows_blocksAgainst]
      exact List.mem_flatMap.mpr ⟨block, hMem, hRow⟩
    cases hSide with
    | @gap h l hunk line rowAt outside =>
      obtain rfl : row = .hunk i h l := by simpa [DiffBlock.rows, DiffSegment.lineIndices] using hRow
      exact .gap hSeat rowAt outside hDrawn rfl rfl
    | @card h hunk scope start last inHunks member isCard =>
      obtain ⟨l, hl, rfl⟩ : ∃ l ∈ scope.lineIndices, PaintedRow.hunk i h l = row := by
        simpa [DiffBlock.rows, DiffSegment.lineIndices] using hRow
      obtain ⟨h', l', hunk', line, hRowAt, hEq, _⟩ := mem_sideRows.mp hDrawn
      obtain ⟨rfl, rfl⟩ : h = h' ∧ l = l' := by simpa using hEq
      obtain rfl := Option.some_inj.mp (inHunks.symm.trans hRowAt.inHunks)
      rw [isCard.rows, List.mem_range'_1] at hl
      have hOrder := isCard.order
      have hHead : start ∈ scope.lineIndices := by
        rw [isCard.rows, List.mem_range'_1]
        omega
      refine .card hSeat hRowAt member isCard (by omega) ?_ rfl rfl
      simpa [DiffBlock.rows, DiffSegment.lineIndices] using hHead
  · obtain rfl : row = .fill filled := by simpa [DiffBlock.rows, fillBlock] using hRow
    exact .fill hFilled rfl rfl

theorem compareBlocks_isLE {sides : List DiffSide} {a b : DiffBlock × Nat} :
    (compareBlocks sides a b).isLE = true ↔
      a.1.position.line < b.1.position.line ∨ a.1.position.line = b.1.position.line ∧
        (a.1.position.offset < b.1.position.offset ∨ a.1.position.offset = b.1.position.offset ∧
          (indexRankOf (stagedAt sides a.1.sourceIndex) < indexRankOf (stagedAt sides b.1.sourceIndex) ∨
            indexRankOf (stagedAt sides a.1.sourceIndex) =
              indexRankOf (stagedAt sides b.1.sourceIndex) ∧
              (a.1.sourceIndex < b.1.sourceIndex ∨
                a.1.sourceIndex = b.1.sourceIndex ∧ a.2 ≤ b.2))) := by
  rw [compareBlocks, compareIndexPositions, Ordering.then_assoc]
  simp only [Comparison.isLE_compare_then, Nat.isLE_compare]

theorem pairwise_sortedBlocks (sides : List DiffSide) (blocks : List (DiffBlock × Nat)) :
    (Comparison.sort (compareBlocks sides) blocks).Pairwise
      fun a b => (compareBlocks sides a b).isLE = true := by
  refine Comparison.pairwise_sort _ (fun a b => ?_) (fun a b c => ?_) blocks
  · rw [compareBlocks_isLE, compareBlocks_isLE]
    omega
  · rw [compareBlocks_isLE, compareBlocks_isLE, compareBlocks_isLE]
    omega

theorem position_le_of_isLE {sides : List DiffSide} {a b : DiffBlock × Nat}
    (h : (compareBlocks sides a b).isLE = true) : a.1.position ≤ b.1.position := by
  rw [compareBlocks_isLE] at h
  rw [IndexPosition.le_iff]
  omega

theorem Seat.stagedAt {i : Nat} (h : Seat first second i side other) :
    stagedAt [first, second] i = side.staged := by
  rw [DiffPane.stagedAt, h.own]
  rfl

namespace IsCard

variable {hunk : DiffHunk} {staged : Bool} {barriers : IndexBarriers} {scope : DiffScope}
  {start last : Nat} {hunks : List DiffHunk} {h l : Nat} {line : DiffLine}

theorem rowAt_first (hCard : IsCard hunk staged barriers scope start last)
    (hRow : RowAt hunks h l hunk line) :
    ∃ line, RowAt hunks h start hunk line ∧ isChanged line.kind = true := by
  obtain ⟨line, hLine, hChanged⟩ := mem_changedIndices.mp hCard.firstChanged
  exact ⟨line, ⟨hRow.inHunks, hLine⟩, hChanged⟩

theorem rowAt_last (hCard : IsCard hunk staged barriers scope start last)
    (hRow : RowAt hunks h l hunk line) :
    ∃ line, RowAt hunks h last hunk line ∧ isChanged line.kind = true := by
  obtain ⟨line, hLine, hChanged⟩ := mem_changedIndices.mp hCard.lastChanged
  exact ⟨line, ⟨hRow.inHunks, hLine⟩, hChanged⟩

end IsCard

theorem RowAt.position_le {hunks : List DiffHunk} {h l l' : Nat} {hunk : DiffHunk}
    {line line' : DiffLine} {staged : Bool} (row : RowAt hunks h l hunk line)
    (row' : RowAt hunks h l' hunk line') (hDiff : WellNumbered hunks) (hle : l ≤ l') :
    indexPositionOf hunk l staged ≤ indexPositionOf hunk l' staged :=
  (row.wellNumbered hDiff staged).position_mono row.inHunk row'.inHunk hle

/-- No row of a block stands before the block. -/
theorem BlockRow.position_le {block : DiffBlock} {row : PaintedRow} {rows : List DiffFillRow}
    (hPair : MergedPair first second) (h : BlockRow maxGap first second rows block row) :
    block.position ≤ row.position [first, second] := by
  cases h with
  | gap seat rowAt outside drawn source position =>
    rw [position, PaintedRow.position_hunk seat.own rowAt]
    exact IndexPosition.le_refl _
  | card seat rowAt member isCard inCard head source position =>
    obtain ⟨line, hFirst, _⟩ := isCard.rowAt_first rowAt
    rw [position, PaintedRow.position_hunk seat.own rowAt]
    exact hFirst.position_le rowAt (seat.pair hPair).side inCard.1
  | fill mem only position =>
    rw [position]
    exact IndexPosition.le_refl _

/-- A block of a hunk stands at its first row. -/
theorem BlockRow.exists_head {block : DiffBlock} {i h l : Nat} {rows : List DiffFillRow}
    (hRow : BlockRow maxGap first second rows block (.hunk i h l))
    (hMem : PaintedRow.hunk i h l ∈ block.rows) :
    block.sourceIndex = i ∧ ∃ side other h₀ l₀ hunk line, Seat first second i side other ∧
      RowAt side.hunks h₀ l₀ hunk line ∧ PaintedRow.hunk i h₀ l₀ ∈ block.rows ∧
        (PaintedRow.hunk i h₀ l₀).position [first, second] = block.position := by
  cases hRow with
  | gap seat rowAt outside drawn source position =>
    refine ⟨source, _, _, h, l, _, _, seat, rowAt, hMem, ?_⟩
    rw [position, PaintedRow.position_hunk seat.own rowAt]
  | @card i h l start last side other hunk line scope seat rowAt member isCard inCard head source
      position =>
    obtain ⟨row, hFirst, _⟩ := isCard.rowAt_first rowAt
    refine ⟨source, _, _, h, start, _, row, seat, hFirst, head, ?_⟩
    rw [position, PaintedRow.position_hunk seat.own hFirst]

/-- Rows of one side keep the order of their diff. -/
theorem PaintedRow.Before.position_le {i h l h' l' : Nat} {hunk hunk' : DiffHunk} {line line' : DiffLine}
    (hSeat : Seat first second i side other) (hPair : MergedPair first second)
    (hRow : RowAt side.hunks h l hunk line) (hRow' : RowAt side.hunks h' l' hunk' line')
    (hBefore : (PaintedRow.hunk i h l).Before (.hunk i h' l')) :
    (PaintedRow.hunk i h l).position [first, second] ≤
      (PaintedRow.hunk i h' l').position [first, second] := by
  rw [PaintedRow.position_hunk hSeat.own hRow, PaintedRow.position_hunk hSeat.own hRow']
  refine hRow.position_mono hRow' (hSeat.pair hPair).side ?_
  rcases hBefore with hSource | ⟨_, hBefore⟩
  · exact absurd hSource (lt_irrefl i)
  · exact hBefore

/-- An index line that a card steps over is drawn in the card. -/
theorem drawn_of_stepped_over {h l start last : Nat} {hunk : DiffHunk} {line : DiffLine}
    {scope : DiffScope} {n : Int} (hPair : MergedPair side other) (hRow : RowAt side.hunks h l hunk line)
    (hMember : scope ∈ cardsAgainst maxGap side other hunk)
    (hCard : IsCard hunk side.staged (IndexBarriers.ofChanges [other]) scope start last)
    (hIn : start ≤ l ∧ l ≤ last) (hn : 0 < n)
    (hLow : indexPositionOf hunk start side.staged ≤ { line := n, offset := 0 })
    (hHigh : ¬indexPositionOf hunk l side.staged ≤ { line := n, offset := 0 }) :
    side.Shows n ∧
      (n ∈ (drawnAgainst maxGap side other).changed ∨ n ∈ (drawnAgainst maxGap side other).card) := by
  obtain ⟨_, hFirst, _⟩ := hCard.rowAt_first hRow
  obtain ⟨m, row, hFrom, hTo, hLine, rfl⟩ :=
    (hRow.wellNumbered hPair.side side.staged).exists_number hFirst.inHunk hRow.inHunk hLow hHigh
  have hRowAt : RowAt side.hunks h m hunk row := ⟨hRow.inHunks, hLine⟩
  refine ⟨⟨h, m, row, DiffSide.row?_eq_some.mpr ⟨hunk, hRowAt⟩, rfl⟩, ?_⟩
  rcases hRowAt.context_or_changed hPair.side hn with hContext | hChanged
  · refine .inr (mem_contextIndexLines.mpr ⟨hn, h, m, hunk, row, hRowAt, hContext, rfl, ?_⟩)
    refine inCards_iff.mpr ⟨scope, hMember, ?_⟩
    rw [hCard.rows, List.mem_range'_1]
    omega
  · exact .inl (mem_changedIndexLines.mpr ⟨hn, h, m, hunk, row, hRowAt, hChanged, rfl⟩)

/-- A card that begins before a card of the other side ends before it. -/
theorem IsCard.position_le {h l h' l' start last start' last' : Nat} {hunk hunk' : DiffHunk}
    {line line' : DiffLine} {scope scope' : DiffScope} (hPair : MergedPair side other)
    (hRow : RowAt side.hunks h l hunk line) (hRow' : RowAt other.hunks h' l' hunk' line')
    (hCard : IsCard hunk side.staged (IndexBarriers.ofChanges [other]) scope start last)
    (hCard' : IsCard hunk' other.staged (IndexBarriers.ofChanges [side]) scope' start' last')
    (hIn : l ≤ last) (hBefore : keyAt hunk side.staged start < keyAt hunk' other.staged start') :
    indexPositionOf hunk l side.staged ≤ indexPositionOf hunk' start' other.staged := by
  obtain ⟨line'', hFirst', hChanged⟩ := hCard'.rowAt_first hRow'
  obtain ⟨_, hLast, _⟩ := hCard.rowAt_last hRow
  have hKey : keyAt hunk' other.staged start' ∈ (IndexBarriers.ofChanges [other]).keys :=
    mem_barriers.mpr ⟨h', start', hunk', line'', hFirst', hChanged, rfl⟩
  have hEnd := hCard.free _ hKey hBefore
  refine IndexPosition.le_trans (hRow.position_le hLast hPair.side hIn) ?_
  rw [IndexKey.lt_iff] at hEnd
  rw [IndexPosition.le_iff]
  simp only [keyAt, IndexPosition.key] at hEnd
  omega

/-- A card that begins before a context row of the other side ends before it: a line that it
stepped over would be hidden on the other side. -/
theorem IsCard.position_le_gap {h l h' l' j start last : Nat} {hunk hunk' : DiffHunk}
    {line line' : DiffLine} {scope : DiffScope} (hPair : MergedPair side other)
    (hRow : RowAt side.hunks h l hunk line) (hMember : scope ∈ cardsAgainst maxGap side other hunk)
    (hCard : IsCard hunk side.staged (IndexBarriers.ofChanges [other]) scope start last)
    (hIn : start ≤ l ∧ l ≤ last) (hRow' : RowAt other.hunks h' l' hunk' line')
    (hContext : line'.kind = .context)
    (hOutside : inCards (cardsAgainst maxGap other side hunk') l' = false)
    (hDrawn : PaintedRow.hunk j h' l' ∈ rowsAgainst maxGap other side j)
    (hBefore : indexPositionOf hunk start side.staged ≤ indexPositionOf hunk' l' other.staged) :
    indexPositionOf hunk l side.staged ≤ indexPositionOf hunk' l' other.staged := by
  by_contra hNot
  have hNumber : 0 < line'.number other.staged := hRow'.number_pos_of_context hPair.other hContext
  rw [hRow'.position_of_number hPair.other hNumber] at hBefore hNot
  obtain ⟨_, hShown⟩ := drawn_of_stepped_over hPair hRow hMember hCard hIn hNumber hBefore hNot
  have hHides : hidesLine maxGap other side (line'.number other.staged) = true :=
    hidesLine_iff.mpr (hShown.imp_right .inl)
  rcases (mem_rowsAgainst hRow' hPair.other).mp hDrawn with hInside | hOpen
  · exact absurd (hOutside.symm.trans hInside) Bool.false_ne_true
  · exact hOpen ⟨hContext, hHides⟩

variable {B D : DiffBlock} {p q : Nat}

theorem before_of_lt (hFill : FillsBetween first second (fill.getD []))
    (hB : (unsortedPair maxGap first second fill)[p]? = some B)
    (hD : (unsortedPair maxGap first second fill)[q]? = some D)
    (hLess : p < q) {x y : PaintedRow} (hx : x ∈ B.rows) (hy : y ∈ D.rows) : x.Before y := by
  have hPairwise := (List.pairwise_flatMap.mp (pairwise_unsortedPair maxGap hFill)).2
  obtain ⟨hp, rfl⟩ := List.getElem?_eq_some_iff.mp hB
  obtain ⟨hq, rfl⟩ := List.getElem?_eq_some_iff.mp hD
  exact List.pairwise_iff_getElem.mp hPairwise p q hp hq hLess x hx y hy

/-- Of two blocks of one side the earlier one is sorted first. -/
theorem index_lt_of_isLE (hPair : MergedPair first second)
    (hFill : FillsBetween first second (fill.getD []))
    (hB : (unsortedPair maxGap first second fill)[p]? = some B)
    (hD : (unsortedPair maxGap first second fill)[q]? = some D)
    (hne : p ≠ q) (hLE : (compareBlocks [first, second] (B, p) (D, q)).isLE = true)
    {i h l h' l' : Nat} (hx : BlockRow maxGap first second (fill.getD []) B (.hunk i h l))
    (hxMem : PaintedRow.hunk i h l ∈ B.rows)
    (hy : BlockRow maxGap first second (fill.getD []) D (.hunk i h' l'))
    (hyMem : PaintedRow.hunk i h' l' ∈ D.rows) : p < q := by
  refine Nat.lt_of_le_of_ne (Nat.le_of_not_lt fun hLess => ?_) hne
  obtain ⟨hBSource, side, other, _, _, _, _, hSeat, hRow, hxHead, hxPosition⟩ := hx.exists_head hxMem
  obtain ⟨hDSource, side', other', _, _, _, _, hSeat', hRow', hyHead, hyPosition⟩ := hy.exists_head hyMem
  obtain ⟨_, rfl, rfl⟩ := (hSeat.cases hSeat').resolve_right fun hOther => hOther.1 rfl
  have hPosition := (before_of_lt hFill hD hB hLess hyHead hxHead).position_le hSeat hPair hRow' hRow
  rw [hxPosition, hyPosition, IndexPosition.le_iff] at hPosition
  rw [compareBlocks_isLE, hBSource, hDSource] at hLE
  dsimp only at hLE
  omega

theorem context_of_gap {i h l : Nat} {hunk : DiffHunk} {line : DiffLine}
    (hSeat : Seat first second i side other) (hRow : RowAt side.hunks h l hunk line)
    (hOutside : inCards (cardsAgainst maxGap side other hunk) l = false)
    (hMarker : (PaintedRow.hunk i h l).isMarker [first, second] = false) : line.kind = .context := by
  have hNotChanged : isChanged line.kind ≠ true := fun hChanged => by
    exact absurd (hOutside.symm.trans (inCards_of_changed_row hRow hChanged)) Bool.false_ne_true
  rw [PaintedRow.isMarker, hSeat.own, Option.bind_some, DiffSide.row?_eq_some.mpr ⟨hunk, hRow⟩,
    Option.any_some] at hMarker
  revert hMarker hNotChanged
  cases line.kind <;> decide

/-- Sorting keeps every row behind the rows of the blocks before it. -/
theorem position_le_of_sorted (hPair : MergedPair first second)
    (hFill : FillsBetween first second (fill.getD []))
    (hB : (unsortedPair maxGap first second fill)[p]? = some B)
    (hD : (unsortedPair maxGap first second fill)[q]? = some D)
    (hne : p ≠ q) (hLE : (compareBlocks [first, second] (B, p) (D, q)).isLE = true)
    {x y : PaintedRow} (hx : x ∈ B.rows) (hy : y ∈ D.rows)
    (hMarker : y.isMarker [first, second] = false) :
    x.position [first, second] ≤ y.position [first, second] := by
  have hxRow := blockRow_of_mem hPair (List.mem_of_getElem? hB) hx
  have hyRow := blockRow_of_mem hPair (List.mem_of_getElem? hD) hy
  have hxBlock := hxRow
  have hyBlock := hyRow
  have hBD := position_le_of_isLE hLE
  have hOwn := hyRow.position_le hPair
  cases hxRow with
  | gap seat rowAt outside drawn source position =>
    rw [PaintedRow.position_hunk seat.own rowAt, ← position]
    exact IndexPosition.le_trans hBD hOwn
  | fill mem only position =>
    rw [position] at hBD
    exact IndexPosition.le_trans hBD hOwn
  | @card i h l start last side other hunk line scope seat rowAt member isCard inCard head source
      position =>
    have hSide := seat.pair hPair
    cases hyRow with
    | @fill row mem only' position' =>
      by_contra hNot
      rw [position, position'] at hBD
      rw [PaintedRow.position_hunk seat.own rowAt] at hNot
      obtain ⟨hShows, _⟩ :=
        drawn_of_stepped_over hSide rowAt member isCard inCard (hFill.positive row mem) hBD hNot
      exact seat.notShown hFill mem hShows
    | @gap i' h' l' side' other' hunk' line' seat' rowAt' outside drawn source' position' =>
      rcases seat.cases seat' with ⟨rfl, rfl, rfl⟩ | ⟨_, rfl, rfl⟩
      · have hLess := index_lt_of_isLE hPair hFill hB hD hne hLE hxBlock hx hyBlock hy
        exact (before_of_lt hFill hB hD hLess hx hy).position_le seat hPair rowAt rowAt'
      · have hContext := context_of_gap seat' rowAt' outside hMarker
        rw [position, position'] at hBD
        rw [PaintedRow.position_hunk seat.own rowAt, PaintedRow.position_hunk seat'.own rowAt']
        exact isCard.position_le_gap hSide rowAt member inCard rowAt' hContext outside drawn hBD
    | @card i' h' l' start' last' side' other' hunk' line' scope' seat' rowAt' member' isCard' inCard'
        head' source' position' =>
      rcases seat.cases seat' with ⟨rfl, rfl, rfl⟩ | ⟨_, rfl, rfl⟩
      · have hLess := index_lt_of_isLE hPair hFill hB hD hne hLE hxBlock hx hyBlock hy
        exact (before_of_lt hFill hB hD hLess hx hy).position_le seat hPair rowAt rowAt'
      · refine IndexPosition.le_trans ?_ hOwn
        rw [PaintedRow.position_hunk seat.own rowAt, position']
        refine isCard.position_le hSide rowAt rowAt' isCard' inCard.2 ?_
        have hRanks := hSide.ranks
        rw [compareBlocks_isLE] at hLE
        simp only [source, source', seat.stagedAt, seat'.stagedAt, position, position'] at hLE
        rw [IndexKey.lt_iff]
        simp only [keyAt, IndexPosition.key]
        omega

/-- The rows of a block go up the index. -/
theorem BlockRow.position_le_of_before {block : DiffBlock} {a b : PaintedRow} {rows : List DiffFillRow}
    (hPair : MergedPair first second) (ha : BlockRow maxGap first second rows block a)
    (hb : BlockRow maxGap first second rows block b) (hMem : a ∈ block.rows) (hBefore : a.Before b) :
    a.position [first, second] ≤ b.position [first, second] := by
  have hOwn := hb.position_le hPair
  cases ha with
  | gap seat rowAt outside drawn source position =>
    rw [PaintedRow.position_hunk seat.own rowAt, ← position]
    exact hOwn
  | fill mem only position =>
    rw [position] at hOwn
    exact hOwn
  | card seat rowAt member isCard inCard head source position =>
    cases hb with
    | gap seat' rowAt' outside' drawn' source' position' =>
      obtain rfl := source.symm.trans source'
      obtain ⟨_, rfl, rfl⟩ := (seat.cases seat').resolve_right fun hOther => hOther.1 rfl
      exact hBefore.position_le seat hPair rowAt rowAt'
    | card seat' rowAt' member' isCard' inCard' head' source' position' =>
      obtain rfl := source.symm.trans source'
      obtain ⟨_, rfl, rfl⟩ := (seat.cases seat').resolve_right fun hOther => hOther.1 rfl
      exact hBefore.position_le seat hPair rowAt rowAt'
    | fill mem only position' =>
      rw [only] at hMem
      exact absurd (List.mem_singleton.mp hMem) (by simp)

theorem getElem?_of_mem_sortedPair {entry : DiffBlock × Nat}
    (h : entry ∈ sortedPair maxGap first second fill) :
    (unsortedPair maxGap first second fill)[entry.2]? = some entry.1 :=
  List.mem_zipIdx_iff_getElem?.mp ((Comparison.sort_perm (compareBlocks [first, second]) _).mem_iff.mp h)

theorem pairwise_sortedPair : (sortedPair maxGap first second fill).Pairwise fun a b =>
    (compareBlocks [first, second] a b).isLE = true ∧ a.2 ≠ b.2 := by
  refine (pairwise_sortedBlocks _ _).and ?_
  have hIndices := (Comparison.sort_perm (compareBlocks [first, second])
    (unsortedPair maxGap first second fill).zipIdx).map Prod.snd
  rw [List.zipIdx_map_snd] at hIndices
  exact List.pairwise_map.mp (hIndices.nodup_iff.mpr List.nodup_range')

/-- The painted rows, the markers of a missing newline apart, go up the index. -/
theorem pairwise_paintedRows (hPair : MergedPair first second)
    (hFill : FillsBetween first second (fill.getD [])) :
    (paintedRows (orderedDiffBlocks [first, second] (scopesBySource maxGap [first, second])
      fill)).Pairwise fun a b => a.isMarker [first, second] = false →
        b.isMarker [first, second] = false →
          a.position [first, second] ≤ b.position [first, second] := by
  rw [orderedDiffBlocks_pair, paintedRows_joinAdjacentGaps, paintedRows, List.flatMap_map,
    List.pairwise_flatMap]
  constructor
  · intro entry hEntry
    have hBlock := List.mem_of_getElem? (getElem?_of_mem_sortedPair hEntry)
    have hRows := (List.pairwise_flatMap.mp (pairwise_unsortedPair maxGap hFill)).1 entry.1 hBlock
    refine hRows.imp_of_mem fun {a b} ha hb hBefore _ _ => ?_
    exact (blockRow_of_mem hPair hBlock ha).position_le_of_before hPair
      (blockRow_of_mem hPair hBlock hb) ha hBefore
  · refine pairwise_sortedPair.imp_of_mem ?_
    intro a b ha hb hSorted x hx y hy _ hMarker
    exact position_le_of_sorted hPair hFill (getElem?_of_mem_sortedPair ha)
      (getElem?_of_mem_sortedPair hb) hSorted.2 hSorted.1 hx hy hMarker

theorem pairwise_positions : (orderedDiffBlocks [first, second]
    (scopesBySource maxGap [first, second]) fill).Pairwise fun a b => a.position ≤ b.position := by
  rw [orderedDiffBlocks_pair]
  refine List.pairwise_map.mp
    (List.Pairwise.sublist (positions_joinAdjacentGaps [] _) (List.pairwise_map.mpr ?_))
  exact List.pairwise_map.mpr (pairwise_sortedPair.imp fun hSorted => position_le_of_isLE hSorted.1)

/-- A changed row is painted once, in a card. -/
theorem count_of_changed (hFill : FillsBetween first second (fill.getD [])) {i h l : Nat} {line : DiffLine}
    (hSide : [first, second][i]? = some side) (hRow : side.row? h l = some line)
    (hChanged : isChanged line.kind = true) :
    (cardRows (orderedDiffBlocks [first, second] (scopesBySource maxGap [first, second])
        fill)).count (.hunk i h l) = 1 ∧
      (paintedRows (orderedDiffBlocks [first, second] (scopesBySource maxGap [first, second])
        fill)).count (.hunk i h l) = 1 := by
  rw [perm_paintedRows.1.count_eq, perm_paintedRows.2.count_eq]
  have hNodup : (paintedRows (unsortedPair maxGap first second fill)).Nodup :=
    (pairwise_unsortedPair maxGap hFill).imp PaintedRow.Before.ne
  have hSublist := cardRows_sublist (unsortedPair maxGap first second fill)
  obtain ⟨hunk, hRowAt⟩ := DiffSide.row?_eq_some.mp hRow
  have hMem : PaintedRow.hunk i h l ∈ cardRows (unsortedPair maxGap first second fill) := by
    rw [unsortedPair_eq, cardRows, List.flatMap_append, List.flatMap_append]
    refine List.mem_append_left _ (List.mem_append.mpr ?_)
    obtain ⟨other, hSeat⟩ := Seat.of_getElem? hSide
    cases hSeat with
    | first =>
      exact .inl (mem_cardRows_blocksAgainst hRowAt (inCards_of_changed_row hRowAt hChanged))
    | second =>
      exact .inr (mem_cardRows_blocksAgainst hRowAt (inCards_of_changed_row hRowAt hChanged))
  exact ⟨List.count_eq_one_of_mem (hNodup.sublist hSublist) hMem,
    List.count_eq_one_of_mem hNodup (hSublist.subset hMem)⟩

theorem countP_paintedRows (p : PaintedRow → Bool) :
    (paintedRows (orderedDiffBlocks [first, second] (scopesBySource maxGap [first, second])
      fill)).countP p =
      (rowsAgainst maxGap first second 0 ++ rowsAgainst maxGap second first 1).countP p +
        ((fill.getD []).map PaintedRow.fill).countP p := by
  rw [perm_paintedRows.1.countP_eq, paintedRows_unsortedPair, List.countP_append]

end Order

/-- Every changed row is painted once and in a card, an index line that is shown once, or twice
where both sides change it, and the list goes up the index. -/
theorem merged_view_complete (maxGap : Int) (first second : DiffSide)
    (hPair : MergedPair first second) :
    let sides := [first, second]
    let blocks := orderedDiffBlocks sides (scopesBySource maxGap sides) none
    (∀ i side h l line, sides[i]? = some side → side.row? h l = some line →
      isChanged line.kind = true → (cardRows blocks).count (.hunk i h l) = 1 ∧
        (paintedRows blocks).count (.hunk i h l) = 1) ∧
    (∀ n, 0 < n → (∃ side ∈ sides, side.Shows n) →
      (paintedRows blocks).countP (fun row => row.indexLine sides == n) =
        if ∀ side ∈ sides, n ∈ changedIndexLines side.file side.staged then 2 else 1) ∧
    blocks.Pairwise (fun a b => a.position ≤ b.position) ∧
    (paintedRows blocks).Pairwise fun a b => a.isMarker sides = false → b.isMarker sides = false →
      a.position sides ≤ b.position sides := by
  have hFill : FillsBetween first second (none.getD []) :=
    ⟨List.Pairwise.nil, by simp, by simp, by simp⟩
  refine ⟨?_, ?_, pairwise_positions, pairwise_paintedRows hPair hFill⟩
  · exact fun i side h l line hSide hRow hChanged =>
      count_of_changed hFill hSide hRow hChanged
  · intro n hn hShows
    have hEither : first.Shows n ∨ second.Shows n := by simpa using hShows
    rw [countP_paintedRows, countP_pair hPair hn hEither]
    simp

/-- The second index line is staged and already changed again in the work tree. -/
theorem merged_view_complete_changed_twice : ∃ unstaged staged : DiffSide,
    MergedPair unstaged staged ∧
      (paintedRows (orderedDiffBlocks [unstaged, staged]
        (scopesBySource kDefaultScopeGap [unstaged, staged]) none)).countP
          (fun row => row.indexLine [unstaged, staged] == 2) = 2 := by
  have hTwice (unstaged staged : DiffSide) (hPair : MergedPair unstaged staged)
      (hShows : unstaged.Shows 2)
      (hBoth : ∀ side ∈ [unstaged, staged], 2 ∈ changedIndexLines side.file side.staged) :=
    And.intro hPair (((merged_view_complete kDefaultScopeGap unstaged staged hPair).2.1 2 (by decide)
      ⟨unstaged, List.mem_cons_self, hShows⟩).trans (if_pos hBoth))
  refine ⟨{
      file := some { hunks := [{
        oldStart := 1, oldCount := 2, newStart := 1, newCount := 2
        lines := [
          { kind := .context, oldLine := 1, newLine := 1 },
          { kind := .removed, oldLine := 2, newLine := 0 },
          { kind := .added, oldLine := 0, newLine := 2 }] }] }
      staged := false }, {
      file := some { hunks := [{
        oldStart := 1, oldCount := 1, newStart := 1, newCount := 2
        lines := [
          { kind := .context, oldLine := 1, newLine := 1 },
          { kind := .added, oldLine := 0, newLine := 2 }] }] }
      staged := true }, hTwice _ _ ?_ ⟨0, 1, _, rfl, rfl⟩ ?_⟩
  · exact ⟨by decide, by decide, by decide⟩
  · decide

end GitBranchManager.DiffPane
