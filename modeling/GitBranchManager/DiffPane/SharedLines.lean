import GitBranchManager.DiffPane.PaintedRows

/-! # An index line that both sides show

What a side changes, holds in its cards and shows outside of them never meets the other side's
cards: the barriers keep the cards apart.
-/

namespace GitBranchManager.DiffPane

open Library

/-- The two working-copy diffs of a file, in either order. -/
structure MergedPair (side other : DiffSide) : Prop where
  directions : side.staged ≠ other.staged
  side : WellNumbered side.hunks
  other : WellNumbered other.hunks

theorem MergedPair.symm {side other : DiffSide} (h : MergedPair side other) : MergedPair other side :=
  ⟨h.directions.symm, h.other, h.side⟩

theorem MergedPair.ranks {side other : DiffSide} (h : MergedPair side other) :
    indexRankOf side.staged ≠ indexRankOf other.staged := by
  have hDirections := h.directions
  revert hDirections
  cases side.staged <;> cases other.staged <;> simp [indexRankOf]

section Barriers

variable {hunk : DiffHunk} {staged : Bool}

theorem length_positionsFrom (n : Int) (lines : List DiffLine) :
    (positionsFrom staged n lines).length = lines.length := by
  induction lines generalizing n with
  | nil => rfl
  | cons line lines ih => rw [positionsFrom, List.length_cons, ih, List.length_cons]

theorem getElem?_positionsOf {l : Nat} (hl : l < hunk.lines.length) :
    (positionsOf hunk staged)[l]? = some (indexPositionOf hunk l staged) := by
  have hLength : l < (positionsOf hunk staged).length := by
    rwa [positionsOf, length_positionsFrom]
  simp only [indexPositionOf, if_pos hl, List.getD_eq_getElem?_getD,
    List.getElem?_eq_getElem hLength, Option.getD_some]

theorem mem_keysOfHunk {key : IndexKey} : key ∈ IndexBarriers.keysOfHunk staged hunk ↔
    ∃ l ∈ changedIndices hunk, key = keyAt hunk staged l := by
  simp only [IndexBarriers.keysOfHunk, List.mem_map, List.mem_filter, mem_changedIndices]
  constructor
  · rintro ⟨⟨line, position⟩, ⟨hMem, hChanged⟩, rfl⟩
    obtain ⟨l, hZip⟩ := List.getElem?_of_mem hMem
    obtain ⟨hLine, hPosition⟩ := List.getElem?_zip_eq_some.mp hZip
    have hl := (List.getElem?_eq_some_iff.mp hLine).1
    rw [getElem?_positionsOf hl] at hPosition
    obtain rfl := Option.some_inj.mp hPosition
    exact ⟨l, ⟨line, hLine, hChanged⟩, rfl⟩
  · rintro ⟨l, ⟨line, hLine, hChanged⟩, rfl⟩
    have hl := (List.getElem?_eq_some_iff.mp hLine).1
    refine ⟨(line, indexPositionOf hunk l staged), ⟨?_, hChanged⟩, rfl⟩
    exact List.mem_of_getElem? (List.getElem?_zip_eq_some.mpr ⟨hLine, getElem?_positionsOf hl⟩)

theorem keysOfSide_eq (side : DiffSide) : IndexBarriers.keysOfSide side =
    side.hunks.flatMap (IndexBarriers.keysOfHunk side.staged) := by
  rw [IndexBarriers.keysOfSide, DiffSide.hunks]
  cases side.file with
  | none => rfl
  | some file => cases hBinary : file.binary <;> simp [hBinary]

theorem mem_barriers {other : DiffSide} {key : IndexKey} :
    key ∈ (IndexBarriers.ofChanges [other]).keys ↔
      ∃ h l hunk line, RowAt other.hunks h l hunk line ∧ isChanged line.kind = true ∧
        key = keyAt hunk other.staged l := by
  rw [IndexBarriers.ofChanges, (Comparison.sort_perm compareIndexKeys _).mem_iff,
    List.flatMap_singleton, keysOfSide_eq]
  simp only [List.mem_flatMap, mem_keysOfHunk, mem_changedIndices]
  constructor
  · rintro ⟨hunk, hMem, l, ⟨line, hLine, hChanged⟩, rfl⟩
    obtain ⟨h, hHunk⟩ := List.getElem?_of_mem hMem
    exact ⟨h, l, hunk, line, ⟨hHunk, hLine⟩, hChanged, rfl⟩
  · rintro ⟨h, l, hunk, line, hRow, hChanged, rfl⟩
    exact ⟨hunk, hRow.mem.1, l, ⟨line, hRow.inHunk, hChanged⟩, rfl⟩

end Barriers

/-- The cards of a hunk, cut where the other side changes the file. -/
def cardsAgainst (maxGap : Int) (side other : DiffSide) (hunk : DiffHunk) : List DiffScope :=
  splitHunkIntoScopes hunk maxGap side.staged (IndexBarriers.ofChanges [other])

theorem inCards_of_changed_row {maxGap : Int} {side other : DiffSide} {h l : Nat} {hunk : DiffHunk}
    {line : DiffLine} (hRow : RowAt side.hunks h l hunk line) (hChanged : isChanged line.kind = true) :
    inCards (cardsAgainst maxGap side other hunk) l = true :=
  inCards_of_changed (mem_changedIndices.mpr ⟨line, hRow.inHunk, hChanged⟩)

theorem MergedPair.isCard {maxGap : Int} {side other : DiffSide} (h : MergedPair side other)
    {hunk : DiffHunk} {scope : DiffScope} (hScope : scope ∈ cardsAgainst maxGap side other hunk) :
    ∃ first last, IsCard hunk side.staged (IndexBarriers.ofChanges [other]) scope first last := by
  refine isCard_of_mem (IndexBarriers.pairwise_ofChanges _) (fun key hKey => ?_) hScope
  obtain ⟨_, _, _, _, _, _, rfl⟩ := mem_barriers.mp hKey
  exact h.ranks.symm

/-- A card around the index line `n`, by the keys of its first and last row. -/
structure Spans (side other : DiffSide) (n : Int) (low high : IndexKey) : Prop where
  change : low ∈ (IndexBarriers.ofChanges [side]).keys
  rank : low.rank = indexRankOf side.staged
  low_lt : ∀ rank, low < { line := n, offset := 0, rank }
  lt_high : ∀ rank, { line := n, offset := 0, rank } < high
  free : ∀ key ∈ (IndexBarriers.ofChanges [other]).keys, low < key → high < key

section Conflicts

variable {maxGap : Int} {side other : DiffSide} {h l : Nat} {hunk : DiffHunk} {line : DiffLine} {n : Int}

/-- A context row within a card has the card's changes on both of its sides. -/
theorem MergedPair.exists_spans (hPair : MergedPair side other) (hRow : RowAt side.hunks h l hunk line)
    (hContext : line.kind = .context) (hIn : inCards (cardsAgainst maxGap side other hunk) l = true) :
    ∃ low high, Spans side other (line.number side.staged) low high := by
  obtain ⟨scope, hScope, hl⟩ := inCards_iff.mp hIn
  obtain ⟨first, last, hCard⟩ := hPair.isCard hScope
  obtain ⟨firstLine, hFirst, hFirstChanged⟩ := mem_changedIndices.mp hCard.firstChanged
  obtain ⟨lastLine, hLast, hLastChanged⟩ := mem_changedIndices.mp hCard.lastChanged
  have hNotChanged {k : Nat} {row : DiffLine} (hLine : hunk.lines[k]? = some row)
      (hChanged : isChanged row.kind = true) : l ≠ k := by
    rintro rfl
    obtain rfl := Option.some_inj.mp (hRow.inHunk.symm.trans hLine)
    rw [hContext] at hChanged
    exact absurd hChanged (by decide)
  have hFirstNe := hNotChanged hFirst hFirstChanged
  have hLastNe := hNotChanged hLast hLastChanged
  rw [hCard.rows, List.mem_range'_1] at hl
  have hHunk := hRow.wellNumbered hPair.side side.staged
  have hNumber : 0 < line.number side.staged := hRow.number_pos_of_context hPair.side hContext
  refine ⟨keyAt hunk side.staged first, keyAt hunk side.staged last, ?_, rfl, ?_, ?_, hCard.free⟩
  · exact mem_barriers.mpr ⟨h, first, hunk, firstLine, ⟨hRow.inHunks, hFirst⟩, hFirstChanged, rfl⟩
  · exact fun rank => IndexKey.lt_of_position
      (hHunk.not_le_position_before hFirst hRow.inHunk hNumber (by omega)) _ rank
  · exact fun rank => IndexKey.lt_of_position
      (hHunk.not_position_le_after hRow.inHunk hLast hNumber (by omega)) rank _

theorem Spans.not_changed {low high : IndexKey} (hSpans : Spans side other n low high) {rank : Int} :
    { line := n, offset := 0, rank } ∉ (IndexBarriers.ofChanges [other]).keys := by
  intro hMem
  have hAfter := hSpans.free _ hMem (hSpans.low_lt rank)
  exact IndexKey.lt_irrefl _ (IndexKey.lt_trans (hSpans.lt_high rank) hAfter)

/-- Two cards of the two sides hold no index line in common. -/
theorem MergedPair.not_both_span (hPair : MergedPair side other) {low high low' high' : IndexKey}
    (hSpans : Spans side other n low high) (hSpans' : Spans other side n low' high') : False := by
  have hNot : ¬low < low' := fun hLess => by
    have hAfter := IndexKey.lt_trans (hSpans.free _ hSpans'.change hLess) (hSpans'.low_lt 0)
    exact IndexKey.lt_irrefl _ (IndexKey.lt_trans hAfter (hSpans.lt_high 0))
  have hNot' : ¬low' < low := fun hLess => by
    have hAfter := IndexKey.lt_trans (hSpans'.free _ hSpans.change hLess) (hSpans.low_lt 0)
    exact IndexKey.lt_irrefl _ (IndexKey.lt_trans hAfter (hSpans'.lt_high 0))
  have hRanks := hPair.ranks
  rw [← hSpans.rank, ← hSpans'.rank] at hRanks
  rw [IndexKey.lt_iff] at hNot hNot'
  omega

end Conflicts

section Lists

variable {side : DiffSide} {n : Int}

theorem mem_changedIndexLines : n ∈ changedIndexLines side.file side.staged ↔
    0 < n ∧ ∃ h l hunk line, RowAt side.hunks h l hunk line ∧ isChanged line.kind = true ∧
      line.number side.staged = n := by
  have hHunks : changedIndexLines side.file side.staged = side.hunks.flatMap fun hunk =>
      ((hunk.lines.filter fun line => isChanged line.kind).map (DiffLine.number side.staged)).filter
        (· > 0) := by
    unfold changedIndexLines DiffSide.hunks
    cases side.file with
    | none => rfl
    | some file => cases hBinary : file.binary <;> simp [hBinary]
  rw [hHunks]
  simp only [List.mem_flatMap, List.mem_filter, List.mem_map, decide_eq_true_eq, gt_iff_lt]
  constructor
  · rintro ⟨hunk, hHunk, ⟨line, ⟨hLine, hChanged⟩, rfl⟩, hPositive⟩
    obtain ⟨h, l, hRow⟩ := RowAt.of_mem hHunk hLine
    exact ⟨hPositive, h, l, hunk, line, hRow, hChanged, rfl⟩
  · rintro ⟨hPositive, h, l, hunk, line, hRow, hChanged, rfl⟩
    exact ⟨hunk, hRow.mem.1, ⟨line, ⟨hRow.mem.2, hChanged⟩, rfl⟩, hPositive⟩

theorem getD_map_hunks {β : Type} {f : DiffHunk → List β} {h : Nat} {hunk : DiffHunk}
    (hHunk : side.hunks[h]? = some hunk) : (side.hunks.map f).getD h [] = f hunk := by
  rw [List.getD_eq_getElem?_getD, List.getElem?_map, hHunk]
  rfl

theorem mem_contextIndexLines {scopesOf : DiffHunk → List DiffScope} {inside : Bool} :
    n ∈ contextIndexLines side (side.hunks.map scopesOf) inside ↔
      0 < n ∧ ∃ h l hunk line, RowAt side.hunks h l hunk line ∧ line.kind = .context ∧
        line.number side.staged = n ∧ inCards (scopesOf hunk) l = inside := by
  have hHunks (scopesByHunk : List (List DiffScope)) :
      contextIndexLines side scopesByHunk inside = side.hunks.zipIdx.flatMap fun entry =>
        (entry.1.lines.zipIdx.filter fun row => row.1.kind == .context &&
          row.1.number side.staged > 0 && inCards (scopesByHunk.getD entry.2 []) row.2 == inside).map
            fun row => row.1.number side.staged := by
    rw [contextIndexLines, DiffSide.hunks]
    cases side.file with
    | none => rfl
    | some file => cases hBinary : file.binary <;> simp [hBinary]
  rw [hHunks]
  simp only [List.mem_flatMap, List.mem_map, List.mem_filter, Prod.exists,
    List.mem_zipIdx_iff_getElem?, Bool.and_eq_true, beq_iff_eq, decide_eq_true_eq, gt_iff_lt]
  constructor
  · rintro ⟨hunk, h, hHunk, line, l, ⟨hLine, ⟨hContext, hPositive⟩, hInside⟩, rfl⟩
    rw [getD_map_hunks hHunk] at hInside
    exact ⟨hPositive, h, l, hunk, line, ⟨hHunk, hLine⟩, hContext, rfl, hInside⟩
  · rintro ⟨hPositive, h, l, hunk, line, hRow, hContext, rfl, hInside⟩
    rw [← getD_map_hunks (f := scopesOf) hRow.inHunks] at hInside
    exact ⟨hunk, h, hRow.inHunks, line, l, ⟨hRow.inHunk, ⟨hContext, hPositive⟩, hInside⟩, rfl⟩

end Lists

section Pair

variable (maxGap : Int) (side other : DiffSide)

/-- What `hiddenContextLines` collects of a side that stands against `other`. -/
def drawnAgainst : DrawnLines := drawnLines side (side.hunks.map (cardsAgainst maxGap side other))

/-- The other side draws the index line in place of a context row of this side. -/
def hidesLine (n : Int) : Bool :=
  (drawnAgainst maxGap other side).changed.contains n ||
    (drawnAgainst maxGap other side).card.contains n ||
      decide (indexRankOf side.staged > indexRankOf other.staged) &&
        (drawnAgainst maxGap other side).gap.contains n

def hiddenAgainst (hunk : DiffHunk) : List Nat :=
  (List.range hunk.lines.length).filter fun l =>
    !inCards (cardsAgainst maxGap side other hunk) l && hunk.lines[l]?.any fun line =>
      line.kind == .context && line.number side.staged > 0 &&
        hidesLine maxGap side other (line.number side.staged)

theorem scopesBySource_pair : scopesBySource maxGap [side, other] =
    [side.hunks.map (cardsAgainst maxGap side other),
      other.hunks.map (cardsAgainst maxGap other side)] := by
  have hBarriers : barriersFor [side, other] =
      [IndexBarriers.ofChanges [other], IndexBarriers.ofChanges [side]] := rfl
  have hSplit (side : DiffSide) (other : DiffSide) (file : DiffFile) (hFile : side.file = some file) :
      splitDiffFileIntoScopes file maxGap side.staged (IndexBarriers.ofChanges [other]) =
        side.hunks.map (cardsAgainst maxGap side other) := by
    rw [DiffSide.hunks, hFile]
    cases hBinary : file.binary <;> simp [splitDiffFileIntoScopes, hBinary, cardsAgainst]
  have hNone (side : DiffSide) (hFile : side.file = none) : side.hunks = [] := by
    rw [DiffSide.hunks, hFile]
  rw [scopesBySource, hBarriers]
  refine congrArg₂ (fun a b => [a, b]) ?_ ?_
  · dsimp only
    split
    next hFile => rw [hNone side hFile, List.map_nil]
    next file hFile => exact hSplit side other file hFile
  · dsimp only
    split
    next hFile => rw [hNone other hFile, List.map_nil]
    next file hFile => exact hSplit other side file hFile

variable {maxGap side other} in
theorem hiddenFor_eq {i : Nat} {sides : List DiffSide} {drawn : List DrawnLines}
    (hDraws : ∀ n, otherDraws sides drawn i (indexRankOf side.staged) n = hidesLine maxGap side other n) :
    hiddenFor i sides side (side.hunks.map (cardsAgainst maxGap side other)) drawn =
      side.hunks.map (hiddenAgainst maxGap side other) := by
  have hHunks (scopesByHunk : List (List DiffScope)) : hiddenFor i sides side scopesByHunk drawn =
      side.hunks.mapIdx fun h hunk => (List.range hunk.lines.length).filter fun l =>
        !inCards (scopesByHunk.getD h []) l && hunk.lines[l]?.any fun line =>
          line.kind == .context && line.number side.staged > 0 &&
            otherDraws sides drawn i (indexRankOf side.staged) (line.number side.staged) := by
    unfold hiddenFor DiffSide.hunks
    cases side.file with
    | none => rfl
    | some file => cases hBinary : file.binary <;> simp [hBinary]
  rw [hHunks]
  refine List.ext_getElem? fun h => ?_
  rw [List.getElem?_mapIdx, List.getElem?_map]
  cases hHunk : side.hunks[h]? with
  | none => rfl
  | some hunk =>
    rw [Option.map_some, Option.map_some, getD_map_hunks hHunk]
    simp only [hDraws]
    rfl

theorem hiddenContextLines_pair : hiddenContextLines [side, other] (scopesBySource maxGap [side, other]) =
    [side.hunks.map (hiddenAgainst maxGap side other),
      other.hunks.map (hiddenAgainst maxGap other side)] := by
  have hTwo : ¬[side, other].length < 2 := Nat.lt_irrefl 2
  rw [hiddenContextLines, if_neg hTwo, scopesBySource_pair]
  refine congrArg₂ (fun a b => [a, b]) (hiddenFor_eq fun n => ?_) (hiddenFor_eq fun n => ?_)
  · exact Bool.or_false _
  · exact Bool.or_false _

end Pair

end GitBranchManager.DiffPane
