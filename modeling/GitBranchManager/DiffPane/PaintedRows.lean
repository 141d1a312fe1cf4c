import GitBranchManager.DiffPane.DiffBlockOrder
import GitBranchManager.DiffPane.ScopeCards

/-! # The rows a list of blocks paints

The sort only permutes the rows and the joining of gaps only regroups them. Before the sort they
are listed by side, hunk and row.
-/

namespace GitBranchManager.DiffPane

open Library

inductive PaintedRow
  | hunk (sourceIndex hunkIndex lineIndex : Nat)
  | fill (row : DiffFillRow)
  deriving DecidableEq, Repr

def DiffBlock.rows (block : DiffBlock) : List PaintedRow :=
  match block.segment with
  | .fill rows => rows.map PaintedRow.fill
  | segment => segment.lineIndices.map (PaintedRow.hunk block.sourceIndex block.hunkIndex.toNat)

/-- The rows of a block that is a card. -/
def DiffBlock.cardRows (block : DiffBlock) : List PaintedRow :=
  match block.segment with
  | .scope _ => block.rows
  | _ => []

def paintedRows (blocks : List DiffBlock) : List PaintedRow := blocks.flatMap DiffBlock.rows

def cardRows (blocks : List DiffBlock) : List PaintedRow := blocks.flatMap DiffBlock.cardRows

section Joining

variable {last block joined : DiffBlock}

theorem joinBlocks?_spec (h : joinBlocks? last block = some joined) :
    joined.rows = last.rows ++ block.rows ∧ joined.cardRows = last.cardRows ++ block.cardRows ∧
      joined.position = last.position := by
  unfold joinBlocks? at h
  split at h
  next rows more hLast hBlock =>
    obtain rfl := Option.some_inj.mp h
    simp [DiffBlock.rows, DiffBlock.cardRows, hLast, hBlock]
  next lines more hLast hBlock =>
    split at h
    next hSame =>
      obtain rfl := Option.some_inj.mp h
      simp [DiffBlock.rows, DiffBlock.cardRows, hLast, hBlock, hSame.1, hSame.2,
        DiffSegment.lineIndices]
    next => exact absurd h (by simp)
  next => exact absurd h (by simp)

theorem joinAdjacentGaps_cons (out : List DiffBlock) (block : DiffBlock) (blocks : List DiffBlock) :
    joinAdjacentGaps out (block :: blocks) = joinAdjacentGaps (out ++ [block]) blocks ∨
      ∃ front last joined, out = front ++ [last] ∧ joinBlocks? last block = some joined ∧
        joinAdjacentGaps out (block :: blocks) = joinAdjacentGaps (front ++ [joined]) blocks := by
  rw [joinAdjacentGaps]
  cases out using List.reverseRecOn with
  | nil => exact .inl rfl
  | append_singleton front last _ =>
    rw [List.getLast?_concat, Option.bind_some, List.dropLast_concat]
    cases hJoined : joinBlocks? last block with
    | none => exact .inl rfl
    | some joined => exact .inr ⟨front, last, joined, rfl, hJoined, rfl⟩

/-- Whatever a joined block has of its two parts, the joined list has of the list. -/
theorem flatMap_joinAdjacentGaps {β : Type} {f : DiffBlock → List β}
    (hf : ∀ last block joined, joinBlocks? last block = some joined → f joined = f last ++ f block)
    (out blocks : List DiffBlock) :
    (joinAdjacentGaps out blocks).flatMap f = out.flatMap f ++ blocks.flatMap f := by
  induction blocks generalizing out with
  | nil => rw [joinAdjacentGaps, List.flatMap_nil, List.append_nil]
  | cons block blocks ih =>
    rcases joinAdjacentGaps_cons out block blocks with hApart | ⟨front, last, joined, rfl, hJoined, hEq⟩
    · rw [hApart, ih]
      simp
    · rw [hEq, ih]
      simp [hf last block joined hJoined]

theorem paintedRows_joinAdjacentGaps (blocks : List DiffBlock) :
    paintedRows (joinAdjacentGaps [] blocks) = paintedRows blocks :=
  flatMap_joinAdjacentGaps (fun _ _ _ h => (joinBlocks?_spec h).1) [] blocks

theorem cardRows_joinAdjacentGaps (blocks : List DiffBlock) :
    cardRows (joinAdjacentGaps [] blocks) = cardRows blocks :=
  flatMap_joinAdjacentGaps (fun _ _ _ h => (joinBlocks?_spec h).2.1) [] blocks

theorem positions_joinAdjacentGaps (out blocks : List DiffBlock) :
    ((joinAdjacentGaps out blocks).map DiffBlock.position).Sublist
      ((out ++ blocks).map DiffBlock.position) := by
  induction blocks generalizing out with
  | nil => rw [joinAdjacentGaps, List.append_nil]
  | cons block blocks ih =>
    rcases joinAdjacentGaps_cons out block blocks with hApart | ⟨front, last, joined, rfl, hJoined, hEq⟩
    · rw [hApart]
      have hRest := ih (out ++ [block])
      rwa [List.append_assoc, List.singleton_append] at hRest
    · rw [hEq]
      refine (ih (front ++ [joined])).trans ?_
      simp [(joinBlocks?_spec hJoined).2.2]

end Joining

/-- The order in which the unsorted blocks list their rows. -/
def PaintedRow.Before : PaintedRow → PaintedRow → Prop
  | .hunk i h l, .hunk i' h' l' => i < i' ∨ i = i' ∧ RowBefore h l h' l'
  | .hunk .., .fill _ => True
  | .fill _, .hunk .. => False
  | .fill row, .fill row' => row.indexLine < row'.indexLine

theorem PaintedRow.Before.ne {a b : PaintedRow} (h : a.Before b) : a ≠ b := by
  rintro rfl
  cases a with
  | hunk i j l => exact absurd h (by simp [PaintedRow.Before, RowBefore])
  | fill row => exact absurd h (lt_irrefl row.indexLine)

section Sides

variable {side : DiffSide} {i : Nat} {scopesByHunk : List (List DiffScope)} {hidden : List (List Nat)}

theorem sideBlocks_eq (merged : Bool) : sideBlocks merged side i scopesByHunk hidden =
    side.hunks.zipIdx.flatMap fun (hunk, h) =>
      (hunkSegments hunk (scopesByHunk.getD h []) (hidden.getD h [])).flatMap
        (segmentBlocks merged side.staged i h hunk) := by
  rw [sideBlocks, DiffSide.hunks]
  cases side.file with
  | none => rfl
  | some file => cases hBinary : file.binary <;> simp [hBinary]

def drawnInHunk (scopes : List DiffScope) (hiddenLines : List Nat) (l : Nat) : Bool :=
  inCards scopes l || !hiddenLines.contains l

def sideRows (side : DiffSide) (i : Nat) (scopesByHunk : List (List DiffScope))
    (hidden : List (List Nat)) : List PaintedRow :=
  side.hunks.zipIdx.flatMap fun (hunk, h) =>
    ((List.range hunk.lines.length).filter
      (drawnInHunk (scopesByHunk.getD h []) (hidden.getD h []))).map (PaintedRow.hunk i h)

theorem rows_segmentBlocks (merged : Bool) {hunk : DiffHunk} {h : Nat} {segment : DiffSegment} {staged : Bool}
    (hSegment : (∃ run, segment = .gap run) ∨ ∃ card, segment = .scope card) :
    (segmentBlocks merged staged i h hunk segment).flatMap DiffBlock.rows =
      segment.lineIndices.map (PaintedRow.hunk i h) := by
  cases merged with
  | false => rcases hSegment with ⟨run, rfl⟩ | ⟨card, rfl⟩ <;> exact List.flatMap_singleton _ _
  | true =>
    rcases hSegment with ⟨run, rfl⟩ | ⟨card, rfl⟩
    · simp only [segmentBlocks, DiffSegment.lineIndices, List.flatMap_map]
      exact List.map_eq_flatMap.symm
    · simp [segmentBlocks, DiffBlock.rows, DiffSegment.lineIndices]

theorem paintedRows_sideBlocks (merged : Bool) (hLaid : ∀ h hunk, side.hunks[h]? = some hunk →
      Laid hunk.lines.length 0 (scopesByHunk.getD h [])) :
    paintedRows (sideBlocks merged side i scopesByHunk hidden) = sideRows side i scopesByHunk hidden := by
  rw [paintedRows, sideBlocks_eq, List.flatMap_assoc, sideRows]
  refine List.flatMap_congr fun ⟨hunk, h⟩ hMem => ?_
  have hHunk : side.hunks[h]? = some hunk := List.mem_zipIdx_iff_getElem?.mp hMem
  have hSegments (segment) (hSegment : segment ∈ hunkSegments hunk (scopesByHunk.getD h []) (hidden.getD h [])) :
      (segmentBlocks merged side.staged i h hunk segment).flatMap DiffBlock.rows =
        segment.lineIndices.map (PaintedRow.hunk i h) :=
    rows_segmentBlocks merged ((segment_cases (hLaid h hunk hHunk) hSegment).imp
      (fun ⟨run, hRun, _⟩ => ⟨run, hRun⟩) fun ⟨card, _, hCard⟩ => ⟨card, hCard⟩)
  rw [List.flatMap_assoc, List.flatMap_congr hSegments, ← List.map_flatMap, hunkSegments,
    lines_segmentsFrom (hLaid h hunk hHunk), Nat.sub_zero, ← List.range_eq_range']
  rfl

theorem mem_sideRows {row : PaintedRow} : row ∈ sideRows side i scopesByHunk hidden ↔
    ∃ h l hunk line, RowAt side.hunks h l hunk line ∧ row = .hunk i h l ∧
      drawnInHunk (scopesByHunk.getD h []) (hidden.getD h []) l = true := by
  simp only [sideRows, List.mem_flatMap, List.mem_map, List.mem_filter, List.mem_range, Prod.exists,
    List.mem_zipIdx_iff_getElem?]
  constructor
  · rintro ⟨hunk, h, hHunk, l, ⟨hLength, hDrawn⟩, rfl⟩
    exact ⟨h, l, hunk, _, ⟨hHunk, List.getElem?_eq_getElem hLength⟩, rfl, hDrawn⟩
  · rintro ⟨h, l, hunk, line, hRow, rfl, hDrawn⟩
    have hLength := (List.getElem?_eq_some_iff.mp hRow.inHunk).1
    exact ⟨hunk, h, hRow.inHunks, l, ⟨hLength, hDrawn⟩, rfl⟩

theorem pairwise_sideRows : (sideRows side i scopesByHunk hidden).Pairwise PaintedRow.Before := by
  rw [sideRows, List.pairwise_flatMap]
  refine ⟨fun ⟨hunk, h⟩ _ => ?_, ?_⟩
  · rw [List.pairwise_map]
    refine (List.pairwise_lt_range.filter _).imp fun hLess => ?_
    exact .inr ⟨rfl, .inr ⟨rfl, hLess⟩⟩
  · rw [List.pairwise_iff_getElem]
    intro a b ha hb hLess x hx y hy
    simp only [List.getElem_zipIdx, List.mem_map] at hx hy
    obtain ⟨l, _, rfl⟩ := hx
    obtain ⟨l', _, rfl⟩ := hy
    exact .inr ⟨rfl, .inl (by omega)⟩

end Sides

section Lists

variable {sides : List DiffSide} {scopes : List (List (List DiffScope))} {fill : Option (List DiffFillRow)}

/-- The scopes of every hunk lie in it, one after another. -/
def LaidIn (sides : List DiffSide) (scopes : List (List (List DiffScope))) : Prop :=
  ∀ i side h hunk, sides[i]? = some side → side.hunks[h]? = some hunk →
    Laid hunk.lines.length 0 ((scopes.getD i []).getD h [])

/-- What `_scopesBySource` asks of its caches under these barriers, which in a column of its own are those of both
sides. -/
def scopesUnder (maxGap : Int) (barriers : List IndexBarriers) (sides : List DiffSide) : List (List (List DiffScope)) :=
  (sides.zip barriers).map fun (side, barriers) =>
    match side.file with
    | none => []
    | some file => splitDiffFileIntoScopes file maxGap side.staged barriers

theorem laidIn_scopesUnder (maxGap : Int) (barriers : List IndexBarriers) (sides : List DiffSide) :
    LaidIn sides (scopesUnder maxGap barriers sides) := by
  intro i side h hunk hSide hHunk
  rw [List.getD_eq_getElem?_getD (l := scopesUnder maxGap barriers sides), scopesUnder, List.getElem?_map]
  cases hPair : (sides.zip barriers)[i]? with
  | none => exact Nat.zero_le _
  | some pair =>
    obtain ⟨side', barriers'⟩ := pair
    obtain rfl := Option.some.inj (hSide.symm.trans (List.getElem?_zip_eq_some.mp hPair).1)
    rw [Option.map_some, Option.getD_some]
    dsimp only
    split
    next => exact Nat.zero_le _
    next file hFile =>
      have hScopes : splitDiffFileIntoScopes file maxGap side.staged barriers' =
          side.hunks.map fun hunk => splitHunkIntoScopes hunk maxGap side.staged barriers' := by
        rw [DiffSide.hunks, hFile]
        cases hBinary : file.binary <;> simp [splitDiffFileIntoScopes, hBinary]
      rw [hScopes, List.getD_eq_getElem?_getD, List.getElem?_map, hHunk]
      exact laid_split

theorem laidIn_scopesBySource (maxGap : Int) (sides : List DiffSide) : LaidIn sides (scopesBySource maxGap sides) :=
  laidIn_scopesUnder maxGap (barriersFor sides) sides

theorem paintedRows_unorderedBlocks (hLaid : LaidIn sides scopes) :
    paintedRows (unorderedBlocks sides scopes fill) =
      (sides.zipIdx.flatMap fun (side, i) =>
        sideRows side i (scopes.getD i []) ((hiddenContextLines sides scopes).getD i [])) ++
          (fill.getD []).map PaintedRow.fill := by
  rw [paintedRows, unorderedBlocks, List.flatMap_append, List.flatMap_assoc, List.flatMap_map]
  congr 1
  · refine List.flatMap_congr fun ⟨side, i⟩ hMem => ?_
    exact paintedRows_sideBlocks _ fun h hunk hHunk =>
      hLaid i side h hunk (List.mem_zipIdx_iff_getElem?.mp hMem) hHunk
  · exact List.map_eq_flatMap.symm

theorem pairwise_unorderedBlocks (hLaid : LaidIn sides scopes)
    (hFill : (fill.getD []).Pairwise fun a b => a.indexLine < b.indexLine) :
    (paintedRows (unorderedBlocks sides scopes fill)).Pairwise PaintedRow.Before := by
  rw [paintedRows_unorderedBlocks hLaid, List.pairwise_append]
  refine ⟨?_, ?_, ?_⟩
  · rw [List.pairwise_flatMap]
    refine ⟨fun _ _ => pairwise_sideRows, ?_⟩
    rw [List.pairwise_iff_getElem]
    intro i j hi hj hLess x hx y hy
    simp only [List.getElem_zipIdx, Nat.zero_add] at hx hy
    obtain ⟨_, _, _, _, _, rfl, _⟩ := mem_sideRows.mp hx
    obtain ⟨_, _, _, _, _, rfl, _⟩ := mem_sideRows.mp hy
    exact .inl hLess
  · rw [List.pairwise_map]
    exact hFill
  · intro a ha b hb
    obtain ⟨⟨side, i⟩, _, hRow⟩ := List.mem_flatMap.mp ha
    obtain ⟨_, _, _, _, _, rfl, _⟩ := mem_sideRows.mp hRow
    obtain ⟨row, _, rfl⟩ := List.mem_map.mp hb
    trivial

/-- The sort only moves the blocks. -/
theorem perm_sortedBlocks (sides : List DiffSide) (blocks : List DiffBlock) :
    ((Comparison.sort (compareBlocks sides) blocks.zipIdx).map Prod.fst).Perm blocks := by
  have hPerm := (Comparison.sort_perm (compareBlocks sides) blocks.zipIdx).map Prod.fst
  rwa [List.zipIdx_map_fst] at hPerm

theorem perm_orderedDiffBlocks :
    (paintedRows (orderedDiffBlocks sides scopes fill)).Perm (paintedRows (unorderedBlocks sides scopes fill)) := by
  rw [orderedDiffBlocks]
  split
  · rw [paintedRows_joinAdjacentGaps]
    exact (perm_sortedBlocks _ _).flatMap_right _
  · exact List.Perm.refl _

/-- What the joining of two blocks keeps holds of all joined blocks. -/
theorem forall_joinAdjacentGaps {P : DiffBlock → Prop}
    (hJoin : ∀ last block joined, joinBlocks? last block = some joined → P last → P block → P joined)
    (out blocks : List DiffBlock) (hOut : ∀ block ∈ out, P block) (hBlocks : ∀ block ∈ blocks, P block) :
    ∀ block ∈ joinAdjacentGaps out blocks, P block := by
  induction blocks generalizing out with
  | nil => exact hOut
  | cons block blocks ih =>
    obtain ⟨hBlock, hRest⟩ := List.forall_mem_cons.mp hBlocks
    rcases joinAdjacentGaps_cons out block blocks with hApart | ⟨front, last, joined, rfl, hJoined, hEq⟩
    · rw [hApart]
      exact ih _ (List.forall_mem_append.mpr ⟨hOut, List.forall_mem_singleton.mpr hBlock⟩) hRest
    · rw [hEq]
      obtain ⟨hFront, hLast⟩ := List.forall_mem_append.mp hOut
      have hBoth := hJoin last block joined hJoined (List.forall_mem_singleton.mp hLast) hBlock
      exact ih _ (List.forall_mem_append.mpr ⟨hFront, List.forall_mem_singleton.mpr hBoth⟩) hRest

theorem forall_orderedDiffBlocks {P : DiffBlock → Prop}
    (hJoin : ∀ last block joined, joinBlocks? last block = some joined → P last → P block → P joined)
    (hBlocks : ∀ block ∈ unorderedBlocks sides scopes fill, P block) :
    ∀ block ∈ orderedDiffBlocks sides scopes fill, P block := by
  rw [orderedDiffBlocks]
  split
  · refine forall_joinAdjacentGaps hJoin _ _ (List.forall_mem_nil _) fun block hMem => ?_
    exact hBlocks block ((perm_sortedBlocks _ _).mem_iff.mp hMem)
  · exact hBlocks

end Lists

end GitBranchManager.DiffPane
