import GitBranchManager.DiffPane.SharedLines

/-! # How often an index line is painted -/

namespace GitBranchManager.DiffPane

open Library

/-- The row of a hunk of the side, by hunk and line index. -/
def DiffSide.row? (side : DiffSide) (h l : Nat) : Option DiffLine :=
  side.hunks[h]?.bind fun hunk => hunk.lines[l]?

def DiffSide.Shows (side : DiffSide) (n : Int) : Prop :=
  ∃ h l line, side.row? h l = some line ∧ line.number side.staged = n

theorem DiffSide.row?_eq_some {side : DiffSide} {h l : Nat} {line : DiffLine} :
    side.row? h l = some line ↔ ∃ hunk, RowAt side.hunks h l hunk line := by
  rw [row?, Option.bind_eq_some_iff]
  exact exists_congr fun hunk => ⟨fun ⟨hHunk, hLine⟩ => ⟨hHunk, hLine⟩, fun hRow => ⟨hRow.1, hRow.2⟩⟩

/-- The index line a painted row stands for, 0 where it is none. -/
def PaintedRow.indexLine (sides : List DiffSide) : PaintedRow → Int
  | .hunk i h l =>
    (sides[i]?.bind fun side => (side.row? h l).map (DiffLine.number side.staged)).getD 0
  | .fill row => row.indexLine

theorem PaintedRow.indexLine_hunk {sides : List DiffSide} {side : DiffSide} {i h l : Nat}
    {hunk : DiffHunk} {line : DiffLine} (hSide : sides[i]? = some side)
    (hRow : RowAt side.hunks h l hunk line) :
    (PaintedRow.hunk i h l).indexLine sides = line.number side.staged := by
  simp only [PaintedRow.indexLine, hSide, Option.bind_some,
    DiffSide.row?_eq_some.mpr ⟨hunk, hRow⟩, Option.map_some, Option.getD_some]

theorem countP_eq_one {α : Type} {p : α → Bool} {rows : List α}
    (hOnce : rows.Pairwise fun a b => ¬(p a = true ∧ p b = true)) {a : α} (ha : a ∈ rows)
    (hp : p a = true) : rows.countP p = 1 := by
  induction rows with
  | nil => exact absurd ha List.not_mem_nil
  | cons first rows ih =>
    rw [List.pairwise_cons] at hOnce
    rw [List.countP_cons]
    rcases List.mem_cons.mp ha with rfl | hLater
    · rw [if_pos hp, List.countP_eq_zero.mpr fun b hb hpb => hOnce.1 b hb ⟨hp, hpb⟩]
    · rw [if_neg fun hFirst => hOnce.1 a hLater ⟨hFirst, hp⟩, ih hOnce.2 hLater]

/-- The rows a side paints against the other one. -/
def rowsAgainst (maxGap : Int) (side other : DiffSide) (i : Nat) : List PaintedRow :=
  sideRows side i (side.hunks.map (cardsAgainst maxGap side other))
    (side.hunks.map (hiddenAgainst maxGap side other))

section Side

variable {maxGap : Int} {side other : DiffSide} {i h l : Nat} {hunk : DiffHunk} {line : DiffLine}
  {n : Int}

theorem mem_hiddenAgainst (hRow : RowAt side.hunks h l hunk line) (hDiff : WellNumbered side.hunks) :
    l ∈ hiddenAgainst maxGap side other hunk ↔
      inCards (cardsAgainst maxGap side other hunk) l = false ∧ line.kind = .context ∧
        hidesLine maxGap side other (line.number side.staged) = true := by
  simp only [hiddenAgainst, List.mem_filter, List.mem_range, hRow.inHunk, Option.any_some,
    Bool.and_eq_true, Bool.not_eq_true', beq_iff_eq, decide_eq_true_eq, gt_iff_lt]
  constructor
  · rintro ⟨_, hOutside, ⟨hContext, _⟩, hHides⟩
    exact ⟨hOutside, hContext, hHides⟩
  · rintro ⟨hOutside, hContext, hHides⟩
    exact ⟨(List.getElem?_eq_some_iff.mp hRow.inHunk).1, hOutside,
      ⟨hContext, hRow.number_pos_of_context hDiff hContext⟩, hHides⟩

/-- A row is painted unless the other side draws it in its place. -/
theorem mem_rowsAgainst (hRow : RowAt side.hunks h l hunk line) (hDiff : WellNumbered side.hunks) :
    PaintedRow.hunk i h l ∈ rowsAgainst maxGap side other i ↔
      inCards (cardsAgainst maxGap side other hunk) l = true ∨
        ¬(line.kind = .context ∧ hidesLine maxGap side other (line.number side.staged) = true) := by
  have hDrawn :
      drawnInHunk ((side.hunks.map (cardsAgainst maxGap side other)).getD h [])
        ((side.hunks.map (hiddenAgainst maxGap side other)).getD h []) l =
        drawnInHunk (cardsAgainst maxGap side other hunk) (hiddenAgainst maxGap side other hunk) l := by
    rw [getD_map_hunks hRow.inHunks, getD_map_hunks hRow.inHunks]
  have hMem : PaintedRow.hunk i h l ∈ rowsAgainst maxGap side other i ↔
      drawnInHunk (cardsAgainst maxGap side other hunk) (hiddenAgainst maxGap side other hunk) l =
        true := by
    rw [rowsAgainst, mem_sideRows]
    constructor
    · rintro ⟨h', l', hunk', line', hRow', hEq, hDraws⟩
      obtain ⟨rfl, rfl⟩ : h = h' ∧ l = l' := by simpa using hEq
      rwa [hDrawn] at hDraws
    · exact fun hDraws => ⟨h, l, hunk, line, hRow, rfl, hDrawn.trans hDraws⟩
  rw [hMem, drawnInHunk, Bool.or_eq_true, Bool.not_eq_true', ← Bool.not_eq_true,
    List.contains_iff_mem, mem_hiddenAgainst hRow hDiff]
  cases inCards (cardsAgainst maxGap side other hunk) l <;> simp

variable {sides : List DiffSide}

theorem pairwise_indexLine (hDiff : WellNumbered side.hunks) (hSide : sides[i]? = some side)
    (hn : 0 < n) : (rowsAgainst maxGap side other i).Pairwise fun a b =>
      ¬((a.indexLine sides == n) = true ∧ (b.indexLine sides == n) = true) := by
  refine pairwise_sideRows.imp_of_mem fun ha hb hBefore ⟨hLine, hLine'⟩ => ?_
  obtain ⟨h, l, hunk, line, hRow, rfl, _⟩ := mem_sideRows.mp ha
  obtain ⟨h', l', hunk', line', hRow', rfl, _⟩ := mem_sideRows.mp hb
  rw [beq_iff_eq, PaintedRow.indexLine_hunk hSide hRow] at hLine
  rw [beq_iff_eq, PaintedRow.indexLine_hunk hSide hRow'] at hLine'
  obtain ⟨rfl, rfl⟩ := hRow.number_inj hRow' hDiff (hLine ▸ hn) (hLine.trans hLine'.symm)
  exact hBefore.ne rfl

theorem drawn_of_shows (hDiff : WellNumbered side.hunks) (hn : 0 < n) (hShows : side.Shows n) :
    n ∈ (drawnAgainst maxGap side other).changed ∨ n ∈ (drawnAgainst maxGap side other).card ∨
      n ∈ (drawnAgainst maxGap side other).gap := by
  obtain ⟨h, l, line, hLine, rfl⟩ := hShows
  obtain ⟨hunk, hRow⟩ := DiffSide.row?_eq_some.mp hLine
  rcases hRow.context_or_changed hDiff hn with hContext | hChanged
  · cases hIn : inCards (cardsAgainst maxGap side other hunk) l with
    | true =>
      exact .inr (.inl (mem_contextIndexLines.mpr ⟨hn, h, l, hunk, line, hRow, hContext, rfl, hIn⟩))
    | false =>
      exact .inr (.inr (mem_contextIndexLines.mpr ⟨hn, h, l, hunk, line, hRow, hContext, rfl, hIn⟩))
  · exact .inl (mem_changedIndexLines.mpr ⟨hn, h, l, hunk, line, hRow, hChanged, rfl⟩)

theorem countP_rowsAgainst (hDiff : WellNumbered side.hunks) (hSide : sides[i]? = some side)
    (hn : 0 < n) :
    (rowsAgainst maxGap side other i).countP (fun row => row.indexLine sides == n) =
      if n ∈ (drawnAgainst maxGap side other).changed ∨ n ∈ (drawnAgainst maxGap side other).card ∨
        n ∈ (drawnAgainst maxGap side other).gap ∧ hidesLine maxGap side other n = false then 1
      else 0 := by
  split
  next hShown =>
    have hRow : ∃ row ∈ rowsAgainst maxGap side other i, (row.indexLine sides == n) = true := by
      rcases hShown with hChanged | hCard | ⟨hGap, hOpen⟩
      · obtain ⟨_, h, l, hunk, line, hRow, hKind, rfl⟩ := mem_changedIndexLines.mp hChanged
        refine ⟨.hunk i h l, (mem_rowsAgainst hRow hDiff).mpr (.inr ?_),
          beq_iff_eq.mpr (PaintedRow.indexLine_hunk hSide hRow)⟩
        rintro ⟨hContext, _⟩
        rw [hContext] at hKind
        exact absurd hKind (by decide)
      · obtain ⟨_, h, l, hunk, line, hRow, _, rfl, hIn⟩ := mem_contextIndexLines.mp hCard
        exact ⟨.hunk i h l, (mem_rowsAgainst hRow hDiff).mpr (.inl hIn),
          beq_iff_eq.mpr (PaintedRow.indexLine_hunk hSide hRow)⟩
      · obtain ⟨_, h, l, hunk, line, hRow, _, rfl, _⟩ := mem_contextIndexLines.mp hGap
        refine ⟨.hunk i h l, (mem_rowsAgainst hRow hDiff).mpr (.inr ?_),
          beq_iff_eq.mpr (PaintedRow.indexLine_hunk hSide hRow)⟩
        rintro ⟨_, hHides⟩
        exact absurd (hOpen.symm.trans hHides) Bool.false_ne_true
    obtain ⟨row, hMem, hLine⟩ := hRow
    exact countP_eq_one (pairwise_indexLine hDiff hSide hn) hMem hLine
  next hNotShown =>
    refine List.countP_eq_zero.mpr fun row hMem hLine => hNotShown ?_
    obtain ⟨h, l, hunk, line, hRow, rfl, _⟩ := mem_sideRows.mp hMem
    rw [beq_iff_eq, PaintedRow.indexLine_hunk hSide hRow] at hLine
    have hShows : side.Shows n := ⟨h, l, line, DiffSide.row?_eq_some.mpr ⟨hunk, hRow⟩, hLine⟩
    refine (drawn_of_shows hDiff hn hShows).imp_right (Or.imp_right fun hGap => ⟨hGap, ?_⟩)
    obtain ⟨_, h', l', hunk', line', hRow', hContext, hNumber, hOutside⟩ := mem_contextIndexLines.mp hGap
    obtain ⟨rfl, rfl⟩ := hRow.number_inj hRow' hDiff (hLine ▸ hn) (hLine.trans hNumber.symm)
    obtain rfl := hRow.same_hunk hRow'
    obtain rfl := Option.some_inj.mp (hRow.inHunk.symm.trans hRow'.inHunk)
    have hOpen := ((mem_rowsAgainst hRow hDiff).mp hMem).resolve_left (by simp [hOutside])
    rw [hLine] at hOpen
    exact Bool.not_eq_true _ ▸ fun hHides => hOpen ⟨hContext, hHides⟩

theorem exists_spans_of_card (hPair : MergedPair side other)
    (hCard : n ∈ (drawnAgainst maxGap side other).card) : ∃ low high, Spans side other n low high := by
  obtain ⟨_, h, l, hunk, line, hRow, hContext, rfl, hIn⟩ := mem_contextIndexLines.mp hCard
  exact hPair.exists_spans hRow hContext hIn

theorem barrier_of_changed (hDiff : WellNumbered side.hunks)
    (hChanged : n ∈ (drawnAgainst maxGap side other).changed) :
    { line := n, offset := 0, rank := indexRankOf side.staged } ∈
      (IndexBarriers.ofChanges [side]).keys := by
  obtain ⟨hn, h, l, hunk, line, hRow, hKind, rfl⟩ := mem_changedIndexLines.mp hChanged
  refine mem_barriers.mpr ⟨h, l, hunk, line, hRow, hKind, ?_⟩
  rw [keyAt, hRow.position_of_number hDiff hn]
  rfl

theorem card_keeps_apart (hPair : MergedPair side other)
    (hCard : n ∈ (drawnAgainst maxGap side other).card) :
    n ∉ (drawnAgainst maxGap other side).changed ∧ n ∉ (drawnAgainst maxGap other side).card := by
  obtain ⟨low, high, hSpans⟩ := exists_spans_of_card hPair hCard
  refine ⟨fun hChanged => hSpans.not_changed (barrier_of_changed hPair.other hChanged), fun hCard' => ?_⟩
  obtain ⟨low', high', hSpans'⟩ := exists_spans_of_card hPair.symm hCard'
  exact hPair.not_both_span hSpans hSpans'

end Side

section Counts

variable {maxGap : Int} {first second side other : DiffSide} {i : Nat} {n : Int}

theorem hidesLine_iff : hidesLine maxGap side other n = true ↔
    n ∈ (drawnAgainst maxGap other side).changed ∨ n ∈ (drawnAgainst maxGap other side).card ∨
      indexRankOf side.staged > indexRankOf other.staged ∧ n ∈ (drawnAgainst maxGap other side).gap := by
  simp only [hidesLine, Bool.or_eq_true, Bool.and_eq_true, List.contains_iff_mem, decide_eq_true_eq,
    or_assoc]

theorem shows_of_changed (h : n ∈ changedIndexLines side.file side.staged) : side.Shows n := by
  obtain ⟨_, h, l, hunk, line, hRow, _, hNumber⟩ := mem_changedIndexLines.mp h
  exact ⟨h, l, line, DiffSide.row?_eq_some.mpr ⟨hunk, hRow⟩, hNumber⟩

theorem countP_of_not_shows {sides : List DiffSide} (hSide : sides[i]? = some side)
    (h : ¬side.Shows n) :
    (rowsAgainst maxGap side other i).countP (fun row => row.indexLine sides == n) = 0 := by
  refine List.countP_eq_zero.mpr fun row hMem hLine => h ?_
  obtain ⟨h, l, hunk, line, hRow, rfl, _⟩ := mem_sideRows.mp hMem
  rw [beq_iff_eq, PaintedRow.indexLine_hunk hSide hRow] at hLine
  exact ⟨h, l, line, DiffSide.row?_eq_some.mpr ⟨hunk, hRow⟩, hLine⟩

/-- The two sides together paint an index line once, and twice where both change it. -/
theorem countP_pair (hPair : MergedPair first second) (hn : 0 < n)
    (hShows : first.Shows n ∨ second.Shows n) :
    (rowsAgainst maxGap first second 0 ++ rowsAgainst maxGap second first 1).countP
        (fun row => row.indexLine [first, second] == n) =
      if n ∈ changedIndexLines first.file first.staged ∧
        n ∈ changedIndexLines second.file second.staged then 2 else 1 := by
  rw [List.countP_append, countP_rowsAgainst hPair.side rfl hn, countP_rowsAgainst hPair.other rfl hn]
  have hFirst : first.Shows n → n ∈ (drawnAgainst maxGap first second).changed ∨ _ :=
    drawn_of_shows hPair.side hn
  have hSecond : second.Shows n → n ∈ (drawnAgainst maxGap second first).changed ∨ _ :=
    drawn_of_shows hPair.other hn
  have hCard : n ∈ (drawnAgainst maxGap first second).card → _ := card_keeps_apart hPair
  have hCard' : n ∈ (drawnAgainst maxGap second first).card → _ := card_keeps_apart hPair.symm
  have hRanks := hPair.ranks
  simp only [← Bool.not_eq_true, hidesLine_iff]
  change _ = if n ∈ (drawnAgainst maxGap first second).changed ∧
    n ∈ (drawnAgainst maxGap second first).changed then 2 else 1
  grind

end Counts

section Blocks

variable {maxGap : Int} {side other : DiffSide} {i : Nat}

/-- The blocks of a side in a merged list: one for each card and one for each row outside. -/
inductive SideBlock (maxGap : Int) (side other : DiffSide) (i : Nat) : DiffBlock → Prop
  | gap {h l : Nat} {hunk : DiffHunk} {line : DiffLine} (row : RowAt side.hunks h l hunk line)
      (outside : inCards (cardsAgainst maxGap side other hunk) l = false) :
      SideBlock maxGap side other i
        { sourceIndex := i, hunkIndex := h, segment := .gap [l],
          position := indexPositionOf hunk l side.staged }
  | card {h : Nat} {hunk : DiffHunk} {card : DiffScope} {first last : Nat}
      (inHunks : side.hunks[h]? = some hunk) (member : card ∈ cardsAgainst maxGap side other hunk)
      (isCard : IsCard hunk side.staged (IndexBarriers.ofChanges [other]) card first last) :
      SideBlock maxGap side other i
        { sourceIndex := i, hunkIndex := h, segment := .scope card,
          position := indexPositionOf hunk first side.staged }

def blocksAgainst (maxGap : Int) (side other : DiffSide) (i : Nat) : List DiffBlock :=
  sideBlocks true side i (side.hunks.map (cardsAgainst maxGap side other))
    (side.hunks.map (hiddenAgainst maxGap side other))

theorem laid_cardsAgainst (h : Nat) (hunk : DiffHunk) (hHunk : side.hunks[h]? = some hunk) :
    Laid hunk.lines.length 0 ((side.hunks.map (cardsAgainst maxGap side other)).getD h []) := by
  rw [getD_map_hunks hHunk]
  exact laid_split

theorem paintedRows_blocksAgainst :
    paintedRows (blocksAgainst maxGap side other i) = rowsAgainst maxGap side other i :=
  paintedRows_sideBlocks true laid_cardsAgainst

theorem sideBlock_of_mem (hPair : MergedPair side other) {block : DiffBlock}
    (h : block ∈ blocksAgainst maxGap side other i) : SideBlock maxGap side other i block := by
  rw [blocksAgainst, sideBlocks_eq] at h
  simp only [List.mem_flatMap, Prod.exists, List.mem_zipIdx_iff_getElem?] at h
  obtain ⟨hunk, h, hHunk, segment, hSegment, hBlock⟩ := h
  rw [getD_map_hunks hHunk] at hSegment
  rcases segment_cases laid_split hSegment with ⟨run, rfl, hRun⟩ | ⟨card, hCard, rfl⟩
  · obtain ⟨l, hl, rfl⟩ := List.mem_map.mp hBlock
    obtain ⟨_, hLength, hOutside⟩ := hRun l hl
    exact .gap ⟨hHunk, List.getElem?_eq_getElem hLength⟩ hOutside
  · obtain ⟨first, last, hIsCard⟩ := hPair.isCard hCard
    have hHead : card.lineIndices.head? = some first := by
      rw [hIsCard.rows, show last + 1 - first = last - first + 1 by have := hIsCard.order; omega,
        List.range'_succ, List.head?_cons]
    have hEq := List.mem_singleton.mp hBlock
    simp only [DiffSegment.lineIndices, hHead] at hEq
    rw [hEq]
    exact .card hHunk hCard hIsCard

theorem mem_segmentsFrom_of_card {hunk : DiffHunk} {hiddenLines : List Nat} {scopes : List DiffScope}
    {cursor : Nat} {card : DiffScope} (hCard : card ∈ scopes) :
    DiffSegment.scope card ∈ segmentsFrom hunk hiddenLines cursor scopes := by
  induction scopes generalizing cursor with
  | nil => exact absurd hCard List.not_mem_nil
  | cons first scopes ih =>
    rw [segmentsFrom]
    refine List.mem_append_right _ ?_
    rcases List.mem_cons.mp hCard with rfl | hLater
    · exact List.mem_cons_self
    · exact List.mem_cons_of_mem _ (ih hLater)

theorem mem_cardRows_blocksAgainst {h l : Nat} {hunk : DiffHunk} {line : DiffLine}
    (hRow : RowAt side.hunks h l hunk line)
    (hIn : inCards (cardsAgainst maxGap side other hunk) l = true) :
    PaintedRow.hunk i h l ∈ cardRows (blocksAgainst maxGap side other i) := by
  obtain ⟨card, hCard, hl⟩ := inCards_iff.mp hIn
  rw [cardRows, blocksAgainst, sideBlocks_eq, List.flatMap_assoc, List.mem_flatMap]
  refine ⟨(hunk, h), List.mem_zipIdx_iff_getElem?.mpr hRow.inHunks, ?_⟩
  rw [List.flatMap_assoc, getD_map_hunks hRow.inHunks, List.mem_flatMap]
  refine ⟨.scope card, mem_segmentsFrom_of_card hCard, ?_⟩
  simp only [segmentBlocks, List.flatMap_singleton, DiffBlock.cardRows, DiffBlock.rows,
    DiffSegment.lineIndices, Int.toNat_natCast]
  exact List.mem_map_of_mem hl

end Blocks

end GitBranchManager.DiffPane
