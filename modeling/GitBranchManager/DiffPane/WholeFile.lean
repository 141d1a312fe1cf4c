import GitBranchManager.DiffPane.FullFileFill
import GitBranchManager.DiffPane.MergedOrder

/-! # The full-file view of the merged list

Between the cards and the context of the excerpts the fill paints the rest of the index file.
-/

namespace GitBranchManager.DiffPane

/-- A diff shows the index file `content` at the rows that carry an index line. -/
def ReadsIndex (content : List Bytes) (staged : Bool) (hunks : List DiffHunk) : Prop :=
  ∀ hunk ∈ hunks, ∀ line ∈ hunk.lines, 0 < line.number staged →
    content[(line.number staged - 1).toNat]? = some line.text

/-- Full context: every line of the index file is shown. -/
def ShowsIndex (content : List Bytes) (staged : Bool) (hunks : List DiffHunk) : Prop :=
  ∀ i, i < content.length → ∃ hunk ∈ hunks, ∃ line ∈ hunk.lines, line.number staged = i + 1

instance (content : List Bytes) (staged : Bool) (hunks : List DiffHunk) :
    Decidable (ReadsIndex content staged hunks) :=
  inferInstanceAs (Decidable (∀ hunk ∈ hunks, ∀ line ∈ hunk.lines, _))

instance (content : List Bytes) (staged : Bool) (hunks : List DiffHunk) :
    Decidable (ShowsIndex content staged hunks) :=
  inferInstanceAs (Decidable (∀ i, i < content.length → _))

/-- The excerpt and the full-context diff of one direction, both of the index file `content`. -/
structure DiffFillSource.DiffOf (content : List Bytes) (source : DiffFillSource) : Prop where
  excerptNumbers : ∀ excerpt, source.excerpt = some excerpt → WellNumbered excerpt.hunks
  excerptText : ∀ excerpt, source.excerpt = some excerpt →
    ReadsIndex content source.staged excerpt.hunks
  fullNumbers : ∀ full, source.full = some full → WellNumbered full.hunks
  fullText : ∀ full, source.full = some full → ReadsIndex content source.staged full.hunks
  fullContext : ∀ full, source.full = some full → ShowsIndex content source.staged full.hunks

/-- The side that the pane draws for a source. -/
def DiffFillSource.side (source : DiffFillSource) : DiffSide where
  file := source.excerpt
  staged := source.staged

def PaintedRow.line? (sides : List DiffSide) : PaintedRow → Option DiffLine
  | .hunk i h l => sides[i]?.bind fun side => side.row? h l
  | .fill row => some row.line

section Source

variable {content : List Bytes} {source : DiffFillSource} {excerpt full : DiffFile} {n : Int}

theorem hunks_side (source : DiffFillSource) : source.side.hunks = [] ∨
    ∃ excerpt, source.excerpt = some excerpt ∧ source.side.hunks = excerpt.hunks := by
  unfold DiffSide.hunks
  cases hExcerpt : source.excerpt with
  | none => exact .inl (by rw [DiffFillSource.side, hExcerpt])
  | some excerpt =>
    cases hBinary : excerpt.binary with
    | true => exact .inl (by simp [DiffFillSource.side, hExcerpt, hBinary])
    | false => exact .inr ⟨excerpt, rfl, by simp [DiffFillSource.side, hExcerpt, hBinary]⟩

theorem DiffFillSource.Gives.hunks (h : source.Gives excerpt full) :
    source.side.hunks = excerpt.hunks := by
  unfold DiffSide.hunks
  simp [DiffFillSource.side, h.hasExcerpt, h.text.1]

theorem DiffFillSource.DiffOf.wellNumbered (h : source.DiffOf content) :
    WellNumbered source.side.hunks := by
  rcases hunks_side source with hNone | ⟨excerpt, hExcerpt, hHunks⟩
  · rw [hNone]
    exact ⟨by simp, by simp⟩
  · rw [hHunks]
    exact h.excerptNumbers excerpt hExcerpt

theorem DiffFillSource.DiffOf.reads (h : source.DiffOf content) :
    ReadsIndex content source.staged source.side.hunks := by
  rcases hunks_side source with hNone | ⟨excerpt, hExcerpt, hHunks⟩
  · rw [hNone]
    exact fun hunk hMem => absurd hMem List.not_mem_nil
  · rw [hHunks]
    exact h.excerptText excerpt hExcerpt

theorem shows_iff_mem {side : DiffSide} : side.Shows n ↔
    ∃ hunk ∈ side.hunks, ∃ line ∈ hunk.lines, line.number side.staged = n := by
  constructor
  · rintro ⟨h, l, line, hLine, hNumber⟩
    obtain ⟨hunk, hRow⟩ := DiffSide.row?_eq_some.mp hLine
    exact ⟨hunk, hRow.mem.1, line, hRow.mem.2, hNumber⟩
  · rintro ⟨hunk, hHunk, line, hLine, hNumber⟩
    obtain ⟨h, l, hRow⟩ := RowAt.of_mem hHunk hLine
    exact ⟨h, l, line, DiffSide.row?_eq_some.mpr ⟨hunk, hRow⟩, hNumber⟩

theorem shows_iff_draws (hSource : source.DiffOf content) (h : source.Gives excerpt full)
    (hn : 0 < n) : source.side.Shows n ↔ excerpt.Draws source.staged n := by
  rw [shows_iff_mem, h.hunks]
  refine ⟨?_, ?_⟩
  · rintro ⟨hunk, hHunk, line, hLine, hNumber⟩
    refine ⟨hunk, hHunk, line, hLine, indexLineOf_eq_some.mpr ⟨?_, hn.ne', hNumber⟩⟩
    obtain ⟨_, _, hRow⟩ := RowAt.of_mem hHunk hLine
    have hNumbers := hSource.excerptNumbers excerpt h.hasExcerpt
    have hPositive : 0 < line.number source.staged := lt_of_lt_of_eq hn hNumber.symm
    rcases hRow.context_or_changed hNumbers hPositive with hContext | hChanged
    · rw [hContext]
      decide
    · intro hMarker
      rw [hMarker] at hChanged
      exact absurd hChanged (by decide)
  · rintro ⟨hunk, hHunk, line, hLine, hIndex⟩
    exact ⟨hunk, hHunk, line, hLine, (indexLineOf_eq_some.mp hIndex).2.2⟩

theorem shows_le_length (hSource : source.DiffOf content) (hn : 0 < n) (hShows : source.side.Shows n) :
    n ≤ content.length := by
  obtain ⟨hunk, hHunk, line, hLine, rfl⟩ := shows_iff_mem.mp hShows
  have hText := hSource.reads hunk hHunk line hLine hn
  have hLength := (List.getElem?_eq_some_iff.mp hText).1
  change 0 < line.number source.staged at hn
  change line.number source.staged ≤ _
  omega

end Source

section Filled

variable {content : List Bytes} {sources : List DiffFillSource} {rows : List DiffFillRow}
  {row : DiffFillRow} {source : DiffFillSource} {n : Int}

/-- A fill row is the context row of a full diff. -/
theorem fill_origin (hSources : ∀ source ∈ sources, source.DiffOf content) (hFill : Fill sources rows)
    (hRow : row ∈ rows) : 0 < row.indexLine ∧
      content[(row.indexLine - 1).toNat]? = some row.line.text := by
  obtain ⟨source, excerpt, full, hSource, hGives, hLine, hContext, hNumber⟩ := hFill.origin row hRow
  have hDiff := hSources source (List.mem_of_getElem? hSource)
  obtain ⟨hunk, hHunk, hLine⟩ := List.mem_flatMap.mp hLine
  obtain ⟨h, l, hRowAt⟩ := RowAt.of_mem hHunk hLine
  have hPositive : 0 < row.line.number source.staged :=
    hRowAt.number_pos_of_context (hDiff.fullNumbers full hGives.hasFull) hContext
  have hText := hDiff.fullText full hGives.hasFull hunk hHunk row.line hLine hPositive
  rw [hNumber] at hPositive hText
  exact ⟨hPositive, hText⟩

theorem not_shows_of_fill (hSources : ∀ source ∈ sources, source.DiffOf content)
    (hFill : Fill sources rows) (hRow : row ∈ rows) (hSource : source ∈ sources) :
    ¬source.side.Shows row.indexLine := by
  intro hShows
  rcases hFill.gives source hSource with hNone | ⟨excerpt, full, hGives⟩
  · obtain ⟨hunk, hHunk, _⟩ := shows_iff_mem.mp hShows
    rw [DiffSide.hunks, DiffFillSource.side, hNone] at hHunk
    exact absurd hHunk List.not_mem_nil
  · have hPositive := (fill_origin hSources hFill hRow).1
    rw [shows_iff_draws (hSources source hSource) hGives hPositive] at hShows
    exact hFill.notDrawn row hRow source hSource excerpt full hGives hShows

/-- A line of the index file that no hunk shows is filled. -/
theorem fill_covers (hSources : ∀ source ∈ sources, source.DiffOf content) (hFill : Fill sources rows)
    (hSome : ∃ source ∈ sources, source.excerpt ≠ none) (hn : 0 < n) (hLength : n ≤ content.length)
    (hNotShown : ∀ source ∈ sources, ¬source.side.Shows n) : ∃ row ∈ rows, row.indexLine = n := by
  obtain ⟨source, hSource, hExcerpt⟩ := hSome
  obtain ⟨excerpt, full, hGives⟩ := (hFill.gives source hSource).resolve_left hExcerpt
  have hDiff := hSources source hSource
  obtain ⟨hunk, hHunk, line, hLine, hNumber⟩ :=
    hDiff.fullContext full hGives.hasFull (n - 1).toNat (by omega)
  obtain rfl : line.number source.staged = n := by omega
  obtain ⟨h, l, hRowAt⟩ := RowAt.of_mem hHunk hLine
  rcases hRowAt.context_or_changed (hDiff.fullNumbers full hGives.hasFull) hn with hContext | hChanged
  · refine hFill.covers source hSource excerpt full hGives line
      (List.mem_flatMap.mpr ⟨hunk, hHunk, hLine⟩) hContext fun other hOther e f hGives' hDraws => ?_
    exact hNotShown other hOther ((shows_iff_draws (hSources other hOther) hGives' hn).mpr hDraws)
  · have hMem : line ∈ changedLines full.hunks :=
      List.mem_flatMap.mpr ⟨hunk, hHunk, List.mem_filter.mpr ⟨hLine, hChanged⟩⟩
    rw [← hGives.changes] at hMem
    obtain ⟨hunk', hHunk', hLine'⟩ := List.mem_flatMap.mp hMem
    refine absurd (shows_iff_mem.mpr ⟨hunk', ?_, line, (List.mem_filter.mp hLine').1, rfl⟩)
      (hNotShown source hSource)
    rw [hGives.hunks]
    exact hHunk'

end Filled

section Pair

variable {content : List Bytes} {maxGap : Int} {first second : DiffFillSource}
  {rows : List DiffFillRow} {n : Int}

theorem fillsBetween (hSources : ∀ source ∈ [first, second], source.DiffOf content)
    (hFill : Fill [first, second] rows) : FillsBetween first.side second.side rows where
  sorted := hFill.sorted
  positive row hRow := (fill_origin hSources hFill hRow).1
  notFirst row hRow := not_shows_of_fill hSources hFill hRow List.mem_cons_self
  notSecond row hRow := not_shows_of_fill hSources hFill hRow (by simp)

theorem mergedPair (hSources : ∀ source ∈ [first, second], source.DiffOf content)
    (hDirections : first.staged ≠ second.staged) : MergedPair first.side second.side :=
  ⟨hDirections, (hSources first (by simp)).wellNumbered, (hSources second (by simp)).wellNumbered⟩

/-- The hunks and the fill together paint the lines of the index file, and no others. -/
theorem countP_whole_file (maxGap : Int) (hSources : ∀ source ∈ [first, second], source.DiffOf content)
    (hDirections : first.staged ≠ second.staged) (hSome : ∃ source ∈ [first, second], source.excerpt ≠ none)
    (hFill : Fill [first, second] rows) (hn : 0 < n) :
    (paintedRows (orderedDiffBlocks [first.side, second.side]
      (scopesBySource maxGap [first.side, second.side]) (some rows))).countP
        (fun row => row.indexLine [first.side, second.side] == n) =
      if n ≤ content.length then
        if ∀ side ∈ [first.side, second.side], n ∈ changedIndexLines side.file side.staged then 2
        else 1
      else 0 := by
  have hPair := mergedPair hSources hDirections
  have hFillCount : (((some rows).getD []).map PaintedRow.fill).countP
      (fun row => row.indexLine [first.side, second.side] == n) =
        rows.countP fun row => row.indexLine == n := List.countP_map
  rw [countP_paintedRows, hFillCount]
  by_cases hShows : first.side.Shows n ∨ second.side.Shows n
  · have hLength : n ≤ content.length :=
      hShows.elim (shows_le_length (hSources first (by simp)) hn)
        (shows_le_length (hSources second (by simp)) hn)
    have hNone : rows.countP (fun row => row.indexLine == n) = 0 := by
      refine List.countP_eq_zero.mpr fun row hRow hLine => ?_
      obtain rfl : row.indexLine = n := beq_iff_eq.mp hLine
      exact hShows.elim (not_shows_of_fill hSources hFill hRow (by simp))
        (not_shows_of_fill hSources hFill hRow (by simp))
    rw [countP_pair hPair hn hShows, hNone, if_pos hLength]
    simp
  · rw [not_or] at hShows
    have hNotBoth : ¬∀ side ∈ [first.side, second.side],
        n ∈ changedIndexLines side.file side.staged := fun hBoth =>
      hShows.1 (shows_of_changed (hBoth first.side List.mem_cons_self))
    rw [List.countP_append, countP_of_not_shows rfl hShows.1, countP_of_not_shows rfl hShows.2,
      if_neg hNotBoth]
    split
    next hLength =>
      obtain ⟨row, hRow, hLine⟩ := fill_covers hSources hFill hSome hn hLength (by simpa using hShows)
      have hOnce : rows.countP (fun row => row.indexLine == n) = 1 :=
        countP_eq_one (hFill.sorted.imp fun {a b} hLess ⟨ha, hb⟩ =>
          hLess.ne ((beq_iff_eq.mp ha).trans (beq_iff_eq.mp hb).symm)) hRow (beq_iff_eq.mpr hLine)
      rw [hOnce]
    next hLength =>
      have hNone : rows.countP (fun row => row.indexLine == n) = 0 := by
        refine List.countP_eq_zero.mpr fun row hRow hLine => hLength ?_
        obtain rfl : row.indexLine = n := beq_iff_eq.mp hLine
        have hText := (fill_origin hSources hFill hRow).2
        have hIndex := (List.getElem?_eq_some_iff.mp hText).1
        omega
      rw [hNone]

theorem painted_twice_of_both (maxGap : Int) (hSources : ∀ source ∈ [first, second], source.DiffOf content)
    (hDirections : first.staged ≠ second.staged) (hSome : ∃ source ∈ [first, second], source.excerpt ≠ none)
    (hRefused : ¬∃ source ∈ [first, second], source.Refused) (hn : 0 < n) (hLength : n ≤ content.length)
    (hBoth : ∀ side ∈ [first.side, second.side], n ∈ changedIndexLines side.file side.staged) :
    ∃ rows, fullFileFillRows [first, second] = some rows ∧
      (paintedRows (orderedDiffBlocks [first.side, second.side]
        (scopesBySource maxGap [first.side, second.side]) (some rows))).countP
          (fun row => row.indexLine [first.side, second.side] == n) = 2 := by
  obtain ⟨rows, hRows⟩ := exists_fillRows hRefused
  have hCount := countP_whole_file maxGap hSources hDirections hSome
    (fill_of_eq_some hRows) hn
  exact ⟨rows, hRows, hCount.trans ((if_pos hLength).trans (if_pos hBoth))⟩

/-- Every painted index line carries the text of the index file. -/
theorem text_of_painted (hSources : ∀ source ∈ [first, second], source.DiffOf content)
    (hFill : Fill [first, second] rows) {row : PaintedRow}
    (hRow : row ∈ paintedRows (orderedDiffBlocks [first.side, second.side]
      (scopesBySource maxGap [first.side, second.side]) (some rows)))
    (hLine : 0 < row.indexLine [first.side, second.side]) :
    ∃ line, row.line? [first.side, second.side] = some line ∧
      content[(row.indexLine [first.side, second.side] - 1).toNat]? = some line.text := by
  have hOfSide {source : DiffFillSource} {other : DiffSide} {i : Nat} (hSource : source ∈ [first, second])
      (hSide : [first.side, second.side][i]? = some source.side)
      (hMem : row ∈ rowsAgainst maxGap source.side other i) :
      ∃ line, row.line? [first.side, second.side] = some line ∧
        content[(row.indexLine [first.side, second.side] - 1).toNat]? = some line.text := by
    obtain ⟨h, l, hunk, line, hRowAt, rfl, _⟩ := mem_sideRows.mp hMem
    rw [PaintedRow.indexLine_hunk hSide hRowAt] at hLine ⊢
    refine ⟨line, ?_, (hSources source hSource).reads hunk hRowAt.mem.1 line hRowAt.mem.2 hLine⟩
    rw [PaintedRow.line?, hSide, Option.bind_some]
    exact DiffSide.row?_eq_some.mpr ⟨hunk, hRowAt⟩
  rw [perm_paintedRows.1.mem_iff, paintedRows_unsortedPair, List.append_assoc, List.mem_append, List.mem_append] at hRow
  rcases hRow with hFirst | hSecond | hFilled
  · exact hOfSide List.mem_cons_self rfl hFirst
  · exact hOfSide (List.mem_cons_of_mem _ List.mem_cons_self) rfl hSecond
  · obtain ⟨filled, hMem, rfl⟩ := List.mem_map.mp hFilled
    exact ⟨filled.line, rfl, (fill_origin hSources hFill hMem).2⟩

end Pair

/-- The fill is refused exactly for a source whose full diff is missing, binary or of other changes
than its excerpt. Where it is shown, the view paints every line of the index file once, a line that
both directions change twice, every changed row once and in a card, and goes up the index. -/
theorem whole_file_shown :
    (∀ sources, fullFileFillRows sources = none ↔ ∃ source ∈ sources, source.Refused) ∧
    ∀ (content : List Bytes) (maxGap : Int) (first second : DiffFillSource),
      (∀ source ∈ [first, second], source.DiffOf content) → first.staged ≠ second.staged →
      (∃ source ∈ [first, second], source.excerpt ≠ none) →
      ∀ rows, fullFileFillRows [first, second] = some rows →
      let sides := [first.side, second.side]
      let blocks := orderedDiffBlocks sides (scopesBySource maxGap sides) (some rows)
      (∀ source ∈ [first, second], ∀ excerpt full, source.excerpt = some excerpt →
        source.full = some full → changedLines excerpt.hunks = changedLines full.hunks) ∧
      (∀ i side h l line, sides[i]? = some side → side.row? h l = some line →
        isChanged line.kind = true → (cardRows blocks).count (.hunk i h l) = 1 ∧
          (paintedRows blocks).count (.hunk i h l) = 1) ∧
      (∀ n, 0 < n → (paintedRows blocks).countP (fun row => row.indexLine sides == n) =
        if n ≤ content.length then
          if ∀ side ∈ sides, n ∈ changedIndexLines side.file side.staged then 2 else 1
        else 0) ∧
      (∀ row ∈ paintedRows blocks, 0 < row.indexLine sides → ∃ line, row.line? sides = some line ∧
        content[(row.indexLine sides - 1).toNat]? = some line.text) ∧
      (paintedRows blocks).Pairwise fun a b => a.isMarker sides = false →
        b.isMarker sides = false → a.position sides ≤ b.position sides := by
  refine ⟨fun sources => fullFileFillRows_eq_none, ?_⟩
  intro content maxGap first second hSources hDirections hSome rows hRows sides blocks
  have hFill := fill_of_eq_some hRows
  have hBetween := fillsBetween hSources hFill
  have hPair := mergedPair hSources hDirections
  refine ⟨?_, ?_, ?_, fun row hRow hLine => text_of_painted hSources hFill hRow hLine,
    pairwise_paintedRows hPair hBetween⟩
  · intro source hSource excerpt full hExcerpt hFull
    rcases hFill.gives source hSource with hNone | ⟨excerpt', full', hGives⟩
    · exact absurd (hExcerpt.symm.trans hNone) (by simp)
    · obtain rfl := Option.some_inj.mp (hExcerpt.symm.trans hGives.hasExcerpt)
      obtain rfl := Option.some_inj.mp (hFull.symm.trans hGives.hasFull)
      exact hGives.changes
  · exact fun i side h l line hSide hRow hChanged => count_of_changed hBetween hSide hRow hChanged
  · exact fun n hn => countP_whole_file maxGap hSources hDirections hSome hFill hn

/-- The only change is at the first line; the second one is filled. -/
theorem whole_file_shown_second_line : ∃ (first second : DiffFillSource) (rows : List DiffFillRow),
    fullFileFillRows [first, second] = some rows ∧
      (paintedRows (orderedDiffBlocks [first.side, second.side]
        (scopesBySource kDefaultScopeGap [first.side, second.side]) (some rows))).countP
          (fun row => row.indexLine [first.side, second.side] == 2) = 1 := by
  have hShown (first second : DiffFillSource) (hRefused : ¬∃ source ∈ [first, second], source.Refused)
      (hSources : ∀ source ∈ [first, second], source.DiffOf [ascii "a", ascii "b"])
      (hDirections : first.staged ≠ second.staged)
      (hSome : ∃ source ∈ [first, second], source.excerpt ≠ none)
      (hUnchanged : ¬∀ side ∈ [first.side, second.side],
        2 ∈ changedIndexLines side.file side.staged) : ∃ rows,
      fullFileFillRows [first, second] = some rows ∧
        (paintedRows (orderedDiffBlocks [first.side, second.side]
          (scopesBySource kDefaultScopeGap [first.side, second.side]) (some rows))).countP
            (fun row => row.indexLine [first.side, second.side] == 2) = 1 := by
    obtain ⟨rows, hRows⟩ := exists_fillRows hRefused
    have hWhole := whole_file_shown.2 [ascii "a", ascii "b"] kDefaultScopeGap first second hSources
      hDirections hSome rows hRows
    exact ⟨rows, hRows, (hWhole.2.2.1 2 (by decide)).trans
      ((if_pos (by decide)).trans (if_neg hUnchanged))⟩
  refine ⟨{
      excerpt := some { hunks := [{
        oldStart := 1, oldCount := 1, newStart := 1, newCount := 1
        lines := [
          { kind := .removed, oldLine := 1, newLine := 0, text := ascii "a" },
          { kind := .added, oldLine := 0, newLine := 1, text := ascii "c" }] }] }
      full := some { hunks := [{
        oldStart := 1, oldCount := 2, newStart := 1, newCount := 2
        lines := [
          { kind := .removed, oldLine := 1, newLine := 0, text := ascii "a" },
          { kind := .added, oldLine := 0, newLine := 1, text := ascii "c" },
          { kind := .context, oldLine := 2, newLine := 2, text := ascii "b" }] }] }
      staged := false }, { excerpt := none, full := none, staged := true },
    hShown _ _ ?_ ?_ (by decide) ⟨_, List.mem_cons_self, by decide⟩ (by decide)⟩
  · simp [DiffFillSource.Refused, changedLines, isChanged]
  · simp only [List.forall_mem_cons, List.not_mem_nil, false_implies, implies_true, and_true]
    refine ⟨⟨?_, ?_, ?_, ?_, ?_⟩, ⟨by simp, by simp, by simp, by simp, by simp⟩⟩ <;>
      simp only [Option.some_inj, forall_eq'] <;> decide

/-- A pane whose excerpts show their files whole. -/
def wholeSource (file : DiffFile) (staged : Bool) : DiffFillSource where
  excerpt := some file
  full := some file
  staged := staged

theorem not_refused_wholeSource {file : DiffFile} {staged : Bool} (h : file.binary = false) :
    ¬(wholeSource file staged).Refused := by
  rintro ⟨excerpt, hExcerpt, hAll⟩
  obtain rfl := Option.some_inj.mp hExcerpt
  rcases hAll file rfl with hBinary | hBinary | hChanges
  · exact absurd (h.symm.trans hBinary) Bool.false_ne_true
  · exact absurd (h.symm.trans hBinary) Bool.false_ne_true
  · exact hChanges rfl

theorem diffOf_wholeSource {content : List Bytes} {file : DiffFile} {staged : Bool}
    (hNumbers : WellNumbered file.hunks) (hText : ReadsIndex content staged file.hunks)
    (hContext : ShowsIndex content staged file.hunks) : (wholeSource file staged).DiffOf content := by
  constructor <;> intro diff hDiff <;> obtain rfl := Option.some_inj.mp hDiff <;> assumption

/-- Both directions change the second line, which is then painted twice; and full diffs that show
two different index files are not refused. -/
theorem whole_file_shared_and_unchecked :
    (∃ (content : List Bytes) (unstaged staged : DiffFile),
      (∀ source ∈ [wholeSource unstaged false, wholeSource staged true], source.DiffOf content) ∧
      ∃ rows, fullFileFillRows [wholeSource unstaged false, wholeSource staged true] = some rows ∧
        let sides := [(wholeSource unstaged false).side, (wholeSource staged true).side]
        (paintedRows (orderedDiffBlocks sides (scopesBySource kDefaultScopeGap sides)
          (some rows))).countP (fun row => row.indexLine sides == 2) = 2) ∧
    ∃ unstaged staged : DiffFile, WellNumbered unstaged.hunks ∧ WellNumbered staged.hunks ∧
      (¬∃ content, ReadsIndex content false unstaged.hunks ∧ ReadsIndex content true staged.hunks) ∧
      ∃ rows, fullFileFillRows [wholeSource unstaged false, wholeSource staged true] = some rows := by
  have hRefused {unstaged staged : DiffFile} (h : unstaged.binary = false) (h' : staged.binary = false) :
      ¬∃ source ∈ [wholeSource unstaged false, wholeSource staged true], source.Refused := by
    simp [not_refused_wholeSource h, not_refused_wholeSource h']
  constructor
  · have hTwice (content : List Bytes) (unstaged staged : DiffFile)
        (hUnstaged : (wholeSource unstaged false).DiffOf content)
        (hStaged : (wholeSource staged true).DiffOf content)
        (hText : unstaged.binary = false ∧ staged.binary = false) (hLength : 2 ≤ content.length)
        (hBoth : ∀ side ∈ [(wholeSource unstaged false).side, (wholeSource staged true).side],
          2 ∈ changedIndexLines side.file side.staged) :
        (∀ source ∈ [wholeSource unstaged false, wholeSource staged true], source.DiffOf content) ∧ _ :=
      have hSources : ∀ source ∈ [wholeSource unstaged false, wholeSource staged true],
          source.DiffOf content := by simp [hUnstaged, hStaged]
      ⟨hSources, painted_twice_of_both kDefaultScopeGap hSources Bool.false_ne_true
        ⟨_, List.mem_cons_self, by simp [wholeSource]⟩ (hRefused hText.1 hText.2) (by decide)
        (Int.ofNat_le.mpr hLength) hBoth⟩
    refine ⟨[ascii "a", ascii "b"], {
        hunks := [{
          oldStart := 1, oldCount := 2, newStart := 1, newCount := 1
          lines := [
            { kind := .context, oldLine := 1, newLine := 1, text := ascii "a" },
            { kind := .removed, oldLine := 2, newLine := 0, text := ascii "b" }] }] }, {
        hunks := [{
          oldStart := 1, oldCount := 1, newStart := 1, newCount := 2
          lines := [
            { kind := .context, oldLine := 1, newLine := 1, text := ascii "a" },
            { kind := .added, oldLine := 0, newLine := 2, text := ascii "b" }] }] },
      hTwice _ _ _ (diffOf_wholeSource (by decide) (by decide) (by decide))
        (diffOf_wholeSource (by decide) (by decide) (by decide)) ⟨rfl, rfl⟩ (by decide) (by decide)⟩
  · refine ⟨{
        hunks := [{
          oldStart := 1, oldCount := 1, newStart := 1, newCount := 2
          lines := [
            { kind := .context, oldLine := 1, newLine := 1, text := ascii "a" },
            { kind := .added, oldLine := 0, newLine := 2, text := ascii "c" }] }] }, {
        hunks := [{
          oldStart := 1, oldCount := 1, newStart := 1, newCount := 1
          lines := [
            { kind := .removed, oldLine := 1, newLine := 0, text := ascii "d" },
            { kind := .added, oldLine := 0, newLine := 1, text := ascii "b" }] }] },
      by decide, by decide, ?_, exists_fillRows (hRefused rfl rfl)⟩
    rintro ⟨content, hUnstaged, hStaged⟩
    have hText := hUnstaged _ List.mem_cons_self _ List.mem_cons_self (by decide)
    have hText' := hStaged _ List.mem_cons_self _ (List.mem_cons_of_mem _ List.mem_cons_self) (by decide)
    exact absurd (hText.symm.trans hText') (by decide)

end GitBranchManager.DiffPane
