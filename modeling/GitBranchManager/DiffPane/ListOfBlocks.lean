import GitBranchManager.DiffPane.ListIndex

/-! # The list of the ordered blocks

The rows that the blocks paint have distinct keys, and all their lines are there.
-/

namespace GitBranchManager.DiffPane

open Library

/-! ## Keys -/

def rowKeyOf : PaintedRow → Bytes
  | .hunk sourceIndex hunkIndex lineIndex => selectionRowKey sourceIndex hunkIndex lineIndex
  | .fill row => selectionFillRowKey row.sourceIndex row.indexLine

theorem colon_not_mem_intText (n : Int) : colon ∉ intText n := not_mem_intText n (by decide) (by decide)

theorem selectionRowKey_inj {i i' l l' : Nat} {h h' : Int} (hKeys : selectionRowKey i h l = selectionRowKey i' h' l') :
    i = i' ∧ h = h' ∧ l = l' := by
  obtain ⟨hSource, hRest⟩ := Joined.split_first (colon_not_mem_intText _) (colon_not_mem_intText _) hKeys
  obtain ⟨hHunk, hLine⟩ := Joined.split_first (colon_not_mem_intText _) (colon_not_mem_intText _) hRest
  exact ⟨Int.ofNat.inj (intText_inj hSource), intText_inj hHunk, Int.ofNat.inj (intText_inj hLine)⟩

theorem selectionFillRowKey_inj {i i' : Nat} {n n' : Int}
    (hKeys : selectionFillRowKey i n = selectionFillRowKey i' n') : i = i' ∧ n = n' := by
  obtain ⟨-, hRest⟩ := Joined.split_first (by decide) (by decide) hKeys
  obtain ⟨hSource, hLine⟩ := Joined.split_first (colon_not_mem_intText _) (colon_not_mem_intText _) hRest
  exact ⟨Int.ofNat.inj (intText_inj hSource), intText_inj hLine⟩

theorem selectionFillRowKey_ne {i i' l : Nat} {h n : Int} : selectionFillRowKey i n ≠ selectionRowKey i' h l := by
  intro hKeys
  obtain ⟨hSource, -⟩ := Joined.split_first (by decide) (colon_not_mem_intText _) hKeys
  exact not_mem_intText i' (b := 102) (by decide) (by decide) (hSource ▸ List.mem_cons_self)

theorem PaintedRow.Before.rowKeyOf_ne {a b : PaintedRow} (h : a.Before b) : rowKeyOf a ≠ rowKeyOf b := by
  intro hKeys
  refine h.ne ?_
  cases a with
  | hunk i j l =>
    cases b with
    | hunk i' j' l' =>
      obtain ⟨rfl, hHunk, rfl⟩ := selectionRowKey_inj hKeys
      obtain rfl := Int.ofNat.inj hHunk
      rfl
    | fill row => exact absurd hKeys.symm selectionFillRowKey_ne
  | fill row =>
    cases b with
    | hunk i j l => exact absurd hKeys selectionFillRowKey_ne
    | fill row' => exact absurd (selectionFillRowKey_inj hKeys).2 (ne_of_lt h)

/-! ## The ordered blocks -/

section Blocks

variable {sides : List DiffSide} {scopes : List (List (List DiffScope))} {fill : Option (List DiffFillRow)}

theorem nodup_rowKeys (hLaid : LaidIn sides scopes)
    (hFill : (fill.getD []).Pairwise fun a b => a.indexLine < b.indexLine) :
    ((paintedRows (orderedDiffBlocks sides scopes fill)).map rowKeyOf).Nodup := by
  rw [(perm_orderedDiffBlocks.map rowKeyOf).nodup_iff]
  exact List.pairwise_map.mpr ((pairwise_unorderedBlocks hLaid hFill).imp PaintedRow.Before.rowKeyOf_ne)

theorem linesOf_eq_some {block : DiffBlock} {side : DiffSide} {h : Nat} {hunk : DiffHunk}
    (hSide : sides[block.sourceIndex]? = some side) (hHunk : side.hunks[h]? = some hunk)
    (hIndex : block.hunkIndex = h) : linesOf sides block = some hunk.lines := by
  obtain ⟨file, hFile⟩ : ∃ file, side.file = some file := by
    cases hFile : side.file with
    | none => simp [DiffSide.hunks, hFile] at hHunk
    | some file => exact ⟨file, rfl⟩
  have hHunks : file.hunks[h]? = some hunk := by
    rw [DiffSide.hunks, hFile] at hHunk
    dsimp only at hHunk
    split at hHunk
    · cases hHunk
    · exact hHunk
  simp [linesOf, hSide, hFile, hIndex, hHunks]

theorem mem_segmentBlocks {merged staged : Bool} {i h : Nat} {hunk : DiffHunk} {segment : DiffSegment}
    {block : DiffBlock} (hMem : block ∈ segmentBlocks merged staged i h hunk segment) :
    block.sourceIndex = i ∧ block.hunkIndex = h ∧
      ∀ l ∈ block.segment.lineIndices, l ∈ segment.lineIndices := by
  unfold segmentBlocks at hMem
  split at hMem
  next lineIndices =>
    obtain ⟨l, hl, rfl⟩ := List.mem_map.mp hMem
    refine ⟨rfl, rfl, fun l' hl' => ?_⟩
    rw [List.mem_singleton.mp hl']
    exact hl
  next =>
    obtain rfl := List.mem_singleton.mp hMem
    exact ⟨rfl, rfl, fun _ hl => hl⟩

theorem shown_unorderedBlocks (hLaid : LaidIn sides scopes) :
    ∀ block ∈ unorderedBlocks sides scopes fill, Shown sides block := by
  intro block hMem
  rcases List.mem_append.mp hMem with hBlock | hFill
  · obtain ⟨⟨side, i⟩, hSide, hBlock⟩ := List.mem_flatMap.mp hBlock
    dsimp only at hBlock
    rw [sideBlocks_eq] at hBlock
    obtain ⟨⟨hunk, h⟩, hHunk, hBlock⟩ := List.mem_flatMap.mp hBlock
    obtain ⟨segment, hSegment, hBlock⟩ := List.mem_flatMap.mp hBlock
    rw [List.mem_zipIdx_iff_getElem?] at hSide hHunk
    obtain ⟨hSource, hIndex, hLines⟩ := mem_segmentBlocks hBlock
    have hHunkLaid := hLaid i side h hunk hSide hHunk
    refine .inr ⟨hunk.lines, linesOf_eq_some (hSource ▸ hSide) hHunk hIndex, fun l hl => ?_⟩
    rcases segment_cases hHunkLaid hSegment with ⟨run, rfl, hRun⟩ | ⟨card, hCard, rfl⟩
    · exact (hRun l (hLines l hl)).2.1
    · exact (hHunkLaid.mem_bounds hCard (hLines l hl)).2
  · obtain ⟨row, -, rfl⟩ := List.mem_map.mp hFill
    exact .inl ⟨[row], rfl⟩

theorem Shown.join {last block joined : DiffBlock} (hJoined : joinBlocks? last block = some joined)
    (hLast : Shown sides last) (hBlock : Shown sides block) : Shown sides joined := by
  unfold joinBlocks? at hJoined
  split at hJoined
  next rows more _ _ =>
    obtain rfl := Option.some.inj hJoined
    exact .inl ⟨rows ++ more, rfl⟩
  next lines more hLines hMore =>
    split at hJoined
    next hSame =>
      obtain rfl := Option.some.inj hJoined
      obtain ⟨text, hText, hIn⟩ := hLast.drawable (by rw [hLines]; simp)
      obtain ⟨text', hText', hIn'⟩ := hBlock.drawable (by rw [hMore]; simp)
      rw [linesOf, hSame.1, hSame.2] at hText'
      obtain rfl := Option.some.inj (hText.symm.trans hText')
      rw [hLines] at hIn
      rw [hMore] at hIn'
      exact .inr ⟨text, hText, List.forall_mem_append.mpr ⟨hIn, hIn'⟩⟩
    next => exact nomatch hJoined
  next => exact nomatch hJoined

theorem shown_orderedDiffBlocks (hLaid : LaidIn sides scopes) :
    ∀ block ∈ orderedDiffBlocks sides scopes fill, Shown sides block :=
  forall_orderedDiffBlocks (fun _ _ _ => Shown.join) (shown_unorderedBlocks hLaid)

end Blocks

/-! ## What the factory has drawn -/

section Drawn

variable {sides : List DiffSide} {sync : Option DiffListSync}

/-- The items that stand above the diff. -/
def leadingItems (count : Nat) : List DiffListItem := (List.range count).map .leading

theorem built_addLeading (leadingExtents : List ℚ) :
    Built sides sync (leadingItems leadingExtents.length) none 0 (DiffListModel.addLeading leadingExtents) := by
  have hEmpty : Built sides sync [] none 0 {} := by
    refine ⟨⟨rfl, rfl, rfl, rfl⟩, ⟨?_, Nat.zero_le _⟩, rfl, rfl, rfl, fun _ => rfl⟩
    exact (ite_self _).symm
  suffices hFold : ∀ (leadings : List (ℚ × Nat)) (b : DiffListBuild) (drawn : List DiffListItem),
      Built sides sync drawn none 0 b →
        Built sides sync (drawn ++ (leadings.map Prod.snd).map .leading) none 0
          (leadings.foldl (fun b leading => b.add (.leading leading.2) leading.1 none) b) by
    have hAll := hFold leadingExtents.zipIdx {} [] hEmpty
    rw [List.zipIdx_map_snd, ← List.range_eq_range', List.nil_append] at hAll
    exact hAll
  intro leadings
  induction leadings with
  | nil =>
    intro b drawn h
    rw [List.map_nil, List.map_nil, List.append_nil]
    exact h
  | cons leading leadings ih =>
    intro b drawn h
    rw [List.map_cons, List.map_cons, List.append_cons]
    exact ih _ _ (h.append rfl (h.indexed.add rfl rfl _ _) rfl rfl rfl rfl rfl)

/-- The rows of the items are those of the drawn ones, and these are painted by the blocks. -/
theorem flatMap_rowsOf_filter (items : List DiffListItem) :
    (items.filter fun item => !isSpacer item).flatMap (rowsOf sides) = items.flatMap (rowsOf sides) := by
  induction items with
  | nil => rfl
  | cons item items ih =>
    rw [List.filter_cons, List.flatMap_cons]
    cases item with
    | spacer segment atStart => exact ih
    | _ => exact congrArg (_ ++ ·) ih

theorem keys_block {block : DiffBlock} (hDrawable : Drawable sides block)
    (hRows : block.rows = block.segment.lineIndices.map (PaintedRow.hunk block.sourceIndex block.hunkIndex.toNat)) :
    (rowsOf sides (.block block)).map Prod.fst = block.rows.map rowKeyOf := by
  obtain ⟨lines, hText, -⟩ := hDrawable
  have hIndex : (block.hunkIndex.toNat : Int) = block.hunkIndex := by
    refine Int.toNat_of_nonneg (not_lt.mp fun hNegative => ?_)
    simp [linesOf, hNegative] at hText
  rw [rowsOf, hRows, List.map_map, List.map_map]
  refine List.map_congr_left fun l _ => ?_
  simp only [Function.comp_apply, rowOf, rowKeyOf, hIndex]

theorem keys_drawnBlock (headings : Bool) (last : Option (Nat × Int)) {block : DiffBlock}
    (hShown : Shown sides block) :
    ((drawnBlock headings last block).flatMap (rowsOf sides)).map Prod.fst = block.rows.map rowKeyOf := by
  have hCard (hDrawable : Drawable sides block) (hRows : block.rows =
        block.segment.lineIndices.map (PaintedRow.hunk block.sourceIndex block.hunkIndex.toNat)) :
      (((if headed headings last block then [DiffListItem.heading block] else []) ++ [DiffListItem.block block]).flatMap
        (rowsOf sides)).map Prod.fst = block.rows.map rowKeyOf := by
    rw [← keys_block hDrawable hRows, List.flatMap_append, List.flatMap_singleton]
    cases headed headings last block <;> rfl
  rw [drawnBlock]
  cases hSegment : block.segment with
  | fill rows =>
    rw [DiffBlock.rows, hSegment]
    dsimp only
    rw [List.map_map, List.flatMap_map, List.map_flatMap, List.map_eq_flatMap]
    rfl
  | gap lineIndices =>
    refine hCard (hShown.drawable (by rw [hSegment]; simp)) ?_
    rw [DiffBlock.rows, hSegment]
  | scope card =>
    refine hCard (hShown.drawable (by rw [hSegment]; simp)) ?_
    rw [DiffBlock.rows, hSegment]

theorem keys_drawnBlocks (headings : Bool) (last : Option (Nat × Int)) {blocks : List DiffBlock}
    (hShown : ∀ block ∈ blocks, Shown sides block) :
    ((drawnBlocks headings last blocks).flatMap (rowsOf sides)).map Prod.fst = (paintedRows blocks).map rowKeyOf := by
  induction blocks generalizing last with
  | nil => rfl
  | cons block blocks ih =>
    obtain ⟨hBlock, hRest⟩ := List.forall_mem_cons.mp hShown
    rw [drawnBlocks, List.flatMap_append, List.map_append, keys_drawnBlock headings last hBlock, ih _ hRest]
    exact List.map_append.symm

theorem rowsOf_leadingItems (count : Nat) : (leadingItems count).flatMap (rowsOf sides) = [] := by
  rw [leadingItems, List.flatMap_map]
  exact List.flatMap_eq_nil_iff.mpr fun _ _ => rfl

end Drawn

/-! ## The tables -/

section Tables

variable {sides : List DiffSide} {b : DiffListBuild} {i : Nat} {item : DiffListItem}

theorem Indexed.itemRowStart_ofBuild (h : Indexed sides b) : (DiffListModel.ofBuild b).itemRowStart =
    Cuts.starts (rowsOf sides) b.items ++ [(b.items.flatMap (rowsOf sides)).length] := by
  rw [DiffListModel.ofBuild, h.itemRowStart, h.length_rowKeys]

theorem Indexed.firstRowOf (h : Indexed sides b) (hi : i ≤ b.items.length) :
    (DiffListModel.ofBuild b).firstRowOf i = some (Cuts.start (rowsOf sides) b.items i) := by
  rw [DiffListModel.firstRowOf, h.itemRowStart_ofBuild]
  exact Cuts.getElem?_starts hi

theorem Indexed.rowCountOf (h : Indexed sides b) (hAt : b.items[i]? = some item) :
    (DiffListModel.ofBuild b).rowCountOf i = some (rowsOf sides item).length := by
  have hLess := (List.getElem?_eq_some_iff.mp hAt).1
  have hFirst := h.firstRowOf (Nat.le_of_lt hLess)
  have hNext := h.firstRowOf (Nat.succ_le_of_lt hLess)
  rw [DiffListModel.firstRowOf] at hFirst hNext
  rw [DiffListModel.rowCountOf, hNext, hFirst, Cuts.start_succ hAt]
  exact congrArg some (Nat.add_sub_cancel_left _ _)

theorem Indexed.itemOfRows_ofBuild (h : Indexed sides b) :
    (DiffListModel.ofBuild b).itemOfRows = Cuts.owners (rowsOf sides) b.items := by
  have hStart {i : Nat} (hi : i ≤ b.items.length) :
      (b.itemRowStart ++ [b.rowKeys.length]).getD i 0 = Cuts.start (rowsOf sides) b.items i := by
    rw [List.getD_eq_getElem?_getD, h.itemRowStart, h.length_rowKeys, Cuts.getElem?_starts hi]
    rfl
  rw [← Cuts.foldl_fill 0, ← h.length_rowKeys]
  refine List.foldl_ext _ _ _ fun table i hi => ?_
  have hLess := List.mem_range.mp hi
  rw [hStart (Nat.le_of_lt hLess), hStart (Nat.succ_le_of_lt hLess)]

end Tables

/-- The tables of a list agree with its items and with the rows that the blocks paint. -/
structure DiffListModel.Indexes (model : DiffListModel) (sides : List DiffSide) (blocks : List DiffBlock) : Prop where
  rowKeys : model.rowKeys = (paintedRows blocks).map rowKeyOf
  distinct : model.rowKeys.Nodup
  rowIndexOf : ∀ key r, model.rowIndexOf key = some r ↔ model.rowKeys[r]? = some key
  -- the runs of rows follow one another, from the first row to the last
  first : model.firstRowOf 0 = some 0
  last : model.firstRowOf model.items.length = some model.rowKeys.length
  run : ∀ i item, model.items[i]? = some item → ∃ first count, model.firstRowOf i = some first ∧
    model.rowCountOf i = some count ∧ model.firstRowOf (i + 1) = some (first + count) ∧
      (model.rowKeys.drop first).take count = (rowsOf sides item).map Prod.fst ∧
        ∀ r, model.itemOfRow r = some i ↔ first ≤ r ∧ r < first + count
  itemOfRow : ∀ r < model.rowKeys.length, ∃ i < model.items.length, model.itemOfRow r = some i
  cardItems : model.cardItems = Cuts.places isCardItem model.items
  changedRows : model.changedRows = Cuts.places Prod.snd (model.items.flatMap (rowsOf sides))

theorem indexes_ofBuild {sides : List DiffSide} {blocks : List DiffBlock} {b : DiffListBuild} (h : Indexed sides b)
    (hKeys : b.rowKeys = (paintedRows blocks).map rowKeyOf) (hDistinct : b.rowKeys.Nodup) :
    (DiffListModel.ofBuild b).Indexes sides blocks where
  rowKeys := hKeys
  distinct := hDistinct
  rowIndexOf _ _ := InsertionMap.get?_foldl_put_zipIdx hDistinct
  first := h.firstRowOf (Nat.zero_le _)
  last := (h.firstRowOf (Nat.le_refl _)).trans (congrArg some (Cuts.start_length.trans h.length_rowKeys.symm))
  run i item hAt := by
    change b.items[i]? = some item at hAt
    have hLess := (List.getElem?_eq_some_iff.mp hAt).1
    have hSucc := Cuts.start_succ (f := rowsOf sides) hAt
    refine ⟨_, _, h.firstRowOf (Nat.le_of_lt hLess), h.rowCountOf hAt, ?_, ?_, fun r => ?_⟩
    · rw [h.firstRowOf (Nat.succ_le_of_lt hLess), hSucc]
    · change (b.rowKeys.drop _).take _ = _
      rw [h.rowKeys, ← List.map_drop, ← List.map_take, Cuts.take_drop_start hAt]
    · rw [DiffListModel.itemOfRow, h.itemOfRows_ofBuild, Cuts.getElem?_owners, hSucc]
      exact and_iff_right hLess
  itemOfRow r hr := by
    rw [DiffListModel.itemOfRow, h.itemOfRows_ofBuild]
    have hRow : r < (Cuts.owners (rowsOf sides) b.items).length := by
      rw [Cuts.length_owners, ← h.length_rowKeys]
      exact hr
    have hAt := List.getElem?_eq_getElem hRow
    exact ⟨_, (Cuts.getElem?_owners.mp hAt).1, hAt⟩
  cardItems := h.cardItems
  changedRows := h.changedRows

/-- The model of a list of blocks whose lines are all there. -/
theorem exists_fromBlocks {sides : List DiffSide} {blocks : List DiffBlock} {sync : Option DiffListSync}
    (hShown : ∀ block ∈ blocks, Shown sides block) (hDistinct : ((paintedRows blocks).map rowKeyOf).Nodup)
    (hParts : Partitions sync (blocks.map unitsOf).sum) (headings : Bool) (metrics : DiffListMetrics)
    (leadingExtents : List ℚ) :
    ∃ model, DiffListModel.fromBlocks blocks sides headings metrics leadingExtents sync = some model ∧
      model.Indexes sides blocks ∧
      model.items.filter isSpacer = spacersBefore (segmentCountOf sync) ∧
      model.items.filter (fun item => !isSpacer item) =
        leadingItems leadingExtents.length ++ drawnBlocks headings none blocks := by
  have hLeading : Built sides sync (leadingItems leadingExtents.length) none 0
      (DiffListModel.addLeading leadingExtents) := built_addLeading leadingExtents
  obtain ⟨b, last, units, hFold, hBuilt⟩ := hLeading.addBlocks metrics hParts headings blocks (Nat.zero_add _).le hShown
  obtain ⟨hDone, hSegment⟩ := hBuilt.padTo (Nat.le_refl (segmentCountOf sync))
  rw [Nat.max_eq_right hBuilt.spaced.segment_le] at hSegment
  have hSpacers := hDone.spaced.spacers
  rw [hSegment, if_neg (Nat.lt_irrefl _), List.append_nil] at hSpacers
  have hKeys : (b.padTo sync (segmentCountOf sync)).rowKeys = (paintedRows blocks).map rowKeyOf := by
    rw [hDone.indexed.rowKeys, ← flatMap_rowsOf_filter, hDone.drawn_eq, List.flatMap_append, rowsOf_leadingItems,
      List.nil_append, keys_drawnBlocks headings none hShown]
  refine ⟨_, ?_, indexes_ofBuild hDone.indexed hKeys (hKeys.symm ▸ hDistinct), hSpacers, hDone.drawn_eq⟩
  rw [DiffListModel.fromBlocks, hFold]
  rfl

theorem filter_isCardItem (items : List DiffListItem) :
    (items.filter fun item => !isSpacer item).filter isCardItem = items.filter isCardItem := by
  rw [List.filter_filter]
  refine List.filter_congr fun item _ => ?_
  cases item with
  | spacer segment atStart => rfl
  | _ => exact Bool.and_true _

theorem cards_drawnBlocks (headings : Bool) (last : Option (Nat × Int)) (blocks : List DiffBlock) :
    (drawnBlocks headings last blocks).filter isCardItem = (blocks.filter isCard).map .block := by
  have hCard (last : Option (Nat × Int)) (block : DiffBlock) :
      (drawnBlock headings last block).filter isCardItem = ([block].filter isCard).map .block := by
    rw [drawnBlock, List.filter_singleton, isCard]
    cases hSegment : block.segment with
    | fill rows => exact List.filter_eq_nil_iff.mpr (List.forall_mem_map.mpr fun _ _ => Bool.false_ne_true)
    | gap lineIndices => cases headed headings last block <;> simp [isCardItem, isCard, hSegment]
    | scope card => cases headed headings last block <;> simp [isCardItem, isCard, hSegment]
  induction blocks generalizing last with
  | nil => rfl
  | cons block blocks ih =>
    rw [drawnBlocks, List.filter_append, hCard, ih, ← List.map_append, ← List.filter_append]
    rfl

/-- The list of a pane or of one of its columns: its tables are those of its rows, and a synced column differs from it
by its spacers alone. -/
theorem list_indexes_the_diff (sides : List DiffSide) (maxGap : Int) (barriers : List IndexBarriers)
    (sources : Option (List DiffFillSource)) (headings : Bool) (metrics : DiffListMetrics) (leadingExtents : List ℚ)
    (sync : Option DiffListSync) (blocks : List DiffBlock)
    (hBlocks : blocks = orderedDiffBlocks sides (scopesUnder maxGap barriers sides) (sources.bind fullFileFillRows))
    (hParts : Partitions sync (blocks.map unitsOf).sum) :
    ∃ model plain,
      DiffListModel.fromBlocks blocks sides headings metrics leadingExtents sync = some model ∧
      DiffListModel.fromBlocks blocks sides headings metrics leadingExtents none = some plain ∧
      model.Indexes sides blocks ∧ plain.Indexes sides blocks ∧
      model.items.filter isSpacer = spacersBefore (segmentCountOf sync) ∧
      (model.items.filter fun item => !isSpacer item) = plain.items ∧
      plain.items = leadingItems leadingExtents.length ++ drawnBlocks headings none blocks ∧
      model.rowKeys = plain.rowKeys ∧ model.changedRows = plain.changedRows ∧
      model.cardItems.filterMap (fun i => model.items[i]?) = (blocks.filter isCard).map .block ∧
      plain.cardItems.filterMap (fun i => plain.items[i]?) = (blocks.filter isCard).map .block := by
  have hLaid := laidIn_scopesUnder maxGap barriers sides
  have hFill : ((sources.bind fullFileFillRows).getD []).Pairwise fun a b => a.indexLine < b.indexLine := by
    cases hRows : sources.bind fullFileFillRows with
    | none => exact List.Pairwise.nil
    | some rows =>
      obtain ⟨given, -, hGiven⟩ := Option.bind_eq_some_iff.mp hRows
      exact (fill_of_eq_some hGiven).sorted
  have hShown : ∀ block ∈ blocks, Shown sides block := hBlocks ▸ shown_orderedDiffBlocks hLaid
  have hDistinct : ((paintedRows blocks).map rowKeyOf).Nodup := hBlocks ▸ nodup_rowKeys hLaid hFill
  obtain ⟨model, hModel, hIndexes, hSpacers, hDrawn⟩ :=
    exists_fromBlocks hShown hDistinct hParts headings metrics leadingExtents
  have hUnsynced : Partitions none (blocks.map unitsOf).sum := ⟨nofun, nofun, nofun⟩
  obtain ⟨plain, hPlain, hPlainIndexes, hNone, hPlainDrawn⟩ :=
    exists_fromBlocks hShown hDistinct hUnsynced headings metrics leadingExtents
  have hItems : (plain.items.filter fun item => !isSpacer item) = plain.items := by
    refine List.filter_eq_self.mpr fun item hItem => ?_
    rw [Bool.not_eq_true', Bool.eq_false_iff]
    exact List.filter_eq_nil_iff.mp hNone item hItem
  have hCards {list : DiffListModel} (hList : list.Indexes sides blocks)
      (hListDrawn : list.items.filter (fun item => !isSpacer item) =
        leadingItems leadingExtents.length ++ drawnBlocks headings none blocks) :
      list.cardItems.filterMap (fun i => list.items[i]?) = (blocks.filter isCard).map .block := by
    rw [hList.cardItems, Cuts.filterMap_places, ← filter_isCardItem, hListDrawn, List.filter_append, cards_drawnBlocks]
    refine (congrArg (· ++ _) ?_).trans (List.nil_append _)
    exact List.filter_eq_nil_iff.mpr (List.forall_mem_map.mpr fun _ _ => Bool.false_ne_true)
  refine ⟨model, plain, hModel, hPlain, hIndexes, hPlainIndexes, hSpacers, ?_, ?_, ?_, ?_, hCards hIndexes hDrawn,
    hCards hPlainIndexes hPlainDrawn⟩
  · rw [hDrawn, ← hPlainDrawn, hItems]
  · rw [← hItems, hPlainDrawn]
  · rw [hIndexes.rowKeys, hPlainIndexes.rowKeys]
  · rw [hIndexes.changedRows, hPlainIndexes.changedRows, ← flatMap_rowsOf_filter, hDrawn, ← hPlainDrawn, hItems]

/-- A gap, a card and a gap, of which the card is in a segment that the column begins with spacers. -/
theorem list_indexes_the_diff_synced : ∃ (sides : List DiffSide) (metrics : DiffListMetrics) (sync : DiffListSync)
    (model plain : DiffListModel),
    let blocks := orderedDiffBlocks sides (scopesUnder kDefaultScopeGap (barriersFor sides) sides) none
    DiffListModel.fromBlocks blocks sides true metrics [40] (some sync) = some model ∧
      DiffListModel.fromBlocks blocks sides true metrics [40] none = some plain ∧
      model.items.filter isSpacer =
        [.spacer 0 false, .spacer 1 true, .spacer 1 false, .spacer 2 true, .spacer 2 false] ∧
      (model.items.filter fun item => !isSpacer item) = plain.items := by
  let sides : List DiffSide := [{
    file := some { hunks := [{
      oldStart := 1, oldCount := 2, newStart := 1, newCount := 3
      lines := [
        { kind := .context, oldLine := 1, newLine := 1 },
        { kind := .added, oldLine := 0, newLine := 2 },
        { kind := .context, oldLine := 2, newLine := 3 }] }] }
    staged := false }]
  let metrics : DiffListMetrics :=
    { rowExtent := 20, headingExtent := 30, cardChromeExtent := 44, cardLeadExtent := 34, gapChromeExtent := 8
      charsPerLine := 0 }
  let sync : DiffListSync :=
    { segmentOfUnit := [1, 2, 2], segmentCount := 3, spacerExtentOf := fun _ => 0, leadExtentOf := fun _ => 0 }
  have hParts : Partitions (some sync) ((orderedDiffBlocks sides
      (scopesUnder kDefaultScopeGap (barriersFor sides) sides) (none.bind fullFileFillRows)).map unitsOf).sum := by
    refine ⟨fun given hGiven => ?_, fun given hGiven => ?_, fun given hGiven => ?_⟩ <;>
      obtain rfl := Option.some.inj hGiven
    · decide
    · decide
    · decide
  obtain ⟨model, plain, hModel, hPlain, -, -, hSpacers, hItems, -⟩ :=
    list_indexes_the_diff sides kDefaultScopeGap (barriersFor sides) none true metrics [40] (some sync) _ rfl hParts
  exact ⟨sides, metrics, sync, model, plain, hModel, hPlain, hSpacers, hItems⟩

end GitBranchManager.DiffPane
