import GitBranchManager.Diff.LineEndings
import GitBranchManager.Stage.StageOps

/-! # The lines a patch touches

The changed lines at the positions a request carries, and the added and removed lines of
the patches the builders make for it.
-/

namespace GitBranchManager

open UnifiedDiffParser Library.EditScript

def chosen (hunk : DiffHunk) (lineIndices : List Nat) : List (Edit Bytes) :=
  hunk.lines.zipIdx.filterMap fun (line, k) =>
    if line.kind.isChange && (lineIndices.isEmpty || lineIndices.contains k) then line.edit? else none

def afterLine (text : Bytes) : Bytes := (text.dropWhile (· ≠ LF)).drop 1

/-- The added and removed lines of a patch, read behind the header written for the file
and the range line. -/
def patchChanges (file : DiffFile) (unstaging : Bool) (patch : Bytes) : List (Edit Bytes) :=
  (readBody (afterLine (patch.drop (patchHeaderOf file unstaging).length))).filter Edit.isChange

/-- The changed lines of the file a write stages, unstages or discards. -/
def GitWrite.touched (file : DiffFile) : GitWrite → List (Edit Bytes)
  | .apply _ reverse patch => patchChanges file reverse patch
  | .restoreStaged _ => (file.hunks.flatMap DiffHunk.script).filter Edit.isChange

/-! ## Selections -/

theorem getElem?_foldl_set (lineIndices : List Nat) (selected : List Bool) (k : Nat)
    (hk : k < selected.length) :
    (lineIndices.foldl (fun selected index => selected.set index true) selected)[k]? =
      if lineIndices.contains k then some true else selected[k]? := by
  induction lineIndices generalizing selected with
  | nil => rfl
  | cons index lineIndices ih =>
    rw [List.foldl_cons, ih _ (by simpa using hk), List.contains_cons]
    by_cases hMem : lineIndices.contains k = true
    · simp only [hMem, Bool.or_true, if_true]
    · rw [Bool.not_eq_true] at hMem
      by_cases hIndex : k = index
      · subst hIndex
        simp only [hMem, Bool.false_eq_true, if_false, beq_self_eq_true, Bool.true_or, if_true]
        exact List.getElem?_set_self hk
      · have hBeq : (k == index) = false := beq_eq_false_iff_ne.mpr hIndex
        simp only [hMem, hBeq, Bool.or_self, Bool.false_eq_true, if_false]
        exact List.getElem?_set_ne (Ne.symm hIndex)

theorem getD_selection (hunk : DiffHunk) (lineIndices : List Nat) {k : Nat}
    (hk : k < hunk.lines.length) :
    (selection hunk lineIndices).getD k false = (lineIndices.isEmpty || lineIndices.contains k) := by
  rw [selection, List.getD_eq_getElem?_getD, getElem?_foldl_set _ _ _ (by simpa using hk)]
  cases hMem : lineIndices.contains k with
  | true => simp
  | false => simp [hk]

theorem chosen_edit (line : DiffLine) (isSelected : Bool) :
    (if line.kind.isChange && isSelected then line.edit? else none) =
      line.edit?.filter fun e => e.isChange && isSelected := by
  cases hEdit : line.edit? with
  | none => simp
  | some e =>
    rw [← DiffLine.isChange_edit? hEdit]
    cases hChange : e.isChange <;> cases isSelected <;> simp [hChange, Option.filter]

theorem chosen_eq (hunk : DiffHunk) (lineIndices : List Nat) :
    chosen hunk lineIndices =
      ((marked hunk.lines (selection hunk lineIndices)).filter fun m => m.1.isChange && m.2).map
        Prod.fst := by
  rw [chosen, marked, List.mapIdx_eq_zipIdx_map, List.filterMap_map, List.filter_filterMap,
    List.map_filterMap]
  apply List.filterMap_congr
  rintro ⟨line, k⟩ hMem
  obtain ⟨_, hk, _⟩ := List.mem_zipIdx hMem
  have hSelected := getD_selection hunk lineIndices (k := k) (by omega)
  simp only [Function.comp_apply, id_eq, hSelected, chosen_edit]
  cases line.edit? with
  | none => rfl
  | some e => simp only [Option.map_some, Option.filter_some]; split <;> rfl

theorem chosen_all {hunk : DiffHunk} {lineIndices : List Nat}
    (h : ∀ (k : Nat) (line : DiffLine), hunk.lines[k]? = some line → line.kind.isChange = true →
      lineIndices.isEmpty || lineIndices.contains k) :
    chosen hunk lineIndices = hunk.script.filter Edit.isChange := by
  have hFst : hunk.lines = hunk.lines.zipIdx.map Prod.fst := by simp
  rw [chosen, DiffHunk.script]
  conv => rhs; rw [hFst]
  rw [List.filterMap_map, List.filter_filterMap]
  apply List.filterMap_congr
  rintro ⟨line, k⟩ hMem
  have hLine := h k line (List.mk_mem_zipIdx_iff_getElem?.mp hMem)
  have hAll := chosen_edit line true
  simp only [Bool.and_true] at hAll
  simp only [Function.comp_apply]
  rw [← hAll]
  cases hChange : line.kind.isChange with
  | false => rw [Bool.false_and]
  | true => rw [hLine hChange, Bool.and_self]

theorem chosen_of_covers {file : DiffFile} {hunk : DiffHunk} {lineIndices : List Nat}
    (h : selectionCoversWholeAddedFile file hunk (selection hunk lineIndices) = true) :
    chosen hunk lineIndices = hunk.script.filter Edit.isChange := by
  apply chosen_all
  intro k line hLine hChange
  simp only [selectionCoversWholeAddedFile, Bool.and_eq_true, List.all_eq_true] at h
  have hSelected := h.2 (line, k) (List.mk_mem_zipIdx_iff_getElem?.mpr hLine)
  have hk : k < hunk.lines.length := (List.getElem?_eq_some_iff.mp hLine).1
  rw [getD_selection hunk lineIndices hk] at hSelected
  simpa [hChange] using hSelected

/-! ## What a planned write touches -/

theorem lf_not_mem_ranges (oldStart oldCount newStart newCount : UInt32) :
    ∃ line, LF ∉ line ∧ hunkRanges oldStart oldCount newStart newCount = line ++ [LF] := by
  have hNumber : ∀ n : UInt32, LF ∉ uintToString n := fun n =>
    Library.Decimal.not_mem_numeral _ (by decide)
  refine ⟨_, ?_, rfl⟩
  simp only [List.mem_append, hNumber, or_false]
  decide

theorem afterLine_ranges (oldStart oldCount newStart newCount : UInt32) (body : Bytes) :
    afterLine (hunkRanges oldStart oldCount newStart newCount ++ body) = body := by
  obtain ⟨line, hLine, hRanges⟩ := lf_not_mem_ranges oldStart oldCount newStart newCount
  have hAll : ∀ b ∈ line, decide (b ≠ LF) = true := by
    intro b hb
    simp only [decide_eq_true_eq]
    rintro rfl
    exact hLine hb
  rw [hRanges, afterLine, List.append_assoc, List.dropWhile_append_of_pos hAll]
  simp

theorem patchChanges_eq (file : DiffFile) (unstaging : Bool) (oldStart oldCount newStart newCount : UInt32)
    (body : Bytes) :
    patchChanges file unstaging
        (patchHeaderOf file unstaging ++ hunkRanges oldStart oldCount newStart newCount ++ body) =
      (readBody body).filter Edit.isChange := by
  rw [patchChanges, List.append_assoc, List.drop_left, afterLine_ranges]

theorem readBody_hunkLine {hunk : DiffHunk} (h : ∀ line ∈ hunk.lines, LF ∉ line.text) :
    readBody (hunk.lines.flatMap (hunkLine false)) = hunk.script := by
  have hEmit : hunk.lines.flatMap (hunkLine false) =
      (hunk.lines.map emitAll).flatMap EmittedLine.bytes := by
    rw [List.flatMap_map]
    exact List.flatMap_congr fun line _ => (emitAll_tests line).1.symm
  rw [hEmit, readBody_flatMap, List.filterMap_map, DiffHunk.script]
  · apply List.filterMap_congr
    intro line _
    rw [Function.comp_apply, emitAll, DiffLine.edit?]
    cases line.kind <;> rfl
  · intro emitted hMem
    obtain ⟨line, hLine, rfl⟩ := List.mem_map.mp hMem
    refine ⟨h line hLine, ?_⟩
    rw [emitAll]
    cases line.kind <;> simp [space, plus, minus, backslash, LF]

theorem hunkPatch_changes (file : DiffFile) {hunk : DiffHunk} (h : ∀ line ∈ hunk.lines, LF ∉ line.text)
    (unstaging : Bool) :
    patchChanges file unstaging (buildHunkPatch file hunk false unstaging) = chosen hunk [] := by
  rw [buildHunkPatch]
  simp only [Bool.false_eq_true, if_false]
  rw [patchChanges_eq, readBody_hunkLine h, chosen_all (by simp)]

theorem filter_selectLines (hunk : DiffHunk) (lineIndices : List Nat) (unstaging : Bool) :
    ((selectLines unstaging false hunk.lines (selection hunk lineIndices)).filterMap
      EmittedLine.edit?).filter Edit.isChange = chosen hunk lineIndices := by
  rw [filterMap_selectLines, chosen_eq]
  cases unstaging
  · exact filter_pick _
  · exact filter_unpick _

theorem selectionPatch_changes (file : DiffFile) {hunk : DiffHunk}
    (h : ∀ line ∈ hunk.lines, LF ∉ line.text) (lineIndices : List Nat) (unstaging : Bool) :
    (buildLineSelectionPatch file hunk (selection hunk lineIndices) unstaging = [] ↔
      chosen hunk lineIndices = []) ∧
    (buildLineSelectionPatch file hunk (selection hunk lineIndices) unstaging ≠ [] →
      patchChanges file unstaging
        (buildLineSelectionPatch file hunk (selection hunk lineIndices) unstaging) =
          chosen hunk lineIndices) := by
  have hFilter := filter_selectLines hunk lineIndices unstaging
  have hAny : (selectLines unstaging false hunk.lines (selection hunk lineIndices)).any
      EmittedLine.changes = false ↔ chosen hunk lineIndices = [] := by
    rw [any_changes, ← hFilter, List.filter_eq_nil_iff, List.any_eq_false]
  rw [buildLineSelectionPatch]
  cases hChanges : (selectLines unstaging false hunk.lines (selection hunk lineIndices)).any
      EmittedLine.changes with
  | false => simp [hAny.mp hChanges]
  | true =>
    have hSome : chosen hunk lineIndices ≠ [] := fun hNone => by
      rw [hAny.mpr hNone] at hChanges
      cases hChanges
    simp only [Bool.not_true, Bool.false_eq_true, if_false, patchChanges_eq]
    refine ⟨by simp [hunkRanges_ne_nil, hSome], fun _ => ?_⟩
    rw [readBody_flatMap, hFilter]
    intro emitted hMem
    obtain ⟨⟨line, hLine, hText⟩, hMarker⟩ := mem_selectLines hMem
    exact ⟨hText ▸ h line hLine, hMarker⟩

theorem patch_changes (file : DiffFile) {hunk : DiffHunk} (h : ∀ line ∈ hunk.lines, LF ∉ line.text)
    (lineIndices : List Nat) (unstaging : Bool) :
    let patch := if lineIndices.isEmpty then buildHunkPatch file hunk false unstaging
      else buildLineSelectionPatch file hunk (selection hunk lineIndices) unstaging
    (patch = [] ↔ lineIndices ≠ [] ∧ chosen hunk lineIndices = []) ∧
      (patch ≠ [] → patchChanges file unstaging patch = chosen hunk lineIndices) := by
  cases lineIndices with
  | nil =>
    have hne : buildHunkPatch file hunk false unstaging ≠ [] := by
      simp [buildHunkPatch, hunkRanges_ne_nil]
    exact ⟨by simp [hne], fun _ => hunkPatch_changes file h unstaging⟩
  | cons index lineIndices =>
    have hPatch := selectionPatch_changes file h (index :: lineIndices) unstaging
    exact ⟨by simpa using hPatch.1, hPatch.2⟩

end GitBranchManager
