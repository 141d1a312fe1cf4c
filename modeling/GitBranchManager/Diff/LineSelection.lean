import GitBranchManager.Diff.PatchBuilder
import GitBranchManager.Library.EditScript

/-! # What a line-selection patch says

A hunk is an edit script with no-newline annotations. The body the builder emits is
the script cut down to the selected changes, against the old side when staging and
against the new side when unstaging.
-/

namespace GitBranchManager

open Library.EditScript

/-- The edit a hunk line stands for; a no-newline marker is none. -/
def DiffLine.edit? (line : DiffLine) : Option (Edit Bytes) :=
  match line.kind with
  | .context => some (.keep line.text)
  | .added => some (.insert line.text)
  | .removed => some (.delete line.text)
  | .noNewlineMarker => none

def DiffHunk.script (hunk : DiffHunk) : List (Edit Bytes) := hunk.lines.filterMap DiffLine.edit?

theorem DiffLine.isChange_edit? {line : DiffLine} {e : Edit Bytes} (h : line.edit? = some e) :
    e.isChange = line.kind.isChange := by
  rw [DiffLine.edit?] at h
  cases hKind : line.kind <;> rw [hKind] at h <;> cases h <;> rfl

theorem DiffLine.isChange_of_edit?_none {line : DiffLine} (h : line.edit? = none) :
    line.kind.isChange = false := by
  rw [DiffLine.edit?] at h
  cases hKind : line.kind <;> rw [hKind] at h <;> first | rfl | cases h

namespace UnifiedDiffParser

def marked (lines : List DiffLine) (selected : List Bool) : List (Edit Bytes × Bool) :=
  (lines.mapIdx fun i line => line.edit?.map (·, selected.getD i false)).filterMap id

/-- One line of a unified hunk, read back by its first byte. -/
def readLine (line : Bytes) : Option (Edit Bytes) :=
  if line.head? = some space then some (.keep line.tail)
  else if line.head? = some plus then some (.insert line.tail)
  else if line.head? = some minus then some (.delete line.tail)
  else none

def readBody (body : Bytes) : List (Edit Bytes) :=
  (Library.Lines.cut LF body).1.filterMap readLine

def EmittedLine.edit? (emitted : EmittedLine) : Option (Edit Bytes) :=
  readLine (emitted.marker :: emitted.text)

theorem filterMap_toList {α β : Type} (f : α → Option β) (o : Option α) :
    o.toList.filterMap f = (o.bind f).toList := by
  cases o with
  | none => rfl
  | some a => cases h : f a <;> simp [h]

theorem marked_cons (line : DiffLine) (lines : List DiffLine) (selected : List Bool) :
    marked (line :: lines) selected =
      (line.edit?.map (·, selected.headD false)).toList ++ marked lines selected.tail := by
  have hTail : ∀ i, selected.getD (i + 1) false = selected.tail.getD i false := by
    intro i
    cases selected <;> simp
  have hHead : selected.getD 0 false = selected.headD false := by
    cases selected <;> rfl
  simp only [marked, List.mapIdx_cons, hTail, hHead, List.filterMap_cons, id_eq]
  cases line.edit? <;> simp

theorem map_fst_marked (lines : List DiffLine) (selected : List Bool) :
    (marked lines selected).map Prod.fst = lines.filterMap DiffLine.edit? := by
  induction lines generalizing selected with
  | nil => rfl
  | cons line lines ih =>
    rw [marked_cons, List.map_append, ih, List.filterMap_cons]
    cases line.edit? <;> rfl

/-- The marker one turn of the loop emits the line under, if it emits it. -/
def emitMarker (unstaging previous isSelected : Bool) : DiffLineKind → Option UInt8
  | .context => some space
  | .added => if isSelected then some plus else if unstaging then some space else none
  | .removed => if isSelected then some minus else if unstaging then none else some space
  | .noNewlineMarker => if previous then some backslash else none

def nextEmitted (unstaging previous isSelected : Bool) (kind : DiffLineKind) : Bool :=
  if kind = .noNewlineMarker then previous
  else (emitMarker unstaging previous isSelected kind).isSome

theorem selectLines_cons (unstaging previous : Bool) (line : DiffLine) (lines : List DiffLine)
    (selected : List Bool) :
    selectLines unstaging previous (line :: lines) selected =
      ((emitMarker unstaging previous (selected.headD false) line.kind).map
        (EmittedLine.mk · line.text)).toList ++
      selectLines unstaging (nextEmitted unstaging previous (selected.headD false) line.kind)
        lines selected.tail := by
  rw [selectLines]
  cases hKind : line.kind with
  | context => rfl
  | added => cases unstaging <;> cases selected.headD false <;> rfl
  | removed => cases unstaging <;> cases selected.headD false <;> rfl
  | noNewlineMarker => cases previous <;> rfl

theorem emitMarker_ne_lf {unstaging previous isSelected : Bool} {kind : DiffLineKind} {marker : UInt8}
    (h : emitMarker unstaging previous isSelected kind = some marker) : marker ≠ LF := by
  cases kind <;> cases unstaging <;> cases previous <;> cases isSelected <;> cases h <;> decide

theorem edit?_emitMarker (unstaging previous isSelected : Bool) (line : DiffLine) :
    ((emitMarker unstaging previous isSelected line.kind).map (EmittedLine.mk · line.text)).bind
        EmittedLine.edit? =
      (line.edit?.map (·, isSelected)).bind (if unstaging then unpickEdit else pickEdit) := by
  rw [DiffLine.edit?]
  cases line.kind <;> cases unstaging <;> cases previous <;> cases isSelected <;> rfl

theorem filterMap_selectLines (unstaging previous : Bool) (lines : List DiffLine)
    (selected : List Bool) :
    (selectLines unstaging previous lines selected).filterMap EmittedLine.edit? =
      (marked lines selected).filterMap (if unstaging then unpickEdit else pickEdit) := by
  induction lines generalizing previous selected with
  | nil => rfl
  | cons line lines ih =>
    have hLine := edit?_emitMarker unstaging previous (selected.headD false) line
    rw [selectLines_cons, marked_cons, List.filterMap_append, List.filterMap_append, ih]
    rw [filterMap_toList, filterMap_toList, hLine]

theorem EmittedLine.tests (emitted : EmittedLine) :
    emitted.changes = emitted.edit?.any Edit.isChange ∧
    emitted.onOldSide = (emitted.edit?.bind Edit.before).isSome ∧
    emitted.onNewSide = (emitted.edit?.bind Edit.after).isSome := by
  obtain ⟨marker, text⟩ := emitted
  by_cases hSpace : marker = space
  · subst hSpace; exact ⟨rfl, rfl, rfl⟩
  by_cases hPlus : marker = plus
  · subst hPlus; exact ⟨rfl, rfl, rfl⟩
  by_cases hMinus : marker = minus
  · subst hMinus; exact ⟨rfl, rfl, rfl⟩
  simp [edit?, changes, onOldSide, onNewSide, readLine, hSpace, hPlus, hMinus]

theorem any_changes (body : List EmittedLine) :
    body.any EmittedLine.changes = (body.filterMap EmittedLine.edit?).any Edit.isChange := by
  rw [List.any_filterMap]
  congr 1
  funext emitted
  rw [emitted.tests.1]
  cases emitted.edit? <;> rfl

theorem countP_onOldSide (body : List EmittedLine) :
    body.countP EmittedLine.onOldSide = (before (body.filterMap EmittedLine.edit?)).length := by
  rw [before, List.filterMap_filterMap, List.length_filterMap_eq_countP]
  exact List.countP_congr fun emitted _ => by rw [emitted.tests.2.1]

theorem countP_onNewSide (body : List EmittedLine) :
    body.countP EmittedLine.onNewSide = (after (body.filterMap EmittedLine.edit?)).length := by
  rw [after, List.filterMap_filterMap, List.length_filterMap_eq_countP]
  exact List.countP_congr fun emitted _ => by rw [emitted.tests.2.2]

/-- Printed lines free of `\n` are read back one by one. -/
theorem readBody_flatMap (body : List EmittedLine)
    (h : ∀ emitted ∈ body, LF ∉ emitted.text ∧ emitted.marker ≠ LF) :
    readBody (body.flatMap EmittedLine.bytes) = body.filterMap EmittedLine.edit? := by
  induction body with
  | nil => rfl
  | cons emitted body ih =>
    obtain ⟨hText, hMarker⟩ := h emitted List.mem_cons_self
    have hRest := ih fun e he => h e (List.mem_cons_of_mem _ he)
    obtain ⟨marker, text⟩ := emitted
    by_cases hBackslash : marker = backslash
    · subst hBackslash
      have hLine : LF ∉ noNewlineText := by decide
      rw [List.flatMap_cons, EmittedLine.bytes, if_pos rfl, List.append_assoc, List.singleton_append,
        readBody, Library.Lines.cut_line LF hLine, List.filterMap_cons]
      exact hRest
    · have hLine : LF ∉ marker :: text := by
        simp only [List.mem_cons, not_or]
        exact ⟨fun he => hMarker he.symm, hText⟩
      rw [List.flatMap_cons, EmittedLine.bytes, if_neg hBackslash, List.append_assoc,
        List.singleton_append, readBody, Library.Lines.cut_line LF hLine, List.filterMap_cons,
        List.filterMap_cons, EmittedLine.edit?, ← hRest]
      rfl

theorem mem_selectLines {unstaging previous : Bool} {lines : List DiffLine} {selected : List Bool}
    {emitted : EmittedLine} (h : emitted ∈ selectLines unstaging previous lines selected) :
    (∃ line ∈ lines, emitted.text = line.text) ∧ emitted.marker ≠ LF := by
  induction lines generalizing previous selected with
  | nil => cases h
  | cons line lines ih =>
    rw [selectLines_cons, List.mem_append] at h
    rcases h with h | h
    · obtain ⟨marker, hMarker, rfl⟩ := Option.map_eq_some_iff.mp (Option.mem_toList.mp h)
      exact ⟨⟨line, List.mem_cons_self, rfl⟩, emitMarker_ne_lf hMarker⟩
    · obtain ⟨⟨l, hl, he⟩, hMarker⟩ := ih h
      exact ⟨⟨l, List.mem_cons_of_mem _ hl, he⟩, hMarker⟩

theorem mem_marked {lines : List DiffLine} {selected : List Bool} {m : Edit Bytes × Bool} :
    m ∈ marked lines selected ↔
      ∃ i line, lines[i]? = some line ∧ line.edit? = some m.1 ∧ selected.getD i false = m.2 := by
  obtain ⟨e, mark⟩ := m
  simp only [marked, List.mem_filterMap, id_eq, exists_eq_right, List.mem_mapIdx,
    Option.map_eq_some_iff, Prod.mk.injEq]
  constructor
  · rintro ⟨i, hi, _, hEdit, rfl, hMark⟩
    exact ⟨i, lines[i], List.getElem?_eq_getElem hi, hEdit, hMark⟩
  · rintro ⟨i, line, hLine, hEdit, hMark⟩
    obtain ⟨hi, rfl⟩ := List.getElem?_eq_some_iff.mp hLine
    exact ⟨i, hi, e, hEdit, rfl, hMark⟩

theorem no_marked_change (lines : List DiffLine) (selected : List Bool) :
    ((marked lines selected).any fun m => m.1.isChange && m.2) = false ↔
      ∀ (i : Nat) (line : DiffLine), lines[i]? = some line → selected[i]? = some true →
        line.kind.isChange = false := by
  rw [List.any_eq_false]
  constructor
  · intro h i line hLine hSelected
    cases hEdit : line.edit? with
    | none => exact DiffLine.isChange_of_edit?_none hEdit
    | some e =>
      have hMem : (e, true) ∈ marked lines selected :=
        mem_marked.mpr ⟨i, line, hLine, hEdit, by simp [List.getD, hSelected]⟩
      simpa [DiffLine.isChange_edit? hEdit] using h _ hMem
  · rintro h ⟨e, mark⟩ hMem hTrue
    simp only [Bool.and_eq_true] at hTrue
    obtain ⟨i, line, hLine, hEdit, hMark⟩ := mem_marked.mp hMem
    have hSelected : selected[i]? = some true := by
      cases hGet : selected[i]? with
      | none => simp [List.getD, hGet, hTrue.2] at hMark
      | some b => simpa [List.getD, hGet, hTrue.2] using hMark
    have hKind := h i line hLine hSelected
    rw [← DiffLine.isChange_edit? hEdit, hTrue.1] at hKind
    cases hKind

theorem any_changes_selectLines (unstaging : Bool) (lines : List DiffLine) (selected : List Bool) :
    (selectLines unstaging false lines selected).any EmittedLine.changes = false ↔
      ∀ (i : Nat) (line : DiffLine), lines[i]? = some line → selected[i]? = some true →
        line.kind.isChange = false := by
  rw [← no_marked_change, any_changes, filterMap_selectLines]
  cases unstaging
  · exact iff_of_eq (congrArg (· = false) (any_pick _))
  · exact iff_of_eq (congrArg (· = false) (any_unpick _))

def scriptOf (body : List EmittedLine) : List (Edit Bytes) := body.filterMap EmittedLine.edit?

theorem hunkRanges_ne_nil (oldStart oldCount newStart newCount : UInt32) :
    hunkRanges oldStart oldCount newStart newCount ≠ [] := by
  simp [hunkRanges]

/-- The patch is empty exactly when nothing changed is selected. Otherwise its body, read
as a unified hunk, is the hunk's old side turned into the old side with exactly the
selected changes applied (staging), or the new side with exactly these undone turned
into the new side (unstaging). The 32-bit counts are those of the two sides. -/
theorem buildLineSelectionPatch_semantics (file : DiffFile) (hunk : DiffHunk)
    (selected : List Bool) (unstaging : Bool) :
    (buildLineSelectionPatch file hunk selected unstaging = [] ↔
      ∀ (i : Nat) (line : DiffLine), hunk.lines[i]? = some line → selected[i]? = some true →
        line.kind.isChange = false) ∧
    (buildLineSelectionPatch file hunk selected unstaging ≠ [] →
      ∃ (oldCount newCount : UInt32) (body : List EmittedLine),
        buildLineSelectionPatch file hunk selected unstaging =
          patchHeaderOf file unstaging ++
            hunkRanges hunk.oldStart oldCount hunk.newStart newCount ++
            body.flatMap EmittedLine.bytes ∧
        ((∀ line ∈ hunk.lines, LF ∉ line.text) →
          readBody (body.flatMap EmittedLine.bytes) = scriptOf body) ∧
        oldCount.toNat = (before (scriptOf body)).length % 2 ^ 32 ∧
        newCount.toNat = (after (scriptOf body)).length % 2 ^ 32 ∧
        (unstaging = false → before (scriptOf body) = before hunk.script ∧
          after (scriptOf body) = applied (marked hunk.lines selected)) ∧
        (unstaging = true → after (scriptOf body) = after hunk.script ∧
          before (scriptOf body) = undone (marked hunk.lines selected))) := by
  have hScript := filterMap_selectLines unstaging false hunk.lines selected
  have hFst : (marked hunk.lines selected).map Prod.fst = hunk.script := map_fst_marked _ _
  constructor
  · rw [← any_changes_selectLines unstaging, buildLineSelectionPatch]
    cases hChanges : (selectLines unstaging false hunk.lines selected).any EmittedLine.changes with
    | false => simp
    | true => simp [hunkRanges_ne_nil]
  · intro hPatch
    rw [buildLineSelectionPatch] at hPatch ⊢
    cases hChanges : (selectLines unstaging false hunk.lines selected).any EmittedLine.changes with
    | false => simp [hChanges] at hPatch
    | true =>
      refine ⟨_, _, selectLines unstaging false hunk.lines selected, rfl, ?_, ?_, ?_, ?_, ?_⟩
      · intro hLf
        apply readBody_flatMap
        intro emitted hMem
        obtain ⟨⟨line, hLine, hText⟩, hMarker⟩ := mem_selectLines hMem
        exact ⟨hText ▸ hLf line hLine, hMarker⟩
      · rw [countLines_eq, countP_onOldSide, UInt32.toNat_ofNat']
        rfl
      · rw [countLines_eq, countP_onNewSide, UInt32.toNat_ofNat']
        rfl
      · rintro rfl
        rw [scriptOf, hScript, ← hFst]
        exact ⟨before_pick _, after_pick _⟩
      · rintro rfl
        rw [scriptOf, hScript, ← hFst]
        exact ⟨after_unpick _, before_unpick _⟩

end UnifiedDiffParser

end GitBranchManager
