import GitBranchManager.Diff.LineEndings

/-! # Patches of hunks that differ only in their texts

Which lines a patch prints, and under which marker, depends on the kinds of the hunk's
lines alone. Two hunks with the same kinds give the same patch exactly when they agree
on the text of every content line the patch prints.
-/

namespace GitBranchManager.UnifiedDiffParser

inductive PatchRequest
  | whole (reverse unstaging : Bool)
  | selection (selected : List Bool) (unstaging : Bool)

def PatchRequest.build (file : DiffFile) (hunk : DiffHunk) : PatchRequest → Bytes
  | .whole reverse unstaging => buildHunkPatch file hunk reverse unstaging
  | .selection selected unstaging => buildLineSelectionPatch file hunk selected unstaging

/-- Line `k` of a hunk with these kinds is printed with its own content. -/
def PatchRequest.Emits (kinds : List DiffLineKind) (k : Nat) : PatchRequest → Prop
  | .whole _ _ => ∃ kind, kinds[k]? = some kind ∧ kind ≠ .noNewlineMarker
  | .selection selected unstaging =>
    (∃ (m : Nat) (kind : DiffLineKind), kinds[m]? = some kind ∧ kind.isChange = true ∧ selected[m]? = some true) ∧
    ∃ kind : DiffLineKind, kinds[k]? = some kind ∧ (kind = .context ∨
      kind.isChange = true ∧ selected[k]? = some true ∨ kind = if unstaging then .added else .removed)

/-- Equal in everything but the text of a content line. -/
structure SameLine (line line' : DiffLine) : Prop where
  kind : line'.kind = line.kind
  lf : LF ∉ line.text
  lf' : LF ∉ line'.text

theorem append_lf_inj {a b x y : Bytes} (ha : LF ∉ a) (hb : LF ∉ b) :
    a ++ LF :: x = b ++ LF :: y ↔ a = b ∧ x = y := by
  constructor
  · intro h
    have hCut := Library.Lines.cut_line LF ha x
    rw [h, Library.Lines.cut_line LF hb y] at hCut
    have hLine : b = a := by simpa using congrArg (fun c => c.1.head?) hCut
    subst hLine
    exact ⟨rfl, by simpa using h⟩
  · rintro ⟨rfl, rfl⟩
    rfl

theorem emitted_bytes_inj {marker : UInt8} (hMarker : marker ≠ LF) {text text' x y : Bytes}
    (hText : LF ∉ text) (hText' : LF ∉ text') :
    EmittedLine.bytes ⟨marker, text⟩ ++ x = EmittedLine.bytes ⟨marker, text'⟩ ++ y ↔
      (marker ≠ backslash → text = text') ∧ x = y := by
  by_cases hBackslash : marker = backslash
  · subst hBackslash
    have hLine : ∀ t : Bytes, EmittedLine.bytes ⟨backslash, t⟩ = noNewlineText ++ [LF] := fun t => rfl
    rw [hLine, hLine, List.append_right_inj]
    simp
  · have hLine : ∀ t z : Bytes, EmittedLine.bytes ⟨marker, t⟩ ++ z = (marker :: t) ++ LF :: z := by
      intro t z
      rw [EmittedLine.bytes, if_neg hBackslash]
      simp
    have hFree : ∀ t : Bytes, LF ∉ t → LF ∉ marker :: t := by
      intro t ht
      simp only [List.mem_cons, not_or]
      exact ⟨Ne.symm hMarker, ht⟩
    rw [hLine, hLine, append_lf_inj (hFree text hText) (hFree text' hText')]
    simp [hBackslash]

/-- The marker each line is printed under, if it is printed. -/
def emitMarks (unstaging : Bool) : Bool → List DiffLineKind → List Bool → List (Option UInt8)
  | _, [], _ => []
  | previous, kind :: kinds, selected =>
    emitMarker unstaging previous (selected.headD false) kind ::
      emitMarks unstaging (nextEmitted unstaging previous (selected.headD false) kind) kinds selected.tail

def printMarked : List (Option UInt8) → List DiffLine → Bytes
  | [], _ => []
  | _ :: _, [] => []
  | mark :: marks, line :: lines =>
    (mark.map (EmittedLine.mk · line.text)).toList.flatMap EmittedLine.bytes ++ printMarked marks lines

theorem printMarked_cons (mark : Option UInt8) (marks : List (Option UInt8)) (line : DiffLine)
    (lines : List DiffLine) :
    printMarked (mark :: marks) (line :: lines) =
      (mark.map (EmittedLine.mk · line.text)).toList.flatMap EmittedLine.bytes ++
        printMarked marks lines := rfl

theorem flatMap_selectLines (unstaging previous : Bool) (lines : List DiffLine) (selected : List Bool) :
    (selectLines unstaging previous lines selected).flatMap EmittedLine.bytes =
      printMarked (emitMarks unstaging previous (lines.map DiffLine.kind) selected) lines := by
  induction lines generalizing previous selected with
  | nil => rfl
  | cons line lines ih =>
    rw [selectLines_cons, List.flatMap_append, ih, List.map_cons, emitMarks, printMarked_cons]

def hunkMarker (reverse : Bool) : DiffLineKind → UInt8
  | .context => space
  | .added => if reverse then minus else plus
  | .removed => if reverse then plus else minus
  | .noNewlineMarker => backslash

theorem flatMap_hunkLine (reverse : Bool) (lines : List DiffLine) :
    lines.flatMap (hunkLine reverse) =
      printMarked (lines.map fun line => some (hunkMarker reverse line.kind)) lines := by
  induction lines with
  | nil => rfl
  | cons line lines ih =>
    have hLine : hunkLine reverse line = EmittedLine.bytes ⟨hunkMarker reverse line.kind, line.text⟩ := by
      rw [hunkLine]
      cases line.kind <;> cases reverse <;> rfl
    rw [List.flatMap_cons, ih, hLine, List.map_cons, printMarked_cons]
    simp

theorem printMarked_eq_iff {marks : List (Option UInt8)} {lines lines' : List DiffLine}
    (hMarks : ∀ marker, some marker ∈ marks → marker ≠ LF)
    (h : List.Forall₂ SameLine lines lines') :
    printMarked marks lines = printMarked marks lines' ↔
      ∀ (k : Nat) (line line' : DiffLine) (marker : UInt8), lines[k]? = some line →
        lines'[k]? = some line' → marks[k]? = some (some marker) → marker ≠ backslash →
        line.text = line'.text := by
  induction h generalizing marks with
  | nil => simp
  | @cons line line' lines lines' hLine _ ih =>
    cases marks with
    | nil => simp [printMarked]
    | cons mark marks =>
      have hRest := ih fun marker hMem => hMarks marker (List.mem_cons_of_mem _ hMem)
      have hHead : printMarked (mark :: marks) (line :: lines) =
            printMarked (mark :: marks) (line' :: lines') ↔
          (∀ marker, mark = some marker → marker ≠ backslash → line.text = line'.text) ∧
            printMarked marks lines = printMarked marks lines' := by
        cases mark with
        | none => simp [printMarked_cons]
        | some marker =>
          have hMarker := hMarks marker List.mem_cons_self
          rw [printMarked_cons, printMarked_cons]
          simpa using emitted_bytes_inj hMarker hLine.lf hLine.lf'
      rw [hHead, hRest]
      constructor
      · rintro ⟨hFirst, hAll⟩ k l l' marker hl hl' hMark
        cases k with
        | zero =>
          obtain rfl := Option.some.inj hl
          obtain rfl := Option.some.inj hl'
          exact hFirst marker (Option.some.inj hMark)
        | succ k => exact hAll k l l' marker hl hl' hMark
      · intro hAll
        exact ⟨fun marker hMark => hAll 0 line line' marker rfl rfl (congrArg some hMark),
          fun k l l' marker hl hl' hMark => hAll (k + 1) l l' marker hl hl' hMark⟩

/-! ## Both builders -/

theorem emitMarker_eq_some {unstaging isSelected : Bool} {kind : DiffLineKind} :
    (∃ marker, emitMarker unstaging false isSelected kind = some marker ∧ marker ≠ backslash) ↔
      kind = .context ∨ kind.isChange = true ∧ isSelected = true ∨
        kind = if unstaging then .added else .removed := by
  cases kind <;> cases unstaging <;> cases isSelected <;> decide

theorem getElem?_emitMarks {unstaging : Bool} {marker : UInt8} (hMarker : marker ≠ backslash)
    (previous : Bool) (kinds : List DiffLineKind) (selected : List Bool) (k : Nat) :
    (emitMarks unstaging previous kinds selected)[k]? = some (some marker) ↔
      ∃ kind, kinds[k]? = some kind ∧
        emitMarker unstaging false (selected[k]? == some true) kind = some marker := by
  induction kinds generalizing previous selected k with
  | nil => simp [emitMarks]
  | cons kind kinds ih =>
    cases k with
    | zero =>
      have hHead : selected.headD false = (selected[0]? == some true) := by
        cases selected with
        | nil => rfl
        | cons b selected => cases b <;> rfl
      simp only [emitMarks, List.getElem?_cons_zero, Option.some.injEq, hHead, exists_eq_left']
      cases kind with
      | noNewlineMarker =>
        cases previous with
        | false => exact Iff.rfl
        | true => simp [emitMarker, Ne.symm hMarker]
      | context => exact Iff.rfl
      | added => exact Iff.rfl
      | removed => exact Iff.rfl
    | succ k =>
      have hTail : selected.tail[k]? = selected[k + 1]? := by
        cases selected <;> rfl
      simp only [emitMarks, List.getElem?_cons_succ, ih, hTail]

theorem ne_lf_of_mem_emitMarks {unstaging previous : Bool} {kinds : List DiffLineKind}
    {selected : List Bool} {marker : UInt8}
    (h : some marker ∈ emitMarks unstaging previous kinds selected) : marker ≠ LF := by
  induction kinds generalizing previous selected with
  | nil => cases h
  | cons kind kinds ih =>
    rcases List.mem_cons.mp h with h | h
    · exact emitMarker_ne_lf h.symm
    · exact ih h

theorem map_marker_selectLines {lines lines' : List DiffLine} (h : List.Forall₂ SameLine lines lines')
    (unstaging previous : Bool) (selected : List Bool) :
    (selectLines unstaging previous lines' selected).map EmittedLine.marker =
      (selectLines unstaging previous lines selected).map EmittedLine.marker := by
  induction h generalizing previous selected with
  | nil => rfl
  | cons hLine _ ih =>
    rw [selectLines_cons, selectLines_cons, hLine.kind, List.map_append, List.map_append, ih]
    congr 1
    cases emitMarker unstaging previous (selected.headD false) _ <;> rfl

theorem map_kind_eq {lines lines' : List DiffLine} (h : List.Forall₂ SameLine lines lines') :
    lines'.map DiffLine.kind = lines.map DiffLine.kind := by
  induction h with
  | nil => rfl
  | cons hLine _ ih => rw [List.map_cons, List.map_cons, hLine.kind, ih]

theorem buildHunkPatch_eq_iff (file : DiffFile) (hunk : DiffHunk) {lines : List DiffLine}
    (h : List.Forall₂ SameLine hunk.lines lines) (reverse unstaging : Bool) :
    buildHunkPatch file hunk reverse unstaging =
        buildHunkPatch file { hunk with lines := lines } reverse unstaging ↔
      ∀ (k : Nat) (line line' : DiffLine), hunk.lines[k]? = some line → lines[k]? = some line' →
        line.kind ≠ .noNewlineMarker → line.text = line'.text := by
  have hKinds := map_kind_eq h
  have hCount : ∀ p : DiffLineKind → Bool, countLines (fun line : DiffLine => p line.kind) lines =
      countLines (fun line : DiffLine => p line.kind) hunk.lines := by
    intro p
    rw [← countLines_map DiffLine.kind p, ← countLines_map DiffLine.kind p, hKinds]
  have hMarks : (lines.map fun line => some (hunkMarker reverse line.kind)) =
      hunk.lines.map fun line => some (hunkMarker reverse line.kind) := by
    have hMap := congrArg (List.map fun kind => some (hunkMarker reverse kind)) hKinds
    simpa [Function.comp_def] using hMap
  rw [buildHunkPatch, buildHunkPatch]
  simp only [hCount, flatMap_hunkLine, hMarks, List.append_right_inj]
  rw [printMarked_eq_iff _ h]
  · constructor
    · intro hAll k line line' hl hl' hKind
      refine hAll k line line' (hunkMarker reverse line.kind) hl hl' (by simp [hl]) ?_
      cases hk : line.kind with
      | noNewlineMarker => exact absurd hk hKind
      | context => exact (by decide : space ≠ backslash)
      | added => cases reverse <;> decide
      | removed => cases reverse <;> decide
    · intro hAll k line line' marker hl hl' hMark hMarker
      refine hAll k line line' hl hl' fun hKind => hMarker ?_
      simp only [List.getElem?_map, hl, Option.map_some, Option.some.injEq, hKind] at hMark
      exact hMark.symm
  · intro marker hMem
    obtain ⟨line, _, hEq⟩ := List.mem_map.mp hMem
    rw [← Option.some.inj hEq]
    cases line.kind <;> cases reverse <;> decide

theorem any_selectLines_congr {lines lines' : List DiffLine} (h : List.Forall₂ SameLine lines lines')
    (unstaging : Bool) (selected : List Bool) :
    (selectLines unstaging false lines' selected).any EmittedLine.changes =
      (selectLines unstaging false lines selected).any EmittedLine.changes := by
  have hMap := congrArg (List.any · fun marker => marker == plus || marker == minus)
    (map_marker_selectLines h unstaging false selected)
  rw [List.any_map, List.any_map] at hMap
  exact hMap

theorem countLines_selectLines_congr {lines lines' : List DiffLine}
    (h : List.Forall₂ SameLine lines lines') (unstaging : Bool) (selected : List Bool)
    (p : UInt8 → Bool) :
    countLines (fun emitted : EmittedLine => p emitted.marker)
        (selectLines unstaging false lines' selected) =
      countLines (fun emitted : EmittedLine => p emitted.marker)
        (selectLines unstaging false lines selected) := by
  rw [← countLines_map EmittedLine.marker p, ← countLines_map EmittedLine.marker p,
    map_marker_selectLines h]

theorem any_changes_iff (lines : List DiffLine) (selected : List Bool) (unstaging : Bool) :
    (selectLines unstaging false lines selected).any EmittedLine.changes = false ↔
      ¬ ∃ (m : Nat) (kind : DiffLineKind), (lines.map DiffLine.kind)[m]? = some kind ∧
        kind.isChange = true ∧ selected[m]? = some true := by
  rw [any_changes_selectLines]
  constructor
  · rintro hNone ⟨m, kind, hKind, hChange, hSelected⟩
    obtain ⟨line, hLine, rfl⟩ := Option.map_eq_some_iff.mp ((List.getElem?_map ..).symm.trans hKind)
    rw [hNone m line hLine hSelected] at hChange
    cases hChange
  · intro hNone i line hLine hSelected
    rw [Bool.eq_false_iff]
    exact fun hChange => hNone ⟨i, line.kind, by simp [hLine], hChange, hSelected⟩

theorem buildLineSelectionPatch_eq_iff (file : DiffFile) (hunk : DiffHunk) {lines : List DiffLine}
    (h : List.Forall₂ SameLine hunk.lines lines) (selected : List Bool) (unstaging : Bool) :
    buildLineSelectionPatch file hunk selected unstaging =
        buildLineSelectionPatch file { hunk with lines := lines } selected unstaging ↔
      ∀ (k : Nat) (line line' : DiffLine), hunk.lines[k]? = some line → lines[k]? = some line' →
        PatchRequest.Emits (hunk.lines.map DiffLine.kind) k (.selection selected unstaging) →
        line.text = line'.text := by
  have hAny := any_selectLines_congr h unstaging selected
  have hOld := countLines_selectLines_congr h unstaging selected
    fun marker => marker == space || marker == minus
  have hNew := countLines_selectLines_congr h unstaging selected
    fun marker => marker == space || marker == plus
  have hChanged := any_changes_iff hunk.lines selected unstaging
  cases hChanges : (selectLines unstaging false hunk.lines selected).any EmittedLine.changes with
  | false =>
    have hNone := hChanged.mp hChanges
    rw [buildLineSelectionPatch, buildLineSelectionPatch]
    simp only [hAny, hChanges, Bool.not_false, if_true, true_iff]
    exact fun k line line' _ _ hEmits => absurd hEmits.1 hNone
  | true =>
    have hSome : ∃ (m : Nat) (kind : DiffLineKind), (hunk.lines.map DiffLine.kind)[m]? = some kind ∧
        kind.isChange = true ∧ selected[m]? = some true := by
      by_contra hNone
      rw [hChanged.mpr hNone] at hChanges
      cases hChanges
    rw [buildLineSelectionPatch, buildLineSelectionPatch]
    simp only [hAny, hChanges, Bool.not_true, Bool.false_eq_true, if_false]
    change _ ++ hunkRanges _ (countLines (fun emitted : EmittedLine =>
        emitted.marker == space || emitted.marker == minus) _) _ (countLines (fun emitted : EmittedLine =>
        emitted.marker == space || emitted.marker == plus) _) ++ _ = _ ++ hunkRanges _
        (countLines (fun emitted : EmittedLine => emitted.marker == space || emitted.marker == minus) _)
        _ (countLines (fun emitted : EmittedLine =>
          emitted.marker == space || emitted.marker == plus) _) ++ _ ↔ _
    rw [hOld, hNew, List.append_right_inj, flatMap_selectLines, flatMap_selectLines, map_kind_eq h,
      printMarked_eq_iff (fun marker hMem => ne_lf_of_mem_emitMarks hMem) h]
    constructor
    · rintro hAll k line line' hl hl' ⟨_, kind, hKind, hEmits⟩
      rw [← beq_iff_eq (a := selected[k]?), ← emitMarker_eq_some] at hEmits
      obtain ⟨marker, hMark, hMarker⟩ := hEmits
      exact hAll k line line' marker hl hl'
        ((getElem?_emitMarks hMarker false _ selected k).mpr ⟨kind, hKind, hMark⟩) hMarker
    · intro hAll k line line' marker hl hl' hMark hMarker
      obtain ⟨kind, hKind, hEmit⟩ := (getElem?_emitMarks hMarker false _ selected k).mp hMark
      refine hAll k line line' hl hl' ⟨hSome, kind, hKind, ?_⟩
      rw [← beq_iff_eq (a := selected[k]?)]
      exact emitMarker_eq_some.mp ⟨marker, hEmit, hMarker⟩

theorem build_eq_iff (file : DiffFile) (hunk : DiffHunk) {lines : List DiffLine}
    (h : List.Forall₂ SameLine hunk.lines lines) (request : PatchRequest) :
    request.build file hunk = request.build file { hunk with lines := lines } ↔
      ∀ (k : Nat) (line line' : DiffLine), hunk.lines[k]? = some line → lines[k]? = some line' →
        request.Emits (hunk.lines.map DiffLine.kind) k → line.text = line'.text := by
  cases request with
  | selection selected unstaging => exact buildLineSelectionPatch_eq_iff file hunk h selected unstaging
  | whole reverse unstaging =>
    refine (buildHunkPatch_eq_iff file hunk h reverse unstaging).trans ?_
    constructor
    · rintro hAll k line line' hl hl' ⟨kind, hKind, hContent⟩
      refine hAll k line line' hl hl' ?_
      have hEq : line.kind = kind := by simpa [hl] using hKind
      rwa [hEq]
    · intro hAll k line line' hl hl' hContent
      exact hAll k line line' hl hl' ⟨line.kind, by simp [hl], hContent⟩

theorem PatchRequest.Emits.content {request : PatchRequest} {kinds : List DiffLineKind} {k : Nat}
    (h : request.Emits kinds k) : ∃ kind, kinds[k]? = some kind ∧ kind ≠ .noNewlineMarker := by
  cases request with
  | whole reverse unstaging => exact h
  | selection selected unstaging =>
    obtain ⟨_, kind, hKind, hEmits⟩ := h
    refine ⟨kind, hKind, ?_⟩
    rintro rfl
    cases unstaging <;> simp [DiffLineKind.isChange] at hEmits

end GitBranchManager.UnifiedDiffParser
