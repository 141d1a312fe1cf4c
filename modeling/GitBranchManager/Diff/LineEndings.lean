import GitBranchManager.Diff.FileSection
import GitBranchManager.Diff.FaithfulParse
import GitBranchManager.Diff.LineSelection

/-! # Hunks of a text whose other hunks are arbitrary

A body line that looks like a header changes fields of its file and no hunk. So the
files and hunks of a parse line up with those of the text, and a readable hunk has its
closed form whatever stands in the hunks around it.
-/

namespace GitBranchManager.UnifiedDiffParser

theorem step_bytes (options : Options) (line : BodyLine) (fs : List DiffFile) (file : DiffFile)
    (hs : List DiffHunk) (hunk : DiffHunk) (hFile : file.hunks = hs ++ [hunk]) (old new : UInt32) :
    ∃ file' hunk' old' new', file'.hunks = hs ++ [hunk'] ∧
      step options ⟨fs ++ [file], true, old, new⟩ line.bytes = ⟨fs ++ [file'], true, old', new'⟩ := by
  obtain ⟨b, rest, hMarker, _, hb⟩ := marker_cons line.kind
  have hBytes : line.bytes = b :: (rest ++ line.text) := by
    rw [BodyLine.bytes, hMarker]
    rfl
  simp only [List.mem_cons, List.not_mem_nil, or_false] at hb
  have hTurn := step_turn options ⟨fs ++ [file], true, old, new⟩ line.bytes
  generalize step options ⟨fs ++ [file], true, old, new⟩ line.bytes = s' at hTurn ⊢
  cases hTurn with
  | openFile rest' hGit =>
    rw [hBytes] at hGit
    rcases hb with rfl | rfl | rfl | rfl <;> cases hGit
  | skip => exact ⟨file, hunk, old, new, hFile, rfl⟩
  | header update hUpdate =>
    refine ⟨update file, hunk, old, new, (header_frame hUpdate file).1.trans hFile, ?_⟩
    simp only [State.updateFile, List.modifyLast_concat]
  | openHunk next hHunk _ =>
    rw [hBytes] at hHunk
    rcases hb with rfl | rfl | rfl | rfl <;> cases hHunk
  | record kind _ _ =>
    have hFileEq : file = { file with hunks := hs ++ [hunk] } := by rw [← hFile]
    rw [hFileEq, record_concat]
    exact ⟨_, _, _, _, rfl, rfl⟩
  | closeHunk hKind =>
    rw [bodyKind_bytes] at hKind
    cases hKind

theorem run_bytes (options : Options) (body : List BodyLine) (fs : List DiffFile) (file : DiffFile)
    (hs : List DiffHunk) (hunk : DiffHunk) (hFile : file.hunks = hs ++ [hunk]) (old new : UInt32) :
    ∃ file' hunk' old' new', file'.hunks = hs ++ [hunk'] ∧
      run options (body.map BodyLine.bytes) ⟨fs ++ [file], true, old, new⟩ =
        ⟨fs ++ [file'], true, old', new'⟩ := by
  induction body generalizing file hunk old new with
  | nil => exact ⟨file, hunk, old, new, hFile, rfl⟩
  | cons line body ih =>
    obtain ⟨file', hunk', old', new', hFile', hStep⟩ :=
      step_bytes options line fs file hs hunk hFile old new
    rw [List.map_cons, run_cons, hStep]
    exact ih file' hunk' hFile' old' new'

/-- The hunk recorded for a hunk text: its closed form where the body is readable. -/
def Records (options : Options) (hunk : DiffHunk) (text : HunkText) : Prop :=
  Readable options text.body → hunk = text.parsed

theorem run_hunk_records (options : Options) (hunk : HunkText) (fs : List DiffFile) (file : DiffFile)
    (isOpen : Bool) (old new : UInt32) :
    ∃ file' hunk' old' new', file'.hunks = file.hunks ++ [hunk'] ∧ Records options hunk' hunk ∧
      run options hunk.lines ⟨fs ++ [file], isOpen, old, new⟩ = ⟨fs ++ [file'], true, old', new'⟩ := by
  by_cases hRead : Readable options hunk.body
  · obtain ⟨old', new', hRun⟩ := run_hunk options hRead fs file isOpen old new
    exact ⟨hunk.addTo file, hunk.parsed, old', new', rfl, fun _ => rfl, hRun⟩
  · obtain ⟨file', hunk', old', new', hFile', hRun⟩ := run_bytes options hunk.body fs
      { file with hunks := file.hunks ++ [hunk.range.parsed] } file.hunks hunk.range.parsed rfl
      hunk.range.parsed.oldStart hunk.range.parsed.newStart
    refine ⟨file', hunk', old', new', hFile', fun h => absurd h hRead, ?_⟩
    rw [HunkText.lines, run_cons, step_rangeLine, hRun]

theorem run_hunks_records (options : Options) (hunks : List HunkText) (fs : List DiffFile)
    (file : DiffFile) (isOpen : Bool) (old new : UInt32) :
    ∃ file' hs isOpen' old' new', file'.hunks = file.hunks ++ hs ∧
      List.Forall₂ (Records options) hs hunks ∧
      run options (hunks.flatMap HunkText.lines) ⟨fs ++ [file], isOpen, old, new⟩ =
        ⟨fs ++ [file'], isOpen', old', new'⟩ := by
  induction hunks generalizing file isOpen old new with
  | nil => exact ⟨file, [], isOpen, old, new, by simp, .nil, rfl⟩
  | cons hunk hunks ih =>
    obtain ⟨file', hunk', old', new', hFile', hRecords, hRun⟩ :=
      run_hunk_records options hunk fs file isOpen old new
    obtain ⟨file'', hs, isOpen', old'', new'', hFile'', hAll, hRest⟩ := ih file' true old' new'
    refine ⟨file'', hunk' :: hs, isOpen', old'', new'', ?_, .cons hRecords hAll, ?_⟩
    · rw [hFile'', hFile', List.append_assoc, List.singleton_append]
    · rw [List.flatMap_cons, run_append, hRun, hRest]

theorem run_sections_records (options : Options) {files : List SectionText}
    (h : ∀ file ∈ files, file.oldPath ≠ [] ∧ file.newPath ≠ []) (s : State) :
    ∃ parsed, (run options (files.flatMap SectionText.lines) s).files = s.files ++ parsed ∧
      List.Forall₂ (fun file text => List.Forall₂ (Records options) file.hunks text.hunks)
        parsed files := by
  induction files generalizing s with
  | nil => exact ⟨[], by simp [run], .nil⟩
  | cons file files ih =>
    obtain ⟨hOld, hNew⟩ := h file List.mem_cons_self
    obtain ⟨file', hs, isOpen, old, new, hFile', hAll, hRun⟩ := run_hunks_records options file.hunks
      s.files { oldPath := file.oldPath, newPath := file.newPath } false s.oldLine s.newLine
    obtain ⟨parsed, hParsed, hRest⟩ := ih (fun f hf => h f (List.mem_cons_of_mem _ hf))
      ⟨s.files ++ [file'], isOpen, old, new⟩
    refine ⟨file' :: parsed, ?_, .cons ?_ hRest⟩
    · rw [List.flatMap_cons, run_append, SectionText.lines, run_cons, step_diff_git, run_cons,
        step_oldPath options hOld, run_cons, step_newPath options hNew, openFile_paths, hRun, hParsed]
      simp
    · rw [hFile', List.nil_append]
      exact hAll

end GitBranchManager.UnifiedDiffParser

/-! ## Line endings on the way through the parser and the patch builders

The splitter takes one `\r` off every line, so a patch gives a hunk back byte for byte
exactly when no line of the hunk ends in `\r`.
-/

namespace GitBranchManager.UnifiedDiffParser

def BodyLine.withoutCr (line : BodyLine) : BodyLine := { line with text := stripCr line.text }

def HunkText.withoutCr (hunk : HunkText) : HunkText where
  range := { hunk.range with tail := stripCr hunk.range.tail }
  body := hunk.body.map BodyLine.withoutCr

def SectionText.withoutCr (file : SectionText) : SectionText :=
  { file with hunks := file.hunks.map HunkText.withoutCr }

/-- A section as git prints it: plain paths, any bytes but `\n` on the lines of its hunks. -/
def SectionText.Printed (file : SectionText) : Prop :=
  (IsLine file.oldPath ∧ file.oldPath ≠ []) ∧ (IsLine file.newPath ∧ file.newPath ≠ []) ∧
    ∀ hunk ∈ file.hunks, LF ∉ hunk.range.tail ∧ ∀ line ∈ hunk.body, LF ∉ line.text

/-- A hunk of content lines, one of them a change, each short enough and unlike a header. -/
def HunkText.Stageable (options : Options) (hunk : HunkText) : Prop :=
  (∀ line ∈ hunk.body, line.kind ≠ .noNewlineMarker ∧ line.looksLikeHeader = false ∧
    (stripCr line.text).length ≤ options.maxLineLength) ∧
  ∃ line ∈ hunk.body, line.kind.isChange = true

theorem stripCr_append {a : Bytes} (h : CR ∉ a) (t : Bytes) : stripCr (a ++ t) = a ++ stripCr t := by
  induction a with
  | nil => rfl
  | cons b a ih =>
    simp only [List.mem_cons, not_or] at h
    rw [List.cons_append, stripCr_cons b (Ne.symm h.1), ih h.2, List.cons_append]

theorem stripCr_eq_self_iff (t : Bytes) : stripCr t = t ↔ t.getLast? ≠ some CR := by
  constructor
  · intro h hLast
    rw [stripCr, if_pos hLast] at h
    have hne : t ≠ [] := by
      rintro rfl
      cases hLast
    have hLength := congrArg List.length h
    have hPos := List.length_pos_iff.mpr hne
    rw [List.length_dropLast] at hLength
    omega
  · exact stripCr_of_ne

theorem cr_not_mem_marker (kind : DiffLineKind) : CR ∉ kind.marker := by
  cases kind <;> decide

theorem lf_not_mem_marker (kind : DiffLineKind) : LF ∉ kind.marker := by
  cases kind <;> decide

theorem stripCr_bytes (line : BodyLine) : stripCr line.bytes = line.withoutCr.bytes :=
  stripCr_append (cr_not_mem_marker line.kind) line.text

theorem stripCr_rangeLine (line : RangeLine) :
    stripCr line.bytes = RangeLine.bytes { line with tail := stripCr line.tail } := by
  have hOld : CR ∉ line.old.bytes := not_mem_range (by decide) (by decide)
  have hNew : CR ∉ line.new.bytes := not_mem_range (by decide) (by decide)
  rw [RangeLine.bytes, stripCr_append (by decide), stripCr_append hOld, stripCr_append (by decide),
    stripCr_append hNew, stripCr_append (by decide), RangeLine.bytes]

theorem SectionText.Printed.lines {file : SectionText} (h : file.Printed) :
    (∀ line ∈ file.lines, LF ∉ line) ∧ file.lines.map stripCr = file.withoutCr.lines := by
  obtain ⟨⟨hOld, _⟩, ⟨hNew, _⟩, hHunks⟩ := h
  have hGitLine : IsLine (ascii "diff --git " ++
      (ascii "a/" ++ file.oldPath ++ ascii " b/" ++ file.newPath)) :=
    IsLine.append (by decide) (IsLine.append (IsLine.append (IsLine.append (by decide) hOld)
      (by decide)) hNew)
  have hOldLine : IsLine (ascii "--- " ++ (ascii "a/" ++ file.oldPath)) :=
    IsLine.append (by decide) (IsLine.append (by decide) hOld)
  have hNewLine : IsLine (ascii "+++ " ++ (ascii "b/" ++ file.newPath)) :=
    IsLine.append (by decide) (IsLine.append (by decide) hNew)
  constructor
  · intro line hLine
    simp only [SectionText.lines, List.mem_cons, List.mem_flatMap] at hLine
    rcases hLine with rfl | rfl | rfl | ⟨hunk, hHunk, hLine⟩
    · exact hGitLine.1
    · exact hOldLine.1
    · exact hNewLine.1
    · obtain ⟨hTail, hBody⟩ := hHunks hunk hHunk
      rw [HunkText.lines, List.mem_cons, List.mem_map] at hLine
      rcases hLine with rfl | ⟨line, hLine, rfl⟩
      · have hOldRange : LF ∉ hunk.range.old.bytes := not_mem_range (by decide) (by decide)
        have hNewRange : LF ∉ hunk.range.new.bytes := not_mem_range (by decide) (by decide)
        simp only [RangeLine.bytes, List.mem_append, not_or]
        exact ⟨by decide, hOldRange, by decide, hNewRange, by decide, hTail⟩
      · rw [BodyLine.bytes, List.mem_append, not_or]
        exact ⟨lf_not_mem_marker line.kind, hBody line hLine⟩
  · have hHunk : ∀ hunk : HunkText, hunk.lines.map stripCr = hunk.withoutCr.lines := by
      intro hunk
      rw [HunkText.lines, List.map_cons, stripCr_rangeLine, HunkText.lines, HunkText.withoutCr]
      simp [Function.comp_def, stripCr_bytes]
    simp only [SectionText.lines, List.map_cons, stripCr_of_ne hGitLine.2, stripCr_of_ne hOldLine.2,
      stripCr_of_ne hNewLine.2, SectionText.withoutCr, List.map_flatMap, hHunk, List.flatMap_map]

theorem splitLines_printed {files : List SectionText} (h : ∀ file ∈ files, file.Printed) :
    splitLines (diffText files false) = (files.map SectionText.withoutCr).flatMap SectionText.lines := by
  have hText : diffText files false = Library.Lines.join LF (files.flatMap SectionText.lines) := rfl
  rw [hText, splitLines_join, List.map_flatMap, List.flatMap_map]
  · exact List.flatMap_congr fun file hFile => (h file hFile).lines.2
  · intro line hLine
    obtain ⟨file, hFile, hLine⟩ := List.mem_flatMap.mp hLine
    exact (h file hFile).lines.1 line hLine

theorem parse_stageable {options : Options} {files : List SectionText}
    (hPrinted : ∀ file ∈ files, file.Printed)
    (hSize : (diffText files false).length ≤ options.maxBytes) {i j : Nat} {file : SectionText}
    {hunk : HunkText} (hFile : files[i]? = some file) (hHunk : file.hunks[j]? = some hunk)
    (h : hunk.Stageable options) :
    ∃ file', (parse options (diffText files false)).files[i]? = some file' ∧
      file'.hunks[j]? = some hunk.withoutCr.parsed := by
  have hPaths : ∀ file ∈ files.map SectionText.withoutCr, file.oldPath ≠ [] ∧ file.newPath ≠ [] := by
    intro file hMem
    obtain ⟨raw, hRaw, rfl⟩ := List.mem_map.mp hMem
    obtain ⟨⟨_, hOld⟩, ⟨_, hNew⟩, _⟩ := hPrinted raw hRaw
    exact ⟨hOld, hNew⟩
  obtain ⟨parsed, hParsed, hAll⟩ := run_sections_records options hPaths {}
  have hParse : (parse options (diffText files false)).files = parsed := by
    rw [parse, if_neg (by omega), splitLines_printed hPrinted, hParsed]
    rfl
  rw [hParse]
  obtain ⟨file', hFile', hHunks⟩ := forall₂_getElem? hAll
    (show (files.map SectionText.withoutCr)[i]? = some file.withoutCr by simp [hFile])
  obtain ⟨hunk', hHunk', hRecords⟩ := forall₂_getElem? hHunks
    (show file.withoutCr.hunks[j]? = some hunk.withoutCr by simp [SectionText.withoutCr, hHunk])
  refine ⟨file', hFile', ?_⟩
  rw [hHunk', hRecords]
  intro line hLine
  obtain ⟨raw, hRaw, rfl⟩ := List.mem_map.mp hLine
  obtain ⟨_, hLooks, hLength⟩ := h.1 raw hRaw
  refine ⟨?_, fun _ => hLength⟩
  have hStart : ∀ pre, startsWith raw.text pre = false → startsWith (stripCr raw.text) pre = false := by
    intro pre hPre
    rw [Bool.eq_false_iff] at hPre ⊢
    exact fun hStrip => hPre (startsWith_iff.mpr
      ((startsWith_iff.mp hStrip).trans (prefix_stripCr raw.text)))
  simp only [BodyLine.looksLikeHeader, Bool.or_eq_false_iff, Bool.and_eq_false_iff] at hLooks ⊢
  exact ⟨hLooks.1.imp_right (hStart _), hLooks.2.imp_right (hStart _)⟩

/-! ## Printing a whole hunk -/

def SelectsAllChanges (lines : List DiffLine) (selected : List Bool) : Prop :=
  ∀ (k : Nat) (line : DiffLine), lines[k]? = some line → line.kind.isChange = true →
    selected[k]? = some true

def emitAll (line : DiffLine) : EmittedLine :=
  ⟨match line.kind with
    | .context => space
    | .added => plus
    | .removed => minus
    | .noNewlineMarker => backslash, line.text⟩

/-- With every change selected the loop emits every line under its own marker. -/
theorem selectLines_all {lines : List DiffLine} {selected : List Bool} (unstaging previous : Bool)
    (hKinds : ∀ line ∈ lines, line.kind ≠ .noNewlineMarker) (hAll : SelectsAllChanges lines selected) :
    selectLines unstaging previous lines selected = lines.map emitAll := by
  induction lines generalizing previous selected with
  | nil => rfl
  | cons line lines ih =>
    have hHead : line.kind.isChange = true → selected.headD false = true := by
      intro hChange
      have hGet := hAll 0 line rfl hChange
      cases selected with
      | nil => cases hGet
      | cons b selected => simpa using hGet
    have hTail : SelectsAllChanges lines selected.tail := by
      intro k l hLine hChange
      have hGet := hAll (k + 1) l hLine hChange
      cases selected with
      | nil => cases hGet
      | cons b selected => simpa using hGet
    rw [selectLines_cons, ih _ (fun l hl => hKinds l (List.mem_cons_of_mem _ hl)) hTail, List.map_cons]
    rw [emitAll]
    cases hKind : line.kind with
    | context => rfl
    | added => rw [hHead (by rw [hKind]; rfl)]; rfl
    | removed => rw [hHead (by rw [hKind]; rfl)]; rfl
    | noNewlineMarker => exact absurd hKind (hKinds line List.mem_cons_self)

theorem emitAll_tests (line : DiffLine) :
    (emitAll line).bytes = hunkLine false line ∧ (emitAll line).changes = line.kind.isChange ∧
    (emitAll line).onOldSide = line.kind.onOldSide ∧
    (emitAll line).onNewSide = line.kind.onNewSide := by
  rw [emitAll, hunkLine]
  cases line.kind <;> exact ⟨rfl, rfl, rfl, rfl⟩

def wholePatch (file : DiffFile) (hunk : DiffHunk) (unstaging : Bool) (body : List Bytes) : Bytes :=
  patchHeaderOf file unstaging ++
    hunkRanges hunk.oldStart (countLines (fun line => line.kind.onOldSide) hunk.lines)
      hunk.newStart (countLines (fun line => line.kind.onNewSide) hunk.lines) ++
    Library.Lines.join LF body

theorem countLines_map {α β : Type} (f : α → β) (p : β → Bool) (lines : List α) :
    countLines p (lines.map f) = countLines (fun a => p (f a)) lines := by
  rw [countLines_eq, countLines_eq, List.countP_map]
  rfl

theorem buildLineSelectionPatch_all (file : DiffFile) {hunk : DiffHunk} {selected : List Bool}
    (unstaging : Bool) (hKinds : ∀ line ∈ hunk.lines, line.kind ≠ .noNewlineMarker)
    (hChange : ∃ line ∈ hunk.lines, line.kind.isChange = true)
    (hAll : SelectsAllChanges hunk.lines selected) :
    buildLineSelectionPatch file hunk selected unstaging = buildHunkPatch file hunk false unstaging := by
  have hAny : (hunk.lines.map emitAll).any EmittedLine.changes = true := by
    obtain ⟨line, hLine, hKind⟩ := hChange
    exact List.any_eq_true.mpr
      ⟨emitAll line, List.mem_map_of_mem hLine, (emitAll_tests line).2.1.trans hKind⟩
  have hOld : countLines EmittedLine.onOldSide (hunk.lines.map emitAll) =
      countLines (fun line => line.kind.onOldSide) hunk.lines := by
    rw [countLines_map]
    exact congrArg (countLines · hunk.lines) (funext fun line => (emitAll_tests line).2.2.1)
  have hNew : countLines EmittedLine.onNewSide (hunk.lines.map emitAll) =
      countLines (fun line => line.kind.onNewSide) hunk.lines := by
    rw [countLines_map]
    exact congrArg (countLines · hunk.lines) (funext fun line => (emitAll_tests line).2.2.2)
  have hBytes : (hunk.lines.map emitAll).flatMap EmittedLine.bytes =
      hunk.lines.flatMap (hunkLine false) := by
    rw [List.flatMap_map]
    exact List.flatMap_congr fun line _ => (emitAll_tests line).1
  rw [buildLineSelectionPatch, selectLines_all unstaging false hKinds hAll]
  simp only [hAny, hOld, hNew, hBytes, Bool.not_true, Bool.false_eq_true, if_false, buildHunkPatch]

theorem flatMap_records {body : List BodyLine} (h : ∀ line ∈ body, line.kind ≠ .noNewlineMarker)
    (old new : UInt32) :
    (records old new body).flatMap (hunkLine false) =
      Library.Lines.join LF (body.map BodyLine.bytes) := by
  induction body generalizing old new with
  | nil => rfl
  | cons line body ih =>
    rw [records, List.flatMap_cons, ih (fun l hl => h l (List.mem_cons_of_mem _ hl)), List.map_cons,
      Library.Lines.join_cons, hunkLine, BodyLine.bytes, BodyLine.kept, if_neg (h line List.mem_cons_self)]
    cases hKind : line.kind with
    | noNewlineMarker => exact absurd hKind (h line List.mem_cons_self)
    | context => simp [DiffLineKind.marker]
    | added => simp [DiffLineKind.marker]
    | removed => simp [DiffLineKind.marker]

theorem records_kinds (body : List BodyLine) (old new : UInt32) :
    (records old new body).map DiffLine.kind = body.map BodyLine.kind := by
  induction body generalizing old new with
  | nil => rfl
  | cons line body ih => rw [records, List.map_cons, List.map_cons, ih]

theorem join_withoutCr_iff {body : List BodyLine} (h : ∀ line ∈ body, LF ∉ line.text) :
    Library.Lines.join LF ((body.map BodyLine.withoutCr).map BodyLine.bytes) =
        Library.Lines.join LF (body.map BodyLine.bytes) ↔
      ∀ line ∈ body, line.text.getLast? ≠ some CR := by
  have hRaw : ∀ bytes ∈ body.map BodyLine.bytes, LF ∉ bytes := by
    intro bytes hBytes
    obtain ⟨line, hLine, rfl⟩ := List.mem_map.mp hBytes
    rw [BodyLine.bytes, List.mem_append, not_or]
    exact ⟨lf_not_mem_marker line.kind, h line hLine⟩
  have hStripped : ∀ bytes ∈ (body.map BodyLine.withoutCr).map BodyLine.bytes, LF ∉ bytes := by
    intro bytes hBytes
    obtain ⟨stripped, hStripped, rfl⟩ := List.mem_map.mp hBytes
    obtain ⟨line, hLine, rfl⟩ := List.mem_map.mp hStripped
    rw [BodyLine.bytes, List.mem_append, not_or]
    exact ⟨lf_not_mem_marker line.kind,
      fun hMem => h line hLine ((prefix_stripCr line.text).subset hMem)⟩
  have hLine : ∀ line : BodyLine, line.withoutCr.bytes = line.bytes ↔ line.text.getLast? ≠ some CR := by
    intro line
    rw [← stripCr_eq_self_iff, BodyLine.bytes, BodyLine.bytes]
    exact List.append_right_inj line.kind.marker
  constructor
  · intro hJoin line hMem
    have hMap := Library.Lines.join_inj LF hStripped hRaw hJoin
    rw [List.map_map] at hMap
    exact (hLine line).mp (List.map_inj_left.mp hMap line hMem)
  · intro hNoCr
    rw [List.map_map]
    congr 1
    exact List.map_congr_left fun line hMem => (hLine line).mpr (hNoCr line hMem)

theorem kinds_withoutCr (hunk : HunkText) :
    hunk.withoutCr.parsed.lines.map DiffLine.kind = hunk.body.map BodyLine.kind := by
  rw [HunkText.parsed, records_kinds, HunkText.withoutCr, List.map_map]
  rfl

theorem HunkText.Stageable.kinds {options : Options} {hunk : HunkText} (h : hunk.Stageable options) :
    ∀ line ∈ hunk.withoutCr.parsed.lines, line.kind ≠ .noNewlineMarker := by
  intro line hLine
  have hMem := List.mem_map_of_mem (f := DiffLine.kind) hLine
  rw [kinds_withoutCr] at hMem
  obtain ⟨raw, hRaw, hKind⟩ := List.mem_map.mp hMem
  exact hKind ▸ (h.1 raw hRaw).1

theorem HunkText.Stageable.change {options : Options} {hunk : HunkText} (h : hunk.Stageable options) :
    ∃ line ∈ hunk.withoutCr.parsed.lines, line.kind.isChange = true := by
  obtain ⟨raw, hRaw, hKind⟩ := h.2
  have hMem := List.mem_map_of_mem (f := BodyLine.kind) hRaw
  rw [← kinds_withoutCr] at hMem
  obtain ⟨line, hLine, hEq⟩ := List.mem_map.mp hMem
  exact ⟨line, hLine, hEq ▸ hKind⟩

theorem buildHunkPatch_withoutCr {options : Options} {hunk : HunkText} (h : hunk.Stageable options)
    (file : DiffFile) (unstaging : Bool) :
    buildHunkPatch file hunk.withoutCr.parsed false unstaging =
      wholePatch file hunk.withoutCr.parsed unstaging
        ((hunk.body.map BodyLine.withoutCr).map BodyLine.bytes) := by
  have hKinds : ∀ line ∈ hunk.withoutCr.body, line.kind ≠ .noNewlineMarker := by
    intro line hLine
    obtain ⟨raw, hRaw, rfl⟩ := List.mem_map.mp hLine
    exact (h.1 raw hRaw).1
  have hLines : hunk.withoutCr.parsed.lines.flatMap (hunkLine false) =
      Library.Lines.join LF ((hunk.body.map BodyLine.withoutCr).map BodyLine.bytes) :=
    flatMap_records hKinds _ _
  rw [buildHunkPatch, hLines]
  rfl

/-- Both builders print a hunk of the parse with its lines as they stand in the text, byte for
byte, precisely when none of these lines ends in `\r`. -/
theorem patch_keeps_line_endings_iff (options : Options) (files : List SectionText)
    (hPrinted : ∀ file ∈ files, file.Printed)
    (hSize : (diffText files false).length ≤ options.maxBytes) (i j : Nat) (file : SectionText)
    (hunk : HunkText) (hFile : files[i]? = some file) (hHunk : file.hunks[j]? = some hunk)
    (h : hunk.Stageable options) (unstaging : Bool) :
    ∃ file' hunk', (parse options (diffText files false)).files[i]? = some file' ∧
      file'.hunks[j]? = some hunk' ∧
      ((buildHunkPatch file' hunk' false unstaging =
            wholePatch file' hunk' unstaging (hunk.body.map BodyLine.bytes) ∧
          ∀ selected, SelectsAllChanges hunk'.lines selected →
            buildLineSelectionPatch file' hunk' selected unstaging =
              wholePatch file' hunk' unstaging (hunk.body.map BodyLine.bytes)) ↔
        ∀ line ∈ hunk.body, line.text.getLast? ≠ some CR) := by
  obtain ⟨file', hFile', hHunk'⟩ := parse_stageable hPrinted hSize hFile hHunk h
  refine ⟨file', hunk.withoutCr.parsed, hFile', hHunk', ?_⟩
  have hLf : ∀ line ∈ hunk.body, LF ∉ line.text :=
    ((hPrinted file (List.mem_of_getElem? hFile)).2.2 hunk (List.mem_of_getElem? hHunk)).2
  have hIff : buildHunkPatch file' hunk.withoutCr.parsed false unstaging =
        wholePatch file' hunk.withoutCr.parsed unstaging (hunk.body.map BodyLine.bytes) ↔
      ∀ line ∈ hunk.body, line.text.getLast? ≠ some CR := by
    rw [buildHunkPatch_withoutCr h, ← join_withoutCr_iff hLf]
    exact List.append_right_inj _
  constructor
  · rintro ⟨hHunkPatch, _⟩
    exact hIff.mp hHunkPatch
  · intro hNoCr
    refine ⟨hIff.mpr hNoCr, ?_⟩
    intro selected hAll
    rw [buildLineSelectionPatch_all file' unstaging h.kinds h.change hAll]
    exact hIff.mpr hNoCr

theorem sectionOf_printed {body : List BodyLine} (h : ∀ line ∈ body, LF ∉ line.text) :
    (sectionOf body).Printed := by
  have hPath : IsLine (ascii "f") ∧ ascii "f" ≠ [] := by decide
  refine ⟨hPath, hPath, ?_⟩
  intro hunk hHunk
  simp only [sectionOf, List.mem_singleton] at hHunk
  subst hHunk
  exact ⟨List.not_mem_nil, h⟩

theorem patch_keeps_line_endings_sample :
    ∃ file' hunk', (parse {} (diffText [sectionOf [⟨.added, ascii "x"⟩]] false)).files[0]? = some file' ∧
      file'.hunks[0]? = some hunk' ∧
      buildHunkPatch file' hunk' false false = wholePatch file' hunk' false [ascii "+x"] := by
  have hPrinted : (sectionOf [⟨.added, ascii "x"⟩]).Printed :=
    sectionOf_printed (by simp [ascii, LF])
  obtain ⟨file', hunk', hFile', hHunk', hIff⟩ := patch_keeps_line_endings_iff {}
    [sectionOf [⟨.added, ascii "x"⟩]] (by simpa using hPrinted) (by decide) 0 0 _ _ rfl rfl
    ⟨by simp only [List.mem_singleton, forall_eq]; exact ⟨by decide, by decide, by decide⟩,
      ⟨.added, ascii "x"⟩, by simp, rfl⟩ false
  exact ⟨file', hunk', hFile', hHunk', (hIff.mpr (by simp [ascii, CR])).1⟩

/-- An added line `x\r` is staged as `x`. -/
theorem patch_loses_carriage_return :
    ∃ file' hunk', (parse {} (diffText [sectionOf [⟨.added, ascii "x" ++ [CR]⟩]] false)).files =
        [file'] ∧
      file'.hunks = [hunk'] ∧
      buildHunkPatch file' hunk' false false = wholePatch file' hunk' false [ascii "+x"] ∧
      buildHunkPatch file' hunk' false false ≠ wholePatch file' hunk' false [ascii "+x" ++ [CR]] ∧
      buildLineSelectionPatch file' hunk' [true] false ≠
        wholePatch file' hunk' false [ascii "+x" ++ [CR]] := by
  refine ⟨_, _, rfl, rfl, ?_⟩
  decide

end GitBranchManager.UnifiedDiffParser
