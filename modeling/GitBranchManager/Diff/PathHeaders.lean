import GitBranchManager.Diff.GitHeader

/-! # The paths of a modified file

The `---` and `+++` lines of a section name the path a second time, and git ends them in a TAB
when it holds a blank. The parser takes the TAB for a part of the path. A removed line `-- …` and
an added line `++ …` print like these headers and are read after them.
-/

namespace GitBranchManager.UnifiedDiffParser

def oldHeader : Bytes := ascii "--- "
def newHeader : Bytes := ascii "+++ "

/-- The path that a `---` or `+++` line sets. -/
def pathOn (side line : Bytes) : Option Bytes :=
  if startsWith line side then
    let path := stripPathPrefix (unquotePath (line.drop side.length))
    if path.isEmpty then none else some path
  else none

/-- A line of the header of a copied or renamed file, or the first line of a section. -/
def namesPaths (line : Bytes) : Bool :=
  [ascii "diff --git ", ascii "rename from ", ascii "rename to ", ascii "copy from ", ascii "copy to "].any
    (startsWith line)

def lastPath (side : Bytes) (lines : List Bytes) (path : Bytes) : Bytes :=
  ((lines.filterMap (pathOn side)).getLast?).getD path

theorem startsWith_of_head {line pre : Bytes} {b c : UInt8} (hLine : line.head? = some b)
    (hPre : pre.head? = some c) (hNe : c ≠ b) : startsWith line pre = false := by
  cases line with
  | nil => cases hLine
  | cons b' line =>
    cases pre with
    | nil => cases hPre
    | cons c' pre =>
      obtain rfl := Option.some.inj hLine
      obtain rfl := Option.some.inj hPre
      rw [startsWith_cons_cons, beq_false_of_ne hNe, Bool.false_and]

theorem pathOn_of_ne {side line : Bytes} (h : startsWith line side = false) : pathOn side line = none := by
  rw [pathOn, if_neg (by simp [h])]

theorem header_side (rest : Bytes) :
    header (oldHeader ++ rest) = some (fun file =>
      let path := stripPathPrefix (unquotePath rest)
      if path.isEmpty then file else { file with oldPath := path }) ∧
    header (newHeader ++ rest) = some fun file =>
      let path := stripPathPrefix (unquotePath rest)
      if path.isEmpty then file else { file with newPath := path } :=
  ⟨rfl, rfl⟩

theorem pathOn_of_header_none {line : Bytes} (h : header line = none) :
    pathOn oldHeader line = none ∧ pathOn newHeader line = none := by
  constructor
  · apply pathOn_of_ne
    by_contra hStart
    obtain ⟨rest, rfl⟩ := startsWith_iff.mp (eq_true_of_ne_false hStart)
    rw [(header_side rest).1] at h
    cases h
  · apply pathOn_of_ne
    by_contra hStart
    obtain ⟨rest, rfl⟩ := startsWith_iff.mp (eq_true_of_ne_false hStart)
    rw [(header_side rest).2] at h
    cases h

theorem pathOn_side (side rest : Bytes) :
    pathOn side (side ++ rest) =
      if (stripPathPrefix (unquotePath rest)).isEmpty then none else some (stripPathPrefix (unquotePath rest)) := by
  rw [pathOn, if_pos (startsWith_append _ _), List.drop_left]

theorem paths_side (rest : Bytes) (file : DiffFile) :
    (∀ update, header (oldHeader ++ rest) = some update →
      (update file).oldPath = (pathOn oldHeader (oldHeader ++ rest)).getD file.oldPath ∧
      (update file).newPath = (pathOn newHeader (oldHeader ++ rest)).getD file.newPath) ∧
    ∀ update, header (newHeader ++ rest) = some update →
      (update file).oldPath = (pathOn oldHeader (newHeader ++ rest)).getD file.oldPath ∧
      (update file).newPath = (pathOn newHeader (newHeader ++ rest)).getD file.newPath := by
  constructor
  · intro update hUpdate
    rw [(header_side rest).1] at hUpdate
    obtain rfl := Option.some.inj hUpdate
    have hOther : pathOn newHeader (oldHeader ++ rest) = none := pathOn_of_ne rfl
    rw [pathOn_side, hOther]
    dsimp only
    split <;> exact ⟨rfl, rfl⟩
  · intro update hUpdate
    rw [(header_side rest).2] at hUpdate
    obtain rfl := Option.some.inj hUpdate
    have hOther : pathOn oldHeader (newHeader ++ rest) = none := pathOn_of_ne rfl
    rw [pathOn_side, hOther]
    dsimp only
    split <;> exact ⟨rfl, rfl⟩

/-- A header line changes the paths as `pathOn` says, or it is one of a copy or a rename. -/
theorem paths_header {line : Bytes} {update : DiffFile → DiffFile} (h : header line = some update)
    (hNames : namesPaths line = false) (file : DiffFile) :
    (update file).oldPath = (pathOn oldHeader line).getD file.oldPath ∧
      (update file).newPath = (pathOn newHeader line).getD file.newPath := by
  by_cases hOld : startsWith line oldHeader = true
  · obtain ⟨rest, rfl⟩ := startsWith_iff.mp hOld
    exact (paths_side rest file).1 update h
  by_cases hNew : startsWith line newHeader = true
  · obtain ⟨rest, rfl⟩ := startsWith_iff.mp hNew
    exact (paths_side rest file).2 update h
  rw [pathOn_of_ne (eq_false_of_ne_true hOld), pathOn_of_ne (eq_false_of_ne_true hNew)]
  obtain ⟨entry, hEntry, hStart, rfl⟩ := mem_of_header h
  simp only [namesPaths, List.any_cons, List.any_nil, Bool.or_false, Bool.or_eq_false_iff] at hNames
  obtain ⟨-, hRenameFrom, hRenameTo, hCopyFrom, hCopyTo⟩ := hNames
  generalize line.drop entry.1.length = rest
  simp only [headerTable, List.mem_cons, List.not_mem_nil, or_false] at hEntry
  rcases hEntry with rfl | rfl | rfl | rfl | rfl | rfl | rfl | rfl | rfl | rfl | rfl | rfl | rfl | rfl
  all_goals first
    | exact ⟨rfl, rfl⟩
    | exact ⟨(indexLine_header rest file).2.1, (indexLine_header rest file).2.2.1⟩
    | exact absurd (hRenameFrom.symm.trans hStart) Bool.false_ne_true
    | exact absurd (hRenameTo.symm.trans hStart) Bool.false_ne_true
    | exact absurd (hCopyFrom.symm.trans hStart) Bool.false_ne_true
    | exact absurd (hCopyTo.symm.trans hStart) Bool.false_ne_true
    | exact absurd hStart hOld
    | exact absurd hStart hNew

/-- One turn of the loop keeps the files before the last one, and sets the paths of that one. -/
theorem paths_step (options : Options) {line : Bytes} (hNames : namesPaths line = false)
    (fs : List DiffFile) (file : DiffFile) (s : State) (hFiles : s.files = fs ++ [file]) :
    ∃ file', (step options s line).files = fs ++ [file'] ∧
      file'.oldPath = (pathOn oldHeader line).getD file.oldPath ∧
      file'.newPath = (pathOn newHeader line).getD file.newPath := by
  have hGit : startsWith line (ascii "diff --git ") = false := by
    simp only [namesPaths, List.any_cons, Bool.or_eq_false_iff] at hNames
    exact hNames.1
  have hSome : s.files ≠ [] := by simp [hFiles]
  cases hHeader : header line with
  | some update =>
    refine ⟨update file, ?_, paths_header hHeader hNames file⟩
    rw [step_header options hGit hSome hHeader, State.updateFile, hFiles, List.modifyLast_concat]
  | none =>
    obtain ⟨hOld, hNew⟩ := pathOn_of_header_none hHeader
    rw [hOld, hNew]
    have hTurn := step_turn options s line
    generalize step options s line = s' at hTurn ⊢
    cases hTurn with
    | openFile rest hLine =>
      rw [hLine, startsWith_append] at hGit
      cases hGit
    | skip => exact ⟨file, hFiles, rfl, rfl⟩
    | header update hUpdate =>
      rw [hHeader] at hUpdate
      cases hUpdate
    | openHunk hunk _ _ =>
      refine ⟨{ file with hunks := file.hunks ++ [hunk] }, ?_, rfl, rfl⟩
      rw [State.openHunk, State.updateFile, hFiles, List.modifyLast_concat]
    | record kind _ _ =>
      refine ⟨recordLine file (bodyRecord s kind (bodyText options kind line)), ?_, rfl, rfl⟩
      rw [State.record, State.updateFile, hFiles, List.modifyLast_concat]
    | closeHunk _ => exact ⟨file, hFiles, rfl, rfl⟩

theorem lastPath_cons (side line : Bytes) (lines : List Bytes) (path : Bytes) :
    lastPath side (line :: lines) path = lastPath side lines ((pathOn side line).getD path) := by
  rw [lastPath, lastPath, List.filterMap_cons]
  cases pathOn side line with
  | none => rfl
  | some first =>
    rw [List.getLast?_cons]
    cases (lines.filterMap (pathOn side)).getLast? <;> rfl

theorem paths_run (options : Options) {lines : List Bytes} (hNames : ∀ line ∈ lines, namesPaths line = false)
    (fs : List DiffFile) (file : DiffFile) (s : State) (hFiles : s.files = fs ++ [file]) :
    ∃ file', (run options lines s).files = fs ++ [file'] ∧
      file'.oldPath = lastPath oldHeader lines file.oldPath ∧
      file'.newPath = lastPath newHeader lines file.newPath := by
  induction lines generalizing s file with
  | nil => exact ⟨file, hFiles, rfl, rfl⟩
  | cons line lines ih =>
    obtain ⟨hLine, hLines⟩ := List.forall_mem_cons.mp hNames
    obtain ⟨next, hNext, hOld, hNew⟩ := paths_step options hLine fs file s hFiles
    obtain ⟨file', hRun, hOld', hNew'⟩ := ih hLines next (step options s line) hNext
    refine ⟨file', hRun, ?_, ?_⟩
    · rw [hOld', lastPath_cons, hOld]
    · rw [hNew', lastPath_cons, hNew]

/-! ## Sections as git prints them -/

/-- No byte that git quotes; blanks are printed as they are. -/
def UnquotedPath (path : Bytes) : Prop := path ≠ [] ∧ ∀ b ∈ path, space ≤ b ∧ b ≠ 127 ∧ b ≠ 34 ∧ b ≠ 92

instance (path : Bytes) : Decidable (UnquotedPath path) :=
  @instDecidableAnd _ _ inferInstance (List.decidableBAll _ path)

/-- A modified file under one path. -/
structure PrintedFile where
  path : Bytes
  modes : Option (Bytes × Bytes)
  index : Option Bytes
  hunks : List HunkText

namespace PrintedFile

def tab (file : PrintedFile) : Bytes := if space ∈ file.path then [9] else []

def modeLines (file : PrintedFile) : List Bytes :=
  (file.modes.elim [] fun modes => [ascii "old mode " ++ modes.1, ascii "new mode " ++ modes.2]) ++
    file.index.elim [] fun index => [ascii "index " ++ index]

def headerLines (file : PrintedFile) : List Bytes :=
  file.modeLines ++
    [oldHeader ++ (ascii "a/" ++ (file.path ++ file.tab)), newHeader ++ (ascii "b/" ++ (file.path ++ file.tab))]

def hunkLines (file : PrintedFile) : List Bytes := file.hunks.flatMap HunkText.lines

def lines (file : PrintedFile) : List Bytes :=
  (ascii "diff --git " ++ (ascii "a/" ++ file.path ++ ascii " b/" ++ file.path)) ::
    (file.headerLines ++ file.hunkLines)

/-- A capture of git's output may have lost the final line feed. -/
def text (file : PrintedFile) (trimmed : Bool) : Bytes :=
  if trimmed then (Library.Lines.join LF file.lines).dropLast else Library.Lines.join LF file.lines

structure Printed (file : PrintedFile) : Prop where
  path : UnquotedPath file.path
  modes : ∀ modes, file.modes = some modes → IsLine modes.1 ∧ IsLine modes.2
  index : ∀ index, file.index = some index → IsLine index
  hunks : ∀ hunk ∈ file.hunks, LF ∉ hunk.range.tail ∧ ∀ line ∈ hunk.body, LF ∉ line.text

end PrintedFile

theorem head?_of_mem_readLines {lines : List Bytes} {heads : List UInt8} (hCr : CR ∉ heads)
    (h : ∀ line ∈ lines, ∃ b ∈ heads, line.head? = some b) {trimmed : Bool} {line : Bytes}
    (hMem : line ∈ readLines trimmed lines) : ∃ b ∈ heads, line.head? = some b := by
  have hStrip : ∀ line ∈ lines, ∃ b ∈ heads, (stripCr line).head? = some b := by
    intro line hLine
    obtain ⟨b, hb, hHead⟩ := h line hLine
    cases line with
    | nil => cases hHead
    | cons c line =>
      obtain rfl := Option.some.inj hHead
      refine ⟨c, hb, ?_⟩
      rw [stripCr_cons c (fun hc => hCr (hc ▸ hb))]
      rfl
  cases trimmed with
  | false =>
    obtain ⟨line, hLine, rfl⟩ := List.mem_map.mp hMem
    exact hStrip line hLine
  | true =>
    rcases List.mem_append.mp hMem with hMem | hMem
    · obtain ⟨line, hLine, rfl⟩ := List.mem_map.mp hMem
      exact hStrip line (List.mem_of_mem_dropLast hLine)
    · exact h line (List.mem_of_getLast? (Option.mem_toList.mp hMem))

theorem lastPath_append (side : Bytes) (lines more : List Bytes) (path : Bytes) :
    lastPath side (lines ++ more) path = lastPath side more (lastPath side lines path) := by
  induction lines generalizing path with
  | nil => rfl
  | cons line lines ih => rw [List.cons_append, lastPath_cons, lastPath_cons, ih]

theorem namesPaths_of_head {line : Bytes} {b : UInt8} (h : line.head? = some b) (hb : b ∉ [100, 114, 99]) :
    namesPaths line = false := by
  simp only [List.mem_cons, List.not_mem_nil, or_false, not_or] at hb
  obtain ⟨hDiff, hRename, hCopy⟩ := hb
  have hStarts : startsWith line (ascii "diff --git ") = false := startsWith_of_head h rfl (Ne.symm hDiff)
  have hRenameFrom : startsWith line (ascii "rename from ") = false := startsWith_of_head h rfl (Ne.symm hRename)
  have hRenameTo : startsWith line (ascii "rename to ") = false := startsWith_of_head h rfl (Ne.symm hRename)
  have hCopyFrom : startsWith line (ascii "copy from ") = false := startsWith_of_head h rfl (Ne.symm hCopy)
  have hCopyTo : startsWith line (ascii "copy to ") = false := startsWith_of_head h rfl (Ne.symm hCopy)
  simp [namesPaths, hStarts, hRenameFrom, hRenameTo, hCopyFrom, hCopyTo]

namespace PrintedFile

variable {file : PrintedFile}

theorem Printed.path_isLine (h : file.Printed) : IsLine file.path := by
  have hFree : ∀ b : UInt8, b < space → b ∉ file.path := by
    intro b hb hMem
    exact absurd (h.path.2 b hMem).1 (UInt8.not_le.mpr hb)
  exact isLine_of_not_mem (hFree LF (by decide)) (hFree CR (by decide))

theorem Printed.side_isLine (h : file.Printed) : IsLine (file.path ++ file.tab) := by
  apply h.path_isLine.append
  rw [tab]
  split <;> decide

theorem head?_modeLines : ∀ line ∈ file.modeLines, ∃ b ∈ [111, 110, 105], line.head? = some b := by
  intro line hLine
  rw [modeLines, List.mem_append] at hLine
  rcases hLine with hLine | hLine
  · cases hModes : file.modes with
    | none => simp [hModes] at hLine
    | some modes =>
      simp only [hModes, Option.elim_some, List.mem_cons, List.not_mem_nil, or_false] at hLine
      rcases hLine with rfl | rfl
      · exact ⟨111, by decide, rfl⟩
      · exact ⟨110, by decide, rfl⟩
  · cases hIndex : file.index with
    | none => simp [hIndex] at hLine
    | some index =>
      simp only [hIndex, Option.elim_some, List.mem_singleton] at hLine
      exact ⟨105, by decide, by rw [hLine]; rfl⟩

theorem head?_hunkLines :
    ∀ line ∈ file.hunkLines, ∃ b ∈ [64, space, plus, minus, backslash], line.head? = some b := by
  intro line hLine
  obtain ⟨hunk, -, hLine⟩ := List.mem_flatMap.mp hLine
  rw [HunkText.lines, List.mem_cons, List.mem_map] at hLine
  rcases hLine with rfl | ⟨body, -, rfl⟩
  · exact ⟨64, by decide, rfl⟩
  · obtain ⟨b, rest, hMarker, -, hb⟩ := marker_cons body.kind
    exact ⟨b, List.mem_cons_of_mem _ hb, by rw [BodyLine.bytes, hMarker]; rfl⟩

theorem Printed.isLine_header (h : file.Printed) : ∀ line ∈ file.headerLines, IsLine line := by
  intro line hLine
  rw [headerLines, List.mem_append] at hLine
  rcases hLine with hLine | hLine
  · rw [modeLines, List.mem_append] at hLine
    rcases hLine with hLine | hLine
    · cases hModes : file.modes with
      | none => simp [hModes] at hLine
      | some modes =>
        obtain ⟨hOld, hNew⟩ := h.modes modes hModes
        simp only [hModes, Option.elim_some, List.mem_cons, List.not_mem_nil, or_false] at hLine
        rcases hLine with rfl | rfl
        · exact IsLine.append (by decide) hOld
        · exact IsLine.append (by decide) hNew
    · cases hIndex : file.index with
      | none => simp [hIndex] at hLine
      | some index =>
        simp only [hIndex, Option.elim_some, List.mem_singleton] at hLine
        exact hLine ▸ IsLine.append (by decide) (h.index index hIndex)
  · simp only [List.mem_cons, List.not_mem_nil, or_false] at hLine
    rcases hLine with rfl | rfl
    · exact IsLine.append (by decide) (IsLine.append (by decide) h.side_isLine)
    · exact IsLine.append (by decide) (IsLine.append (by decide) h.side_isLine)

theorem Printed.isLine_first (h : file.Printed) :
    IsLine (ascii "diff --git " ++ (ascii "a/" ++ file.path ++ ascii " b/" ++ file.path)) :=
  IsLine.append (by decide)
    (IsLine.append (IsLine.append (IsLine.append (by decide) h.path_isLine) (by decide)) h.path_isLine)

theorem Printed.free_hunkLines (h : file.Printed) : ∀ line ∈ file.hunkLines, LF ∉ line := by
  intro line hLine
  obtain ⟨hunk, hHunk, hLine⟩ := List.mem_flatMap.mp hLine
  obtain ⟨hTail, hBody⟩ := h.hunks hunk hHunk
  rw [HunkText.lines, List.mem_cons, List.mem_map] at hLine
  rcases hLine with rfl | ⟨body, hMem, rfl⟩
  · have hRange : ∀ range : Range, LF ∉ range.bytes := fun range => range.isLine.1
    have hParts : LF ∉ ascii "@@ -" ∧ LF ∉ ascii " +" ∧ LF ∉ ascii " @@" := by decide
    rw [RangeLine.bytes]
    simp only [List.mem_append, not_or]
    exact ⟨hParts.1, hRange _, hParts.2.1, hRange _, hParts.2.2, hTail⟩
  · rw [BodyLine.bytes, List.mem_append, not_or]
    refine ⟨?_, hBody body hMem⟩
    cases body.kind <;> decide

/-- The parser sees the header lines as printed, and the hunk lines without carriage returns. -/
theorem Printed.splitLines (h : file.Printed) (trimmed : Bool) :
    splitLines (file.text trimmed) =
      (ascii "diff --git " ++ (ascii "a/" ++ file.path ++ ascii " b/" ++ file.path)) ::
        (file.headerLines ++ readLines trimmed file.hunkLines) := by
  have hLines : ∀ line ∈ file.lines, LF ∉ line ∧ line ≠ [] := by
    intro line hLine
    rw [lines, List.mem_cons, List.mem_append] at hLine
    rcases hLine with rfl | hLine | hLine
    · exact ⟨h.isLine_first.1, by simp [ascii]⟩
    · refine ⟨(h.isLine_header line hLine).1, ?_⟩
      rw [headerLines, List.mem_append] at hLine
      rcases hLine with hLine | hLine
      · obtain ⟨b, -, hHead⟩ := head?_modeLines line hLine
        rintro rfl
        cases hHead
      · simp only [List.mem_cons, List.not_mem_nil, or_false] at hLine
        rcases hLine with rfl | rfl <;> simp [oldHeader, newHeader, ascii]
    · obtain ⟨b, -, hHead⟩ := head?_hunkLines line hLine
      refine ⟨h.free_hunkLines line hLine, ?_⟩
      rintro rfl
      cases hHead
  have hFront : ∀ line ∈ (ascii "diff --git " ++ (ascii "a/" ++ file.path ++ ascii " b/" ++ file.path)) ::
      file.headerLines, IsLine line := by
    intro line hLine
    rcases List.mem_cons.mp hLine with rfl | hLine
    · exact h.isLine_first
    · exact h.isLine_header line hLine
  rw [text, splitLines_read hLines, lines, ← List.cons_append, readLines_append hFront]
  rfl

theorem lastPath_headerLines (h : file.Printed) (path : Bytes) :
    lastPath oldHeader file.headerLines path = file.path ++ file.tab ∧
      lastPath newHeader file.headerLines path = file.path ++ file.tab := by
  have hModes : ∀ side ∈ [oldHeader, newHeader], lastPath side file.modeLines path = path := by
    intro side hSide
    have hNone : file.modeLines.filterMap (pathOn side) = [] := by
      apply List.filterMap_eq_nil_iff.mpr
      intro line hLine
      obtain ⟨b, hb, hHead⟩ := head?_modeLines line hLine
      simp only [List.mem_cons, List.not_mem_nil, or_false] at hb hSide
      apply pathOn_of_ne
      rcases hSide with rfl | rfl <;> rcases hb with rfl | rfl | rfl <;>
        exact startsWith_of_head hHead rfl (by decide)
    rw [lastPath, hNone]
    rfl
  have hSome : file.path ++ file.tab ≠ [] := fun hNil => h.path.1 (List.append_eq_nil_iff.mp hNil).1
  have hOld : pathOn oldHeader (oldHeader ++ (ascii "a/" ++ (file.path ++ file.tab))) =
      some (file.path ++ file.tab) := by
    have hStrip : stripPathPrefix (unquotePath (ascii "a/" ++ (file.path ++ file.tab))) =
        file.path ++ file.tab := stripPathPrefix_prefixed (.inl rfl) hSome
    rw [pathOn_side, hStrip, if_neg (by simpa using fun hPath => absurd hPath h.path.1)]
  have hNew : pathOn newHeader (newHeader ++ (ascii "b/" ++ (file.path ++ file.tab))) =
      some (file.path ++ file.tab) := by
    have hStrip : stripPathPrefix (unquotePath (ascii "b/" ++ (file.path ++ file.tab))) =
        file.path ++ file.tab := stripPathPrefix_prefixed (.inr rfl) hSome
    rw [pathOn_side, hStrip, if_neg (by simpa using fun hPath => absurd hPath h.path.1)]
  have hOther : pathOn newHeader (oldHeader ++ (ascii "a/" ++ (file.path ++ file.tab))) = none ∧
      pathOn oldHeader (newHeader ++ (ascii "b/" ++ (file.path ++ file.tab))) = none :=
    ⟨pathOn_of_ne rfl, pathOn_of_ne rfl⟩
  constructor
  · rw [headerLines, lastPath_append, hModes _ (by simp), lastPath_cons, lastPath_cons, hOld, hOther.2]
    rfl
  · rw [headerLines, lastPath_append, hModes _ (by simp), lastPath_cons, lastPath_cons, hNew, hOther.1]
    rfl

theorem namesPaths_lines (trimmed : Bool) :
    ∀ line ∈ file.headerLines ++ readLines trimmed file.hunkLines, namesPaths line = false := by
  intro line hLine
  rcases List.mem_append.mp hLine with hLine | hLine
  · rw [headerLines, List.mem_append] at hLine
    rcases hLine with hLine | hLine
    · obtain ⟨b, hb, hHead⟩ := head?_modeLines line hLine
      apply namesPaths_of_head hHead
      simp only [List.mem_cons, List.not_mem_nil, or_false] at hb
      rcases hb with rfl | rfl | rfl <;> decide
    · simp only [List.mem_cons, List.not_mem_nil, or_false] at hLine
      rcases hLine with rfl | rfl
      · exact namesPaths_of_head (b := minus) rfl (by decide)
      · exact namesPaths_of_head (b := plus) rfl (by decide)
  · obtain ⟨b, hb, hHead⟩ := head?_of_mem_readLines (by decide) head?_hunkLines hLine
    apply namesPaths_of_head hHead
    simp only [List.mem_cons, List.not_mem_nil, or_false] at hb
    rcases hb with rfl | rfl | rfl | rfl | rfl <;> decide

/-- The paths of the parsed section: the last ones that a line sets. -/
theorem Printed.parse (h : file.Printed) (options : Options) (trimmed : Bool)
    (hSize : (file.text trimmed).length ≤ options.maxBytes) :
    ∃ parsed, (parse options (file.text trimmed)).files = [parsed] ∧
      parsed.oldPath = lastPath oldHeader (readLines trimmed file.hunkLines) (file.path ++ file.tab) ∧
      parsed.newPath = lastPath newHeader (readLines trimmed file.hunkLines) (file.path ++ file.tab) := by
  rw [UnifiedDiffParser.parse, if_neg (by omega), h.splitLines]
  dsimp only
  rw [run_cons, step_diff_git]
  obtain ⟨parsed, hRun, hOld, hNew⟩ := paths_run options (namesPaths_lines trimmed) []
    (openFile (ascii "a/" ++ file.path ++ ascii " b/" ++ file.path))
    ⟨[openFile (ascii "a/" ++ file.path ++ ascii " b/" ++ file.path)], false, 0, 0⟩ rfl
  refine ⟨parsed, hRun, ?_, ?_⟩
  · rw [hOld, lastPath_append, (lastPath_headerLines h _).1]
  · rw [hNew, lastPath_append, (lastPath_headerLines h _).2]

/-- The paths that hunk lines set, because they print like the header of a side. -/
def hunkPaths (file : PrintedFile) (trimmed : Bool) (side : Bytes) : List Bytes :=
  (readLines trimmed file.hunkLines).filterMap (pathOn side)

/-- The last path that a hunk line sets is the file's own, or none does and the path has no blank. -/
def KeepsPath (file : PrintedFile) (trimmed : Bool) (side : Bytes) : Prop :=
  (∀ last ∈ (file.hunkPaths trimmed side).getLast?, last = file.path) ∧
    (file.hunkPaths trimmed side = [] → space ∉ file.path)

instance (file : PrintedFile) (trimmed : Bool) (side : Bytes) : Decidable (file.KeepsPath trimmed side) :=
  inferInstanceAs (Decidable (_ ∧ _))

theorem lastPath_eq_iff (trimmed : Bool) (side : Bytes) :
    lastPath side (readLines trimmed file.hunkLines) (file.path ++ file.tab) = file.path ↔
      file.KeepsPath trimmed side := by
  rw [lastPath, KeepsPath, hunkPaths]
  rcases List.eq_nil_or_concat ((readLines trimmed file.hunkLines).filterMap (pathOn side)) with
    hNone | ⟨front, last, hSome⟩
  · rw [hNone, List.getLast?_nil, Option.getD_none, List.append_right_eq_self, tab]
    by_cases hBlank : space ∈ file.path
    · simp [hBlank]
    · simp [hBlank]
  · rw [hSome, List.concat_eq_append, List.getLast?_concat, Option.getD_some]
    simp

/-- The section is read as one file, under the path it is printed with. -/
def ReadsPath (file : PrintedFile) (options : Options) (trimmed : Bool) : Prop :=
  ∃ parsed, (UnifiedDiffParser.parse options (file.text trimmed)).files = [parsed] ∧
    parsed.oldPath = file.path ∧ parsed.newPath = file.path

/-- A section is read under its path exactly when the parser takes the text at all, and on either
side no TAB and no line of a hunk gets into the path. -/
theorem readsPath_iff (file : PrintedFile) (h : file.Printed) (options : Options) (trimmed : Bool) :
    file.ReadsPath options trimmed ↔
      (file.text trimmed).length ≤ options.maxBytes ∧
        file.KeepsPath trimmed oldHeader ∧ file.KeepsPath trimmed newHeader := by
  constructor
  · rintro ⟨parsed, hFiles, hOld, hNew⟩
    have hSize : (file.text trimmed).length ≤ options.maxBytes := by
      by_contra hLarge
      rw [UnifiedDiffParser.parse, if_pos (by omega)] at hFiles
      cases hFiles
    obtain ⟨parsed', hParse, hOld', hNew'⟩ := h.parse options trimmed hSize
    obtain rfl : parsed' = parsed := by simpa [hParse] using hFiles
    refine ⟨hSize, ?_, ?_⟩
    · rw [← lastPath_eq_iff, ← hOld', hOld]
    · rw [← lastPath_eq_iff, ← hNew', hNew]
  · rintro ⟨hSize, hOld, hNew⟩
    obtain ⟨parsed, hParse, hOld', hNew'⟩ := h.parse options trimmed hSize
    refine ⟨parsed, hParse, ?_, ?_⟩
    · rw [hOld', (lastPath_eq_iff trimmed oldHeader).mpr hOld]
    · rw [hNew', (lastPath_eq_iff trimmed newHeader).mpr hNew]

/-- One line of the file is changed. -/
def oneLineChange (path : Bytes) : PrintedFile where
  path
  modes := none
  index := some (ascii "5626abf..814f4a4 100644")
  hunks := [{
    range := { old := .full 1 2, new := .full 1 2, tail := [] }
    body := [⟨.context, ascii "title"⟩, ⟨.removed, ascii "one"⟩, ⟨.added, ascii "two"⟩] }]

theorem oneLineChange_printed {path : Bytes} (h : UnquotedPath path) : (oneLineChange path).Printed where
  path := h
  modes modes hModes := by cases hModes
  index index hIndex := by
    obtain rfl := Option.some.inj hIndex
    decide
  hunks hunk hHunk := by
    obtain rfl := List.mem_singleton.mp hHunk
    decide

theorem readsPath_iff_readme :
    (oneLineChange (ascii "read.me")).ReadsPath {} false :=
  (readsPath_iff _ (oneLineChange_printed (by decide)) {} false).mpr
    ⟨by decide +kernel, by decide +kernel, by decide +kernel⟩

/-- The section of `read me`, both of whose paths come out with a TAB behind them. -/
theorem blank_path_misread :
    (oneLineChange (ascii "read me")).Printed ∧
      (UnifiedDiffParser.parse {} ((oneLineChange (ascii "read me")).text false)).files.map
          (fun parsed => (parsed.oldPath, parsed.newPath)) =
        [(ascii "read me\t", ascii "read me\t")] ∧
      ¬ (oneLineChange (ascii "read me")).ReadsPath {} false := by
  refine ⟨oneLineChange_printed (by decide), by decide +kernel, ?_⟩
  rintro ⟨parsed, hFiles, hOld, -⟩
  have hPaths : (UnifiedDiffParser.parse {} ((oneLineChange (ascii "read me")).text false)).files.map
      DiffFile.oldPath = [ascii "read me\t"] := by decide +kernel
  rw [hFiles, List.map_singleton, hOld] at hPaths
  exact absurd hPaths (by decide)

end PrintedFile

end GitBranchManager.UnifiedDiffParser
