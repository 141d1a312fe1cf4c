import GitBranchManager.Diff.FileSection

/-! # No line is recorded twice

Each turn of the loop records at most one hunk line, and only for a line that passed
every header test. A body line that looks like a header is therefore missing from the
parse, whatever else happens.
-/

namespace GitBranchManager

def FileReading.lineTotal (file : FileReading) : Nat :=
  (file.hunks.map fun hunk => hunk.lines.length).sum

namespace UnifiedDiffParser

def lineTotal (files : List DiffFile) : Nat := (files.map fun file => file.reading.lineTotal).sum

theorem sum_modifyLast {α : Type} (g : α → Nat) (f : α → α) (c : Nat) (h : ∀ a, g (f a) ≤ g a + c)
    (l : List α) : ((l.modifyLast f).map g).sum ≤ (l.map g).sum + c := by
  rcases List.eq_nil_or_concat l with rfl | ⟨l, a, rfl⟩
  · exact Nat.zero_le _
  · have hLast := h a
    simp only [List.concat_eq_append, List.modifyLast_concat, List.map_append, List.sum_append,
      List.map_cons, List.map_nil, List.sum_cons, List.sum_nil]
    omega

theorem lineTotal_updateFile (s : State) (f : DiffFile → DiffFile) (c : Nat)
    (h : ∀ file, (f file).reading.lineTotal ≤ file.reading.lineTotal + c) :
    lineTotal (s.updateFile f).files ≤ lineTotal s.files + c :=
  sum_modifyLast _ f c h s.files

theorem reading_lineTotal (file : DiffFile) :
    file.reading.lineTotal = (file.hunks.map fun hunk => hunk.lines.length).sum := by
  simp [DiffFile.reading, FileReading.lineTotal, DiffHunk.reading, Function.comp_def]

/-- A turn records at most one line, and only a content line. -/
theorem lineTotal_step (options : Options) (s : State) (line : Bytes) :
    lineTotal (step options s line).files ≤ lineTotal s.files + if isContent line then 1 else 0 := by
  have hTurn := step_turn options s line
  generalize step options s line = s' at hTurn ⊢
  cases hTurn with
  | openFile rest _ =>
    have hNew : (openFile rest).hunks = [] := by
      rw [openFile]
      split <;> rfl
    simp [lineTotal, reading_lineTotal, hNew]
  | skip => exact Nat.le_add_right _ _
  | header update hUpdate =>
    refine (lineTotal_updateFile s update 0 fun file => ?_).trans (by omega)
    rw [reading_lineTotal, reading_lineTotal, (header_frame hUpdate file).1]
    exact Nat.le_refl _
  | openHunk hunk _ hLines =>
    refine (lineTotal_updateFile s _ 0 fun file => ?_).trans (by omega)
    simp [reading_lineTotal, hLines]
  | record kind hContent _ =>
    rw [hContent]
    refine lineTotal_updateFile s _ 1 fun file => ?_
    rw [reading_lineTotal, reading_lineTotal]
    exact sum_modifyLast _ _ 1 (fun hunk => by simp) file.hunks
  | closeHunk _ => exact Nat.le_add_right _ _

theorem lineTotal_run (options : Options) (lines : List Bytes) (s : State) :
    lineTotal (run options lines s).files ≤ lineTotal s.files + lines.countP isContent := by
  induction lines generalizing s with
  | nil => exact Nat.le_refl _
  | cons line lines ih =>
    have hStep := lineTotal_step options s line
    have hRun := ih (step options s line)
    rw [run_cons, List.countP_cons]
    omega

theorem not_isContent_header (line : Bytes) {update : DiffFile → DiffFile}
    (h : header line = some update) : isContent line = false := by
  simp [isContent, h]

theorem countP_hunk (hunk : HunkText) :
    hunk.lines.countP isContent = hunk.body.countP fun line => !line.looksLikeHeader := by
  have hRange : isContent hunk.range.bytes = false := by
    have hStart : startsWith hunk.range.bytes (ascii "@@") = true := rfl
    simp [isContent, hStart]
  rw [HunkText.lines, List.countP_cons, hRange, List.countP_map]
  simp [Function.comp_def, isContent_bytes]

theorem countP_section (file : SectionText) :
    file.lines.countP isContent = file.body.countP fun line => !line.looksLikeHeader := by
  have hGit : ∀ rest, isContent (ascii "diff --git " ++ rest) = false := fun rest => by
    simp [isContent]
  have hOld : ∀ rest, isContent (ascii "--- " ++ rest) = false := fun rest =>
    not_isContent_header (ascii "--- " ++ rest) rfl
  have hNew : ∀ rest, isContent (ascii "+++ " ++ rest) = false := fun rest =>
    not_isContent_header (ascii "+++ " ++ rest) rfl
  have hHunks : (file.hunks.flatMap HunkText.lines).countP isContent =
      file.body.countP fun line => !line.looksLikeHeader := by
    rw [SectionText.body, List.countP_flatMap, List.countP_flatMap]
    congr 1
    exact List.map_congr_left fun hunk _ => countP_hunk hunk
  rw [SectionText.lines, List.countP_cons, List.countP_cons, List.countP_cons, hGit, hOld, hNew,
    hHunks]
  simp

end UnifiedDiffParser

end GitBranchManager

/-! ## The parse of a diff text is its exact reading

A text made of file sections is parsed to its exact reading precisely when no body line
looks like a path header and no number of the reading leaves 32 bits.
-/

namespace GitBranchManager.UnifiedDiffParser

theorem IsLine.append {a b : Bytes} (ha : IsLine a) (hb : IsLine b) : IsLine (a ++ b) := by
  refine ⟨by simp [ha.1, hb.1], ?_⟩
  rw [List.getLast?_append]
  cases hLast : b.getLast? with
  | none => simpa using ha.2
  | some c => simpa [hLast] using hb.2

theorem isLine_of_not_mem {a : Bytes} (hLf : LF ∉ a) (hCr : CR ∉ a) : IsLine a :=
  ⟨hLf, fun h => hCr (List.mem_of_getLast? h)⟩

theorem Range.isLine (range : Range) : IsLine range.bytes :=
  isLine_of_not_mem (not_mem_range (by decide) (by decide)) (not_mem_range (by decide) (by decide))

theorem RangeLine.isLine {line : RangeLine} (h : IsLine line.tail) : IsLine line.bytes :=
  IsLine.append (by decide) (line.old.isLine.append
    (IsLine.append (by decide) (line.new.isLine.append (IsLine.append (by decide) h))))

theorem BodyLine.isLine {line : BodyLine} (h : IsLine line.text) : IsLine line.bytes := by
  refine IsLine.append ?_ h
  cases line.kind <;> decide

theorem SectionText.Plain.isLine {options : Options} {file : SectionText} (h : file.Plain options) :
    ∀ line ∈ file.lines, IsLine line ∧ line ≠ [] := by
  obtain ⟨⟨hOld, _⟩, ⟨hNew, _⟩, hHunks⟩ := h
  intro line hLine
  simp only [SectionText.lines, List.mem_cons, List.mem_flatMap] at hLine
  rcases hLine with rfl | rfl | rfl | ⟨hunk, hHunk, hLine⟩
  · refine ⟨IsLine.append (by decide) (IsLine.append (IsLine.append (IsLine.append (by decide) hOld)
      (by decide)) hNew), by simp [ascii]⟩
  · exact ⟨IsLine.append (by decide) (IsLine.append (by decide) hOld), by simp [ascii]⟩
  · exact ⟨IsLine.append (by decide) (IsLine.append (by decide) hNew), by simp [ascii]⟩
  · obtain ⟨hTail, hBody⟩ := hHunks hunk hHunk
    rw [HunkText.lines, List.mem_cons, List.mem_map] at hLine
    rcases hLine with rfl | ⟨line, hLine, rfl⟩
    · exact ⟨RangeLine.isLine hTail, by simp [RangeLine.bytes, ascii]⟩
    · refine ⟨BodyLine.isLine (hBody line hLine).1, ?_⟩
      obtain ⟨b, rest, hMarker, _⟩ := marker_cons line.kind
      simp [BodyLine.bytes, hMarker]

theorem map_stripCr {lines : List Bytes} (h : ∀ line ∈ lines, IsLine line) :
    lines.map stripCr = lines := by
  calc
    lines.map stripCr = lines.map id :=
      List.map_congr_left fun line hLine => stripCr_of_ne (h line hLine).2
    _ = lines := List.map_id lines

/-- The lines as the parser reads them: without the `\r` of a line that a line feed ends. -/
def readLines (trimmed : Bool) (lines : List Bytes) : List Bytes :=
  if trimmed then lines.dropLast.map stripCr ++ lines.getLast?.toList else lines.map stripCr

theorem splitLines_read {lines : List Bytes} (h : ∀ line ∈ lines, LF ∉ line ∧ line ≠ []) (trimmed : Bool) :
    splitLines (if trimmed then (Library.Lines.join LF lines).dropLast else Library.Lines.join LF lines) =
      readLines trimmed lines := by
  cases trimmed with
  | false => exact splitLines_join fun line hLine => (h line hLine).1
  | true =>
    rcases List.eq_nil_or_concat lines with rfl | ⟨init, last, rfl⟩
    · rfl
    · rw [List.concat_eq_append] at h ⊢
      obtain ⟨hLast, hne⟩ := h last (by simp)
      have hInit : ∀ line ∈ init, LF ∉ line := fun line hLine => (h line (by simp [hLine])).1
      have hText : (Library.Lines.join LF (init ++ [last])).dropLast = Library.Lines.join LF init ++ last := by
        rw [Library.Lines.join_append, Library.Lines.join_cons, Library.Lines.join_nil,
          ← List.append_assoc, List.dropLast_concat]
      rw [if_pos rfl, hText, splitLines_open hInit hLast hne, readLines, if_pos rfl, List.dropLast_concat,
        List.getLast?_concat]
      rfl

theorem readLines_append {front : List Bytes} (h : ∀ line ∈ front, IsLine line) (trimmed : Bool)
    (lines : List Bytes) : readLines trimmed (front ++ lines) = front ++ readLines trimmed lines := by
  have hMap : front.map stripCr = front := map_stripCr h
  cases trimmed with
  | false => simp [readLines, hMap]
  | true =>
    rcases List.eq_nil_or_concat lines with rfl | ⟨init, last, rfl⟩
    · have hInit : front.dropLast.map stripCr = front.dropLast :=
        map_stripCr fun line hLine => h line (List.mem_of_mem_dropLast hLine)
      rcases List.eq_nil_or_concat front with rfl | ⟨init, last, rfl⟩
      · rfl
      · simp only [readLines, List.append_nil, hInit]
        simp
    · simp [readLines, hMap, ← List.append_assoc]

/-- Lines without `\r` come back as they are, whether or not the last `\n` is there. -/
theorem splitLines_text {lines : List Bytes} (h : ∀ line ∈ lines, IsLine line ∧ line ≠ [])
    (trimmed : Bool) :
    splitLines (if trimmed then (Library.Lines.join LF lines).dropLast
      else Library.Lines.join LF lines) = lines := by
  have hRead := readLines_append (fun line hLine => (h line hLine).1) trimmed []
  have hNone : readLines trimmed [] = [] := by cases trimmed <;> rfl
  rw [List.append_nil, hNone, List.append_nil] at hRead
  rw [splitLines_read (fun line hLine => ⟨(h line hLine).1.1, (h line hLine).2⟩) trimmed, hRead]

theorem parse_diffText {options : Options} {files : List SectionText} (trimmed : Bool)
    (hPlain : ∀ file ∈ files, file.Plain options)
    (hSize : (diffText files trimmed).length ≤ options.maxBytes) :
    parse options (diffText files trimmed) =
      { files := (run options (files.flatMap SectionText.lines) {}).files
        inputBytes := (diffText files trimmed).length } := by
  have hSplit : splitLines (diffText files trimmed) = files.flatMap SectionText.lines := by
    apply splitLines_text
    intro line hLine
    obtain ⟨file, hFile, hLine⟩ := List.mem_flatMap.mp hLine
    exact (hPlain file hFile).isLine line hLine
  rw [parse, if_neg (by omega), hSplit]

theorem SectionText.Plain.readable {options : Options} {file : SectionText} (h : file.Plain options)
    (hLooks : ∀ line ∈ file.body, line.looksLikeHeader = false) : file.Readable options := by
  obtain ⟨⟨_, hOld⟩, ⟨_, hNew⟩, hHunks⟩ := h
  refine ⟨⟨hOld, hNew⟩, fun hunk hHunk => ?_⟩
  obtain ⟨_, hBody⟩ := hHunks hunk hHunk
  intro line hLine
  exact ⟨hLooks line (List.mem_flatMap.mpr ⟨hunk, hHunk, hLine⟩), (hBody line hLine).2⟩

theorem lineTotal_expected (files : List SectionText) :
    ((files.map SectionText.expected).map FileReading.lineTotal).sum =
      (files.flatMap SectionText.body).length := by
  have hLength : ∀ (body : List BodyLine) (old new : Nat),
      (expectedLines old new body).length = body.length := by
    intro body
    induction body with
    | nil => intro _ _; rfl
    | cons line body ih => intro _ _; simp [expectedLines, ih]
  simp [FileReading.lineTotal, SectionText.expected, HunkText.expected, SectionText.body, hLength,
    Function.comp_def, List.length_flatMap]

/-- The parse is the exact reading of the text precisely when no body line looks like a path
header and every number of the reading has 32 bits. -/
theorem parse_eq_expected_iff (options : Options) (files : List SectionText) (trimmed : Bool)
    (hPlain : ∀ file ∈ files, file.Plain options)
    (hSize : (diffText files trimmed).length ≤ options.maxBytes) :
    ((parse options (diffText files trimmed)).truncated = false ∧
      (parse options (diffText files trimmed)).files.map DiffFile.reading =
        files.map SectionText.expected) ↔
    (∀ file ∈ files, ∀ line ∈ file.body, line.looksLikeHeader = false) ∧
      ∀ file ∈ files, file.expected.Fits := by
  rw [parse_diffText trimmed hPlain hSize]
  simp only [true_and]
  constructor
  · intro hFiles
    constructor
    · have hTotal := lineTotal_run options (files.flatMap SectionText.lines) {}
      have hEq : lineTotal (run options (files.flatMap SectionText.lines) {}).files =
          (files.flatMap SectionText.body).length := by
        rw [← lineTotal_expected, ← hFiles, lineTotal, List.map_map]
        rfl
      have hCount : (files.flatMap SectionText.lines).countP isContent =
          (files.flatMap SectionText.body).countP fun line => !line.looksLikeHeader := by
        rw [List.countP_flatMap, List.countP_flatMap]
        congr 1
        apply List.map_congr_left
        intro file _
        rw [Function.comp_apply, countP_section, Function.comp_apply]
      have hStart : lineTotal ({} : State).files = 0 := rfl
      rw [hEq, hCount, hStart, Nat.zero_add] at hTotal
      have hAll := List.countP_eq_length.mp (Nat.le_antisymm List.countP_le_length hTotal)
      intro file hFile line hLine
      simpa using hAll line (List.mem_flatMap.mpr ⟨file, hFile, hLine⟩)
    · intro file hFile
      have hMem : file.expected ∈ files.map SectionText.expected := List.mem_map_of_mem hFile
      rw [← hFiles] at hMem
      obtain ⟨parsed, _, hParsed⟩ := List.mem_map.mp hMem
      rw [← hParsed]
      exact parsed.reading_fits
  · rintro ⟨hLooks, hFits⟩
    rw [run_sections options fun file hFile => (hPlain file hFile).readable (hLooks file hFile),
      List.nil_append, List.map_map]
    exact List.map_congr_left fun file hFile => reading_section file (hFits file hFile)

def sectionOf (body : List BodyLine) : SectionText where
  oldPath := ascii "f"
  newPath := ascii "f"
  hunks := [{
    range := { old := ⟨1, 1, true, fun _ => rfl⟩, new := ⟨1, 1, false, by decide⟩, tail := [] }
    body := body }]

theorem sectionOf_plain {options : Options} {body : List BodyLine}
    (h : ∀ line ∈ body, line.Plain options) : (sectionOf body).Plain options := by
  have hPath : IsLine (ascii "f") ∧ ascii "f" ≠ [] := by decide
  have hTail : IsLine ([] : Bytes) := by decide
  refine ⟨hPath, hPath, ?_⟩
  intro hunk hHunk
  simp only [sectionOf, List.mem_singleton] at hHunk
  subst hHunk
  exact ⟨hTail, h⟩

theorem parse_eq_expected_sample :
    (parse {} (diffText [sectionOf [⟨.removed, ascii "a"⟩, ⟨.added, ascii "b"⟩]] true)).files.map
        DiffFile.reading =
      [(sectionOf [⟨.removed, ascii "a"⟩, ⟨.added, ascii "b"⟩]).expected] := by
  have hPlain : (sectionOf [⟨.removed, ascii "a"⟩, ⟨.added, ascii "b"⟩]).Plain {} := by
    apply sectionOf_plain
    intro line hLine
    simp only [List.mem_cons, List.not_mem_nil, or_false] at hLine
    rcases hLine with rfl | rfl <;> exact ⟨by decide, fun _ => by decide⟩
  refine ((parse_eq_expected_iff {} _ true (by simpa using hPlain) (by decide)).mpr ⟨?_, ?_⟩).2
  · simp only [List.mem_singleton, forall_eq]
    decide
  · simp only [List.mem_singleton, forall_eq]
    refine ⟨?_, by decide, by decide⟩
    simp only [sectionOf, SectionText.expected, List.map_cons, List.map_nil, List.mem_singleton, forall_eq]
    exact ⟨by decide, by decide, by decide, by decide, by simp [HunkText.expected, expectedLines,
      LineReading.Fits, DiffLineKind.onOldSide, DiffLineKind.onNewSide]⟩

/-- The removed line `-- x` is read as the old path: the hunk comes out empty. -/
theorem parse_removed_dashes :
    ¬ ∀ (options : Options) (files : List SectionText) (trimmed : Bool),
      (∀ file ∈ files, file.Plain options) →
      (diffText files trimmed).length ≤ options.maxBytes →
      (parse options (diffText files trimmed)).truncated = false ∧
        (parse options (diffText files trimmed)).files.map DiffFile.reading =
          files.map SectionText.expected := by
  intro h
  have hPlain : (sectionOf [⟨.removed, ascii "-- x"⟩]).Plain {} := by
    apply sectionOf_plain
    intro line hLine
    simp only [List.mem_singleton] at hLine
    subst hLine
    exact ⟨by decide, fun _ => by decide⟩
  have hFiles := (h {} [sectionOf [⟨.removed, ascii "-- x"⟩]] false (by simpa using hPlain)
    (by decide)).2
  exact absurd hFiles (by decide +kernel)

end GitBranchManager.UnifiedDiffParser
