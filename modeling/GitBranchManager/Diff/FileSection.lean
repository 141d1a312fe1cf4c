import GitBranchManager.Diff.HunkText

/-! # File sections and their exact reading

The exact reading of a file section numbers its lines in `Nat` and keeps every body
line. The parse of a section whose body is readable has that reading as long as no
number leaves 32 bits.
-/

namespace GitBranchManager

structure LineReading where
  kind : DiffLineKind
  oldLine : Nat
  newLine : Nat
  text : Bytes
  deriving DecidableEq, Repr

structure HunkReading where
  oldStart : Nat
  oldCount : Nat
  newStart : Nat
  newCount : Nat
  heading : Bytes
  lines : List LineReading
  deriving DecidableEq, Repr

structure FileReading where
  oldPath : Bytes
  newPath : Bytes
  hunks : List HunkReading
  addedLines : Nat
  removedLines : Nat
  deriving DecidableEq, Repr

def DiffLine.reading (line : DiffLine) : LineReading :=
  ⟨line.kind, line.oldLine.toNat, line.newLine.toNat, line.text⟩

def DiffHunk.reading (hunk : DiffHunk) : HunkReading :=
  ⟨hunk.oldStart.toNat, hunk.oldCount.toNat, hunk.newStart.toNat, hunk.newCount.toNat, hunk.heading,
    hunk.lines.map DiffLine.reading⟩

def DiffFile.reading (file : DiffFile) : FileReading :=
  ⟨file.oldPath, file.newPath, file.hunks.map DiffHunk.reading, file.addedLines.toNat,
    file.removedLines.toNat⟩

def LineReading.Fits (line : LineReading) : Prop :=
  line.oldLine < 2 ^ 32 ∧ line.newLine < 2 ^ 32

structure HunkReading.Fits (hunk : HunkReading) : Prop where
  oldStart : hunk.oldStart < 2 ^ 32
  oldCount : hunk.oldCount < 2 ^ 32
  newStart : hunk.newStart < 2 ^ 32
  newCount : hunk.newCount < 2 ^ 32
  lines : ∀ line ∈ hunk.lines, line.Fits

structure FileReading.Fits (file : FileReading) : Prop where
  hunks : ∀ hunk ∈ file.hunks, hunk.Fits
  addedLines : file.addedLines < 2 ^ 32
  removedLines : file.removedLines < 2 ^ 32

theorem DiffFile.reading_fits (file : DiffFile) : file.reading.Fits where
  addedLines := UInt32.toNat_lt _
  removedLines := UInt32.toNat_lt _
  hunks hunk hHunk := by
    obtain ⟨h, _, rfl⟩ := List.mem_map.mp hHunk
    refine ⟨UInt32.toNat_lt _, UInt32.toNat_lt _, UInt32.toNat_lt _, UInt32.toNat_lt _, ?_⟩
    intro line hLine
    obtain ⟨l, _, rfl⟩ := List.mem_map.mp hLine
    exact ⟨UInt32.toNat_lt _, UInt32.toNat_lt _⟩

namespace UnifiedDiffParser

structure SectionText where
  oldPath : Bytes
  newPath : Bytes
  hunks : List HunkText

def SectionText.lines (file : SectionText) : List Bytes :=
  (ascii "diff --git " ++ (ascii "a/" ++ file.oldPath ++ ascii " b/" ++ file.newPath)) ::
    (ascii "--- " ++ (ascii "a/" ++ file.oldPath)) ::
    (ascii "+++ " ++ (ascii "b/" ++ file.newPath)) :: file.hunks.flatMap HunkText.lines

def SectionText.body (file : SectionText) : List BodyLine := file.hunks.flatMap HunkText.body

/-- The text of the sections; a capture of git's output may have lost the final `\n`. -/
def diffText (files : List SectionText) (trimmed : Bool) : Bytes :=
  let text := Library.Lines.join LF (files.flatMap SectionText.lines)
  if trimmed then text.dropLast else text

def expectedLines : Nat → Nat → List BodyLine → List LineReading
  | _, _, [] => []
  | old, new, line :: body =>
    ⟨line.kind, if line.kind.onOldSide then old else 0, if line.kind.onNewSide then new else 0,
      line.kept⟩ ::
    expectedLines (if line.kind.onOldSide then old + 1 else old)
      (if line.kind.onNewSide then new + 1 else new) body

def HunkText.expected (hunk : HunkText) : HunkReading :=
  ⟨hunk.range.old.start, hunk.range.old.count, hunk.range.new.start, hunk.range.new.count,
    hunk.range.tail.dropWhile (· = space), expectedLines hunk.range.old.start hunk.range.new.start hunk.body⟩

def SectionText.expected (file : SectionText) : FileReading :=
  ⟨file.oldPath, file.newPath, file.hunks.map HunkText.expected, countKind .added file.body,
    countKind .removed file.body⟩

/-- One line of text: no `\n` in it and no `\r` at its end. -/
def IsLine (text : Bytes) : Prop := LF ∉ text ∧ text.getLast? ≠ some CR

instance (text : Bytes) : Decidable (IsLine text) := inferInstanceAs (Decidable (_ ∧ _))

def BodyLine.Plain (options : Options) (line : BodyLine) : Prop :=
  IsLine line.text ∧ (line.kind ≠ .noNewlineMarker → line.text.length ≤ options.maxLineLength)

def HunkText.Plain (options : Options) (hunk : HunkText) : Prop :=
  IsLine hunk.range.tail ∧ ∀ line ∈ hunk.body, line.Plain options

def SectionText.Plain (options : Options) (file : SectionText) : Prop :=
  (IsLine file.oldPath ∧ file.oldPath ≠ []) ∧ (IsLine file.newPath ∧ file.newPath ≠ []) ∧
    ∀ hunk ∈ file.hunks, hunk.Plain options

theorem number_eq {n : Nat} (h : n < 2 ^ 32) : number n = UInt32.ofNat n := if_pos h

theorem toNat_number {n : Nat} (h : n < 2 ^ 32) : (number n).toNat = n := by
  rw [number_eq h, UInt32.toNat_ofNat']
  exact Nat.mod_eq_of_lt h

theorem reading_records (old new : Nat) (body : List BodyLine)
    (h : ∀ line ∈ expectedLines old new body, line.Fits) :
    (records (UInt32.ofNat old) (UInt32.ofNat new) body).map DiffLine.reading =
      expectedLines old new body := by
  induction body generalizing old new with
  | nil => rfl
  | cons line body ih =>
    rw [expectedLines] at h ⊢
    have hLine := h _ List.mem_cons_self
    have hRest := ih _ _ fun l hl => h l (List.mem_cons_of_mem _ hl)
    have hNumber : ∀ (side : Bool) (n : Nat), (if side then n else 0) < 2 ^ 32 →
        (if side then UInt32.ofNat n else 0).toNat = if side then n else 0 := by
      intro side n hn
      cases side with
      | false => rfl
      | true => exact Nat.mod_eq_of_lt hn
    have hNext : ∀ (side : Bool) (n : Nat),
        (if side then UInt32.ofNat n + 1 else UInt32.ofNat n) =
          UInt32.ofNat (if side then n + 1 else n) := by
      intro side n
      cases side with
      | false => rfl
      | true => exact (UInt32.ofNat_add n 1).symm
    rw [records, List.map_cons, hNext, hNext, hRest]
    simp only [DiffLine.reading, hNumber _ _ hLine.1, hNumber _ _ hLine.2]

theorem reading_hunk (hunk : HunkText) (h : hunk.expected.Fits) :
    hunk.parsed.reading = hunk.expected := by
  have hLines : (records (number hunk.range.old.start) (number hunk.range.new.start) hunk.body).map
      DiffLine.reading = expectedLines hunk.range.old.start hunk.range.new.start hunk.body := by
    have hOld : number hunk.range.old.start = UInt32.ofNat hunk.range.old.start :=
      number_eq h.oldStart
    have hNew : number hunk.range.new.start = UInt32.ofNat hunk.range.new.start :=
      number_eq h.newStart
    rw [hOld, hNew]
    exact reading_records _ _ _ h.lines
  have hOldStart : (number hunk.range.old.start).toNat = hunk.range.old.start := toNat_number h.oldStart
  have hOldCount : (number hunk.range.old.count).toNat = hunk.range.old.count := toNat_number h.oldCount
  have hNewStart : (number hunk.range.new.start).toNat = hunk.range.new.start := toNat_number h.newStart
  have hNewCount : (number hunk.range.new.count).toNat = hunk.range.new.count := toNat_number h.newCount
  simp only [HunkText.parsed, RangeLine.parsed, DiffHunk.reading, HunkText.expected, hOldStart,
    hOldCount, hNewStart, hNewCount, hLines]

def SectionText.parsed (file : SectionText) : DiffFile :=
  addHunks file.hunks { oldPath := file.oldPath, newPath := file.newPath }

theorem reading_section (file : SectionText) (h : file.expected.Fits) :
    file.parsed.reading = file.expected := by
  have hHunks : (file.hunks.map HunkText.parsed).map DiffHunk.reading =
      file.hunks.map HunkText.expected := by
    rw [List.map_map]
    apply List.map_congr_left
    intro hunk hHunk
    exact reading_hunk hunk (h.hunks _ (List.mem_map_of_mem hHunk))
  have hAdded : (UInt32.ofNat (countKind .added file.body)).toNat = countKind .added file.body :=
    Nat.mod_eq_of_lt h.addedLines
  have hRemoved : (UInt32.ofNat (countKind .removed file.body)).toNat =
      countKind .removed file.body := Nat.mod_eq_of_lt h.removedLines
  rw [SectionText.body] at hAdded hRemoved
  simp only [SectionText.parsed, addHunks, DiffFile.reading, SectionText.expected, List.nil_append,
    hHunks, UInt32.zero_add, hAdded, hRemoved, SectionText.body]

theorem stripPathPrefix_prefixed {letter : UInt8} (hLetter : letter = 97 ∨ letter = 98) {path : Bytes}
    (hPath : path ≠ []) : stripPathPrefix (unquotePath (letter :: 47 :: path)) = path := by
  cases path with
  | nil => exact absurd rfl hPath
  | cons b path =>
    have hRaw : unquotePath (letter :: 47 :: b :: path) = letter :: 47 :: b :: path := by
      rcases hLetter with rfl | rfl <;> simp [unquotePath]
    rw [hRaw]
    rcases hLetter with rfl | rfl <;> simp [stripPathPrefix, ascii]

theorem step_oldPath (options : Options) {path : Bytes} (hPath : path ≠ []) (fs : List DiffFile)
    (file : DiffFile) (isOpen : Bool) (old new : UInt32) :
    step options ⟨fs ++ [file], isOpen, old, new⟩ (ascii "--- " ++ (ascii "a/" ++ path)) =
      ⟨fs ++ [{ file with oldPath := path }], isOpen, old, new⟩ := by
  have hHeader : header (ascii "--- " ++ (ascii "a/" ++ path)) = some fun file =>
      let path := stripPathPrefix (unquotePath (ascii "a/" ++ path))
      if path.isEmpty then file else { file with oldPath := path } := rfl
  have hStrip : stripPathPrefix (unquotePath (ascii "a/" ++ path)) = path :=
    stripPathPrefix_prefixed (.inl rfl) hPath
  rw [step_header options rfl (by simp) hHeader]
  simp [State.updateFile, List.modifyLast_concat, hStrip, hPath]

theorem step_newPath (options : Options) {path : Bytes} (hPath : path ≠ []) (fs : List DiffFile)
    (file : DiffFile) (isOpen : Bool) (old new : UInt32) :
    step options ⟨fs ++ [file], isOpen, old, new⟩ (ascii "+++ " ++ (ascii "b/" ++ path)) =
      ⟨fs ++ [{ file with newPath := path }], isOpen, old, new⟩ := by
  have hHeader : header (ascii "+++ " ++ (ascii "b/" ++ path)) = some fun file =>
      let path := stripPathPrefix (unquotePath (ascii "b/" ++ path))
      if path.isEmpty then file else { file with newPath := path } := rfl
  have hStrip : stripPathPrefix (unquotePath (ascii "b/" ++ path)) = path :=
    stripPathPrefix_prefixed (.inr rfl) hPath
  rw [step_header options rfl (by simp) hHeader]
  simp [State.updateFile, List.modifyLast_concat, hStrip, hPath]

def SectionText.Readable (options : Options) (file : SectionText) : Prop :=
  (file.oldPath ≠ [] ∧ file.newPath ≠ []) ∧ ∀ hunk ∈ file.hunks, UnifiedDiffParser.Readable options hunk.body

theorem openFile_paths (rest oldPath newPath : Bytes) :
    { openFile rest with oldPath := oldPath, newPath := newPath } =
      ({ oldPath := oldPath, newPath := newPath } : DiffFile) := by
  rw [openFile]
  split <;> rfl

theorem run_section (options : Options) {file : SectionText} (h : file.Readable options) (s : State) :
    ∃ isOpen old new, run options file.lines s = ⟨s.files ++ [file.parsed], isOpen, old, new⟩ := by
  obtain ⟨⟨hOld, hNew⟩, hHunks⟩ := h
  rw [SectionText.lines, run_cons, step_diff_git, run_cons, step_oldPath options hOld, run_cons,
    step_newPath options hNew, openFile_paths]
  exact run_hunks options hHunks _ _ _ _ _

theorem run_sections (options : Options) {files : List SectionText}
    (h : ∀ file ∈ files, file.Readable options) (s : State) :
    (run options (files.flatMap SectionText.lines) s).files =
      s.files ++ files.map SectionText.parsed := by
  induction files generalizing s with
  | nil => simp [run]
  | cons file files ih =>
    obtain ⟨isOpen, old, new, hRun⟩ := run_section options (h file List.mem_cons_self) s
    rw [List.flatMap_cons, run_append, hRun, ih fun f hf => h f (List.mem_cons_of_mem _ hf)]
    simp

end UnifiedDiffParser

end GitBranchManager
