import GitBranchManager.Diff.FaithfulParse
import Mathlib.Data.List.Forall2

/-! # The extended headers git prints

The header lines of a modified, added, deleted, renamed or copied file with plain
paths, and what the parser makes of them. The same description with the `index` and
mode lines left out is what the patch builders print.
-/

namespace GitBranchManager.UnifiedDiffParser

structure GitHeader where
  kind : FileChangeKind
  oldPath : Bytes
  newPath : Bytes
  mode : Bytes
  similarity : Nat
  modes : Option (Bytes × Bytes)
  index : Option Bytes

def moveLines (verb : Bytes) (header : GitHeader) : List Bytes :=
  (header.modes.elim [] fun modes => [ascii "old mode " ++ modes.1, ascii "new mode " ++ modes.2]) ++
    [ascii "similarity index " ++ (Library.Decimal.numeral header.similarity ++ ascii "%"),
      verb ++ ascii " from " ++ header.oldPath, verb ++ ascii " to " ++ header.newPath]

def GitHeader.changeLines (header : GitHeader) : List Bytes :=
  match header.kind with
  | .added => [ascii "new file mode " ++ header.mode]
  | .deleted => [ascii "deleted file mode " ++ header.mode]
  | .renamed => moveLines (ascii "rename") header
  | .copied => moveLines (ascii "copy") header
  | .modified | .typeChanged | .modeChanged => []

def GitHeader.indexLines (header : GitHeader) : List Bytes :=
  header.index.elim [] fun index => [ascii "index " ++ index]

def GitHeader.lines (header : GitHeader) : List Bytes :=
  (ascii "diff --git " ++ (ascii "a/" ++ header.oldPath ++ ascii " b/" ++ header.newPath)) ::
    (header.changeLines ++ header.indexLines ++
      [ascii "--- " ++ if header.kind = .added then ascii "/dev/null" else ascii "a/" ++ header.oldPath,
        ascii "+++ " ++ if header.kind = .deleted then ascii "/dev/null"
          else ascii "b/" ++ header.newPath])

/-- No byte git would quote, and no blank. -/
def PlainPath (path : Bytes) : Prop := path ≠ [] ∧ ∀ b ∈ path, space < b ∧ b ≠ 127 ∧ b ≠ 34 ∧ b ≠ 92

instance (path : Bytes) : Decidable (PlainPath path) :=
  @instDecidableAnd _ _ inferInstance (List.decidableBAll _ path)

structure GitHeader.WellFormed (header : GitHeader) : Prop where
  kind : header.kind ≠ .typeChanged ∧ header.kind ≠ .modeChanged
  oldPath : PlainPath header.oldPath
  newPath : PlainPath header.newPath
  moved : (header.kind = .renamed ∨ header.kind = .copied) ↔ header.oldPath ≠ header.newPath
  similarity : header.similarity ≤ 100
  mode : IsLine header.mode ∧ header.mode ≠ []
  modes : ∀ modes, header.modes = some modes → IsLine modes.1 ∧ IsLine modes.2
  index : ∀ index, header.index = some index → IsLine index

structure GitHeader.Describes (header : GitHeader) (file : DiffFile) : Prop where
  kind : file.kind = header.kind
  oldPath : file.oldPath = header.oldPath
  newPath : file.newPath = header.newPath
  hunks : file.hunks = []
  mode : header.kind = .added → file.newMode = header.mode
  similarity : header.kind = .renamed ∨ header.kind = .copied →
    file.similarity = (UInt32.ofNat header.similarity).toInt32

theorem PlainPath.not_mem {path : Bytes} (h : PlainPath path) {b : UInt8} (hb : b ≤ space) : b ∉ path :=
  fun hMem => absurd ((h.2 b hMem).1) (UInt8.not_lt.mpr hb)

theorem PlainPath.isLine {path : Bytes} (h : PlainPath path) : IsLine path :=
  isLine_of_not_mem (h.not_mem (by decide)) (h.not_mem (by decide))

theorem PlainPath.unquotePath {path : Bytes} (h : PlainPath path) : unquotePath path = path := by
  obtain ⟨hne, hBytes⟩ := h
  cases path with
  | nil => exact absurd rfl hne
  | cons b path =>
    have hb : b ≠ 34 := (hBytes b List.mem_cons_self).2.2.1
    simp [UnifiedDiffParser.unquotePath, hb]

theorem openFile_plain {oldPath newPath : Bytes} (hOld : PlainPath oldPath) (hNew : PlainPath newPath) :
    openFile (ascii "a/" ++ oldPath ++ ascii " b/" ++ newPath) =
      { oldPath := oldPath, newPath := newPath } := by
  have hSpace : (32 : UInt8) ∉ ascii "b/" ++ newPath := by
    have hNewSpace : (32 : UInt8) ∉ newPath := hNew.not_mem (by decide)
    simp [ascii, hNewSpace]
  have hLast : rfind (ascii " b/") (32 :: (ascii "b/" ++ newPath)) = some 0 := by
    have hRest : rfind (32 :: ascii "b/") (ascii "b/" ++ newPath) = none := rfind_eq_none hSpace
    change rfind (32 :: ascii "b/") _ = _
    rw [rfind, hRest]
    have hStart : startsWith (32 :: (ascii "b/" ++ newPath)) (32 :: ascii "b/") = true := by
      rw [startsWith_cons_cons, startsWith_append]
      rfl
    simp only [hStart, if_true]
  have hFind : rfind (ascii " b/") (ascii "a/" ++ oldPath ++ ascii " b/" ++ newPath) =
      some (ascii "a/" ++ oldPath).length := by
    rw [List.append_assoc]
    exact rfind_skip hLast
  have hTake : (ascii "a/" ++ oldPath ++ ascii " b/" ++ newPath).take (ascii "a/" ++ oldPath).length =
      ascii "a/" ++ oldPath := by
    rw [List.append_assoc, List.take_left]
  have hDrop : (ascii "a/" ++ oldPath ++ ascii " b/" ++ newPath).drop
      ((ascii "a/" ++ oldPath).length + 1) = ascii "b/" ++ newPath := by
    have hShape : ascii "a/" ++ oldPath ++ ascii " b/" ++ newPath =
        (ascii "a/" ++ oldPath ++ [32]) ++ (ascii "b/" ++ newPath) := by simp [ascii]
    rw [hShape]
    exact List.drop_left' (by simp only [List.length_append, List.length_singleton])
  have hOldPath : stripPathPrefix (unquotePath (ascii "a/" ++ oldPath)) = oldPath :=
    stripPathPrefix_prefixed (.inl rfl) hOld.1
  have hNewPath : stripPathPrefix (unquotePath (ascii "b/" ++ newPath)) = newPath :=
    stripPathPrefix_prefixed (.inr rfl) hNew.1
  rw [openFile, hFind]
  simp only [hTake, hDrop, hOldPath, hNewPath]

def IsUpdate (line : Bytes) (update : DiffFile → DiffFile) : Prop :=
  startsWith line (ascii "diff --git ") = false ∧ header line = some update

theorem run_updates (options : Options) {lines : List Bytes} {updates : List (DiffFile → DiffFile)}
    (h : List.Forall₂ IsUpdate lines updates) (fs : List DiffFile) (file : DiffFile) (isOpen : Bool)
    (old new : UInt32) :
    run options lines ⟨fs ++ [file], isOpen, old, new⟩ =
      ⟨fs ++ [updates.foldl (fun file update => update file) file], isOpen, old, new⟩ := by
  induction h generalizing file with
  | nil => rfl
  | cons hUpdate _ ih =>
    rw [run_cons, step_header options hUpdate.1 (by simp) hUpdate.2]
    simp only [State.updateFile, List.modifyLast_concat, List.foldl_cons]
    exact ih _

theorem indexLine_header (rest : Bytes) (file : DiffFile) :
    (indexLine rest file).kind = file.kind ∧ (indexLine rest file).oldPath = file.oldPath ∧
      (indexLine rest file).newPath = file.newPath ∧
      (indexLine rest file).similarity = file.similarity ∧
      (file.newMode ≠ [] → (indexLine rest file).newMode = file.newMode) := by
  rw [indexLine]
  split
  · exact ⟨rfl, rfl, rfl, rfl, fun _ => rfl⟩
  · dsimp only
    split
    · exact ⟨rfl, rfl, rfl, rfl, fun _ => rfl⟩
    · split
      · rename_i hMode
        refine ⟨rfl, rfl, rfl, rfl, fun hne => absurd ?_ hne⟩
        simpa using hMode
      · exact ⟨rfl, rfl, rfl, rfl, fun _ => rfl⟩

def GitHeader.indexUpdates (header : GitHeader) : List (DiffFile → DiffFile) :=
  header.index.elim [] fun index => [indexLine index]

def moveUpdates (kind : FileChangeKind) (header : GitHeader) : List (DiffFile → DiffFile) :=
  (header.modes.elim [] fun modes =>
      [fun file => { file with oldMode := modes.1, kind := .modeChanged },
        fun file => { file with newMode := modes.2 }]) ++
    [fun file => { file with similarity := (UInt32.ofNat header.similarity).toInt32 },
      fun file => { file with oldPath := header.oldPath, kind := kind },
      fun file => { file with newPath := header.newPath, kind := kind }]

def GitHeader.changeUpdates (header : GitHeader) : List (DiffFile → DiffFile) :=
  match header.kind with
  | .added => [fun file => { file with newMode := header.mode, kind := .added }]
  | .deleted => [fun file => { file with oldMode := header.mode, kind := .deleted }]
  | .renamed => moveUpdates .renamed header
  | .copied => moveUpdates .copied header
  | .modified | .typeChanged | .modeChanged => []

theorem isUpdate_similarity {n : Nat} (h : n ≤ 100) :
    IsUpdate (ascii "similarity index " ++ (Library.Decimal.numeral n ++ ascii "%"))
      fun file => { file with similarity := (UInt32.ofNat n).toInt32 } := by
  have hParse : parseUint (Library.Decimal.numeral n ++ ascii "%") = UInt32.ofNat n := by
    have hNumber : parseUint (Library.Decimal.numeral n ++ ascii "%") =
        if n < 2 ^ 32 then UInt32.ofNat n else 0 := by
      apply parseUint_numeral
      rintro b ⟨⟩
      rfl
    rw [hNumber, if_pos (by omega)]
  refine ⟨rfl, ?_⟩
  have hHeader : header (ascii "similarity index " ++ (Library.Decimal.numeral n ++ ascii "%")) =
      some fun file => { file with
        similarity := (parseUint (Library.Decimal.numeral n ++ ascii "%")).toInt32 } := rfl
  rw [hHeader, hParse]

theorem isUpdate_modes (modes : Option (Bytes × Bytes)) :
    List.Forall₂ IsUpdate
      (modes.elim [] fun modes => [ascii "old mode " ++ modes.1, ascii "new mode " ++ modes.2])
      (modes.elim [] fun modes =>
        [fun file => { file with oldMode := modes.1, kind := .modeChanged },
          fun file => { file with newMode := modes.2 }]) := by
  cases modes with
  | none => exact .nil
  | some modes => exact .cons ⟨rfl, rfl⟩ (.cons ⟨rfl, rfl⟩ .nil)

theorem isUpdate_changeLines {header : GitHeader} (h : header.WellFormed) :
    List.Forall₂ IsUpdate header.changeLines header.changeUpdates := by
  have hOld := h.oldPath.unquotePath
  have hNew := h.newPath.unquotePath
  rw [GitHeader.changeLines, GitHeader.changeUpdates]
  cases header.kind with
  | modified => exact .nil
  | typeChanged => exact .nil
  | modeChanged => exact .nil
  | added => exact .cons ⟨rfl, rfl⟩ .nil
  | deleted => exact .cons ⟨rfl, rfl⟩ .nil
  | renamed =>
    have hFrom : IsUpdate (ascii "rename" ++ ascii " from " ++ header.oldPath)
        fun file => { file with oldPath := unquotePath header.oldPath, kind := .renamed } := ⟨rfl, rfl⟩
    have hTo : IsUpdate (ascii "rename" ++ ascii " to " ++ header.newPath)
        fun file => { file with newPath := unquotePath header.newPath, kind := .renamed } := ⟨rfl, rfl⟩
    rw [hOld] at hFrom
    rw [hNew] at hTo
    exact List.rel_append (isUpdate_modes header.modes)
      (.cons (isUpdate_similarity h.similarity) (.cons hFrom (.cons hTo .nil)))
  | copied =>
    have hFrom : IsUpdate (ascii "copy" ++ ascii " from " ++ header.oldPath)
        fun file => { file with oldPath := unquotePath header.oldPath, kind := .copied } := ⟨rfl, rfl⟩
    have hTo : IsUpdate (ascii "copy" ++ ascii " to " ++ header.newPath)
        fun file => { file with newPath := unquotePath header.newPath, kind := .copied } := ⟨rfl, rfl⟩
    rw [hOld] at hFrom
    rw [hNew] at hTo
    exact List.rel_append (isUpdate_modes header.modes)
      (.cons (isUpdate_similarity h.similarity) (.cons hFrom (.cons hTo .nil)))

theorem isUpdate_indexLines (header : GitHeader) :
    List.Forall₂ IsUpdate header.indexLines header.indexUpdates := by
  rw [GitHeader.indexLines, GitHeader.indexUpdates]
  cases header.index with
  | none => exact .nil
  | some index => exact .cons ⟨rfl, rfl⟩ .nil

theorem foldl_moveUpdates (kind : FileChangeKind) (header : GitHeader) :
    (moveUpdates kind header).foldl (fun file update => update file)
        { oldPath := header.oldPath, newPath := header.newPath } =
      (header.modes.elim
        { oldPath := header.oldPath, newPath := header.newPath, kind := kind
          similarity := (UInt32.ofNat header.similarity).toInt32 }
        fun modes =>
          { oldPath := header.oldPath, newPath := header.newPath, kind := kind
            oldMode := modes.1, newMode := modes.2
            similarity := (UInt32.ofNat header.similarity).toInt32 } : DiffFile) := by
  rw [moveUpdates]
  cases header.modes <;> rfl

theorem describes_changeUpdates {header : GitHeader} (h : header.WellFormed) :
    header.Describes (header.changeUpdates.foldl (fun file update => update file)
      { oldPath := header.oldPath, newPath := header.newPath }) := by
  rw [GitHeader.changeUpdates]
  cases hKind : header.kind with
  | typeChanged => exact absurd hKind h.kind.1
  | modeChanged => exact absurd hKind h.kind.2
  | modified => exact ⟨hKind.symm, rfl, rfl, rfl, by simp [hKind], by simp [hKind]⟩
  | added => exact ⟨hKind.symm, rfl, rfl, rfl, fun _ => rfl, by simp [hKind]⟩
  | deleted => exact ⟨hKind.symm, rfl, rfl, rfl, by simp [hKind], by simp [hKind]⟩
  | renamed =>
    dsimp only
    rw [foldl_moveUpdates]
    cases header.modes with
    | none => exact ⟨hKind.symm, rfl, rfl, rfl, by simp [hKind], fun _ => rfl⟩
    | some modes => exact ⟨hKind.symm, rfl, rfl, rfl, by simp [hKind], fun _ => rfl⟩
  | copied =>
    dsimp only
    rw [foldl_moveUpdates]
    cases header.modes with
    | none => exact ⟨hKind.symm, rfl, rfl, rfl, by simp [hKind], fun _ => rfl⟩
    | some modes => exact ⟨hKind.symm, rfl, rfl, rfl, by simp [hKind], fun _ => rfl⟩

/-- The change lines set the kind and what goes with it, the index line none of these. -/
theorem describes_updates {header : GitHeader} (h : header.WellFormed) :
    header.Describes ((header.changeUpdates ++ header.indexUpdates).foldl
      (fun file update => update file) { oldPath := header.oldPath, newPath := header.newPath }) := by
  have hChange := describes_changeUpdates h
  rw [List.foldl_append, GitHeader.indexUpdates]
  generalize header.changeUpdates.foldl (fun file update => update file) _ = file at hChange ⊢
  cases header.index with
  | none => exact hChange
  | some index =>
    obtain ⟨hKind, hOldPath, hNewPath, hSimilarity, hMode⟩ := indexLine_header index file
    constructor
    · exact hKind.trans hChange.kind
    · exact hOldPath.trans hChange.oldPath
    · exact hNewPath.trans hChange.newPath
    · exact (indexLine_frame index file).1.trans hChange.hunks
    · intro hAdded
      have hNewMode := hChange.mode hAdded
      exact (hMode (hNewMode ▸ h.mode.2)).trans hNewMode
    · intro hMoved
      exact hSimilarity.trans (hChange.similarity hMoved)

theorem step_devNull (options : Options) (s : State) (hFiles : s.files ≠ []) :
    step options s (ascii "--- " ++ ascii "/dev/null") = s ∧
      step options s (ascii "+++ " ++ ascii "/dev/null") = s := by
  have hId : s.updateFile (fun file => file) = s := by
    rcases List.eq_nil_or_concat s.files with hNil | ⟨fs, file, hConcat⟩
    · exact absurd hNil hFiles
    · rw [State.updateFile, hConcat, List.concat_eq_append, List.modifyLast_concat,
        ← List.concat_eq_append, ← hConcat]
  have hOld : header (ascii "--- " ++ ascii "/dev/null") = some fun file => file := rfl
  have hNew : header (ascii "+++ " ++ ascii "/dev/null") = some fun file => file := rfl
  exact ⟨(step_header options rfl hFiles hOld).trans hId, (step_header options rfl hFiles hNew).trans hId⟩

theorem run_gitHeader (options : Options) {header : GitHeader} (h : header.WellFormed) (s : State) :
    ∃ file, header.Describes file ∧
      run options header.lines s = ⟨s.files ++ [file], false, s.oldLine, s.newLine⟩ := by
  have hDescribes := describes_updates h
  have hUpdates := List.rel_append (isUpdate_changeLines h) (isUpdate_indexLines header)
  have hRun := run_updates options hUpdates s.files
    { oldPath := header.oldPath, newPath := header.newPath } false s.oldLine s.newLine
  rw [GitHeader.lines, run_cons, step_diff_git, openFile_plain h.oldPath h.newPath, run_append, hRun]
  generalize (header.changeUpdates ++ header.indexUpdates).foldl _ _ = file at hDescribes ⊢
  have hOld : ∃ file', header.Describes file' ∧ step options ⟨s.files ++ [file], false, s.oldLine, s.newLine⟩
      (ascii "--- " ++ if header.kind = .added then ascii "/dev/null" else ascii "a/" ++ header.oldPath) =
        ⟨s.files ++ [file'], false, s.oldLine, s.newLine⟩ := by
    split
    · exact ⟨file, hDescribes, (step_devNull options _ (by simp)).1⟩
    · exact ⟨{ file with oldPath := header.oldPath }, { hDescribes with oldPath := rfl },
        step_oldPath options h.oldPath.1 _ _ _ _ _⟩
  obtain ⟨file', hDescribes', hStep⟩ := hOld
  rw [run_cons, hStep, run_cons]
  split
  · exact ⟨file', hDescribes', (step_devNull options _ (by simp)).2⟩
  · exact ⟨{ file' with newPath := header.newPath }, { hDescribes' with newPath := rfl },
      step_newPath options h.newPath.1 _ _ _ _ _⟩

theorem isLine_prefixed {pre rest : Bytes} (hPre : IsLine pre) (hne : pre ≠ []) (hRest : IsLine rest) :
    IsLine (pre ++ rest) ∧ pre ++ rest ≠ [] := by
  constructor
  · exact hPre.append hRest
  · simp [hne]

theorem isLine_moveLines {header : GitHeader} (h : header.WellFormed) {verb : Bytes}
    (hVerb : IsLine verb) (hne : verb ≠ []) :
    ∀ line ∈ moveLines verb header, IsLine line ∧ line ≠ [] := by
  have hNumeral : IsLine (Library.Decimal.numeral header.similarity ++ ascii "%") :=
    IsLine.append (isLine_of_not_mem (Library.Decimal.not_mem_numeral _ (by decide))
      (Library.Decimal.not_mem_numeral _ (by decide))) (by decide)
  intro line hLine
  rw [moveLines, List.mem_append] at hLine
  rcases hLine with hLine | hLine
  · cases hModes : header.modes with
    | none => simp [hModes] at hLine
    | some modes =>
      obtain ⟨hOldMode, hNewMode⟩ := h.modes modes hModes
      simp only [hModes, Option.elim_some, List.mem_cons, List.not_mem_nil, or_false] at hLine
      rcases hLine with rfl | rfl
      · exact isLine_prefixed (by decide) (by decide) hOldMode
      · exact isLine_prefixed (by decide) (by decide) hNewMode
  · simp only [List.mem_cons, List.not_mem_nil, or_false] at hLine
    rcases hLine with rfl | rfl | rfl
    · exact isLine_prefixed (by decide) (by decide) hNumeral
    · exact isLine_prefixed (hVerb.append (by decide)) (by simp [hne]) h.oldPath.isLine
    · exact isLine_prefixed (hVerb.append (by decide)) (by simp [hne]) h.newPath.isLine

theorem isLine_changeLines {header : GitHeader} (h : header.WellFormed) :
    ∀ line ∈ header.changeLines, IsLine line ∧ line ≠ [] := by
  intro line hLine
  rw [GitHeader.changeLines] at hLine
  split at hLine
  · rw [List.mem_singleton] at hLine
    exact hLine ▸ isLine_prefixed (by decide) (by decide) h.mode.1
  · rw [List.mem_singleton] at hLine
    exact hLine ▸ isLine_prefixed (by decide) (by decide) h.mode.1
  · exact isLine_moveLines h (by decide) (by decide) line hLine
  · exact isLine_moveLines h (by decide) (by decide) line hLine
  all_goals cases hLine

theorem isLine_indexLines {header : GitHeader} (h : header.WellFormed) :
    ∀ line ∈ header.indexLines, IsLine line ∧ line ≠ [] := by
  intro line hLine
  rw [GitHeader.indexLines] at hLine
  cases hIndex : header.index with
  | none => simp [hIndex] at hLine
  | some index =>
    simp only [hIndex, Option.elim_some, List.mem_singleton] at hLine
    exact hLine ▸ isLine_prefixed (by decide) (by decide) (h.index index hIndex)

theorem isLine_sidePath {side pre path : Bytes} {isNull : Prop} [Decidable isNull]
    (hSide : IsLine side) (hne : side ≠ []) (hPre : IsLine pre) (hPath : IsLine path) :
    IsLine (side ++ if isNull then ascii "/dev/null" else pre ++ path) ∧
      (side ++ if isNull then ascii "/dev/null" else pre ++ path) ≠ [] := by
  apply isLine_prefixed hSide hne
  split
  · decide
  · exact hPre.append hPath

theorem GitHeader.WellFormed.isLine {header : GitHeader} (h : header.WellFormed) :
    ∀ line ∈ header.lines, IsLine line ∧ line ≠ [] := by
  have hOld := h.oldPath.isLine
  have hNew := h.newPath.isLine
  intro line hLine
  rw [GitHeader.lines, List.mem_cons, List.mem_append, List.mem_append] at hLine
  rcases hLine with rfl | (hLine | hLine) | hLine
  · exact isLine_prefixed (by decide) (by decide)
      (IsLine.append (IsLine.append (IsLine.append (by decide) hOld) (by decide)) hNew)
  · exact isLine_changeLines h line hLine
  · exact isLine_indexLines h line hLine
  · simp only [List.mem_cons, List.not_mem_nil, or_false] at hLine
    rcases hLine with rfl | rfl
    · exact isLine_sidePath (by decide) (by decide) (by decide) hOld
    · exact isLine_sidePath (by decide) (by decide) (by decide) hNew

end GitBranchManager.UnifiedDiffParser
