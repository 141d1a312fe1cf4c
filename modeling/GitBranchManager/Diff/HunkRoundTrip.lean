import GitBranchManager.Diff.GitHeader
import GitBranchManager.Diff.LineEndings

/-! # Staging the only hunk of a file and reading the patch back

The patch of a one-hunk section is again such a section, without the `index` and mode
lines. It keeps the paths and the hunk's lines for every kind of change, and the kind
itself for every kind but a deletion, which `appendPatchHeader` has no case for.
-/

namespace GitBranchManager.UnifiedDiffParser

def changeText (header : GitHeader) (hunk : HunkText) : Bytes :=
  Library.Lines.join LF (header.lines ++ hunk.lines)

/-- A one-hunk section as git prints it: counts that match the body, no no-newline marker,
no line that looks like a header or is clipped. -/
structure OneHunk (options : Options) (header : GitHeader) (hunk : HunkText) : Prop where
  index : header.index ≠ none
  header : header.WellFormed
  tail : IsLine hunk.range.tail
  oldCount : hunk.range.old.count = hunk.body.countP fun line => line.kind.onOldSide
  newCount : hunk.range.new.count = hunk.body.countP fun line => line.kind.onNewSide
  kinds : ∀ line ∈ hunk.body, line.kind ≠ .noNewlineMarker
  lines : ∀ line ∈ hunk.body, IsLine line.text
  readable : Readable options hunk.body

theorem parse_changeText {options : Options} {header : GitHeader} {hunk : HunkText}
    (hHeader : header.WellFormed) (hTail : IsLine hunk.range.tail)
    (hLines : ∀ line ∈ hunk.body, IsLine line.text) (hRead : Readable options hunk.body)
    (hSize : (changeText header hunk).length ≤ options.maxBytes) :
    ∃ file, header.Describes file ∧
      (parse options (changeText header hunk)).files = [hunk.addTo file] := by
  obtain ⟨file, hFile, hRun⟩ := run_gitHeader options hHeader {}
  obtain ⟨old, new, hHunk⟩ := run_hunk options hRead [] file false 0 0
  have hSplit : splitLines (changeText header hunk) = header.lines ++ hunk.lines := by
    refine splitLines_text ?_ false
    intro line hLine
    rcases List.mem_append.mp hLine with hLine | hLine
    · exact hHeader.isLine line hLine
    · rw [HunkText.lines, List.mem_cons, List.mem_map] at hLine
      rcases hLine with rfl | ⟨bodyLine, hBody, rfl⟩
      · exact ⟨RangeLine.isLine hTail, by simp [RangeLine.bytes, ascii]⟩
      · refine ⟨BodyLine.isLine (hLines bodyLine hBody), ?_⟩
        obtain ⟨b, rest, hMarker, _⟩ := marker_cons bodyLine.kind
        simp [BodyLine.bytes, hMarker]
  refine ⟨file, hFile, ?_⟩
  rw [parse, if_neg (by omega), hSplit, run_append, hRun]
  exact congrArg State.files hHunk

/-- What the patch says of the change: no deletion, no `index` line, no mode change. -/
def GitHeader.patched (header : GitHeader) : GitHeader :=
  { header with
    kind := if header.kind = .deleted then .modified else header.kind
    modes := none
    index := none }

theorem GitHeader.WellFormed.patched {header : GitHeader} (h : header.WellFormed) :
    header.patched.WellFormed where
  kind := by
    have hKind := h.kind
    rw [GitHeader.patched]
    cases hk : header.kind <;> simp_all
  oldPath := h.oldPath
  newPath := h.newPath
  moved := by
    rw [GitHeader.patched]
    have hMoved := h.moved
    cases hKind : header.kind <;> simpa [hKind] using hMoved
  similarity := h.similarity
  mode := h.mode
  modes modes hModes := by cases hModes
  index index hIndex := by cases hIndex

theorem intToString_similarity {n : Nat} (h : n ≤ 100) :
    intToString (Int32.ofNat n) = Library.Decimal.numeral n := by
  have hInt : (Int32.ofNat n).toInt = n := Int32.toInt_ofNat_of_lt (by omega)
  rw [intToString, hInt, if_neg (by omega)]
  rfl

theorem patchHeaderOf_eq {header : GitHeader} (h : header.WellFormed) {file : DiffFile}
    (hKind : file.kind = header.kind) (hOld : file.oldPath = header.oldPath)
    (hNew : file.newPath = header.newPath) (hMode : header.kind = .added → file.newMode = header.mode)
    (hSimilarity : header.kind = .renamed ∨ header.kind = .copied →
      file.similarity = (UInt32.ofNat header.similarity).toInt32) :
    patchHeaderOf file false = Library.Lines.join LF header.patched.lines := by
  have hOldNe : header.oldPath.isEmpty = false := by simp [h.oldPath.1]
  have hNewNe : header.newPath.isEmpty = false := by simp [h.newPath.1]
  have hNumeral := intToString_similarity h.similarity
  have hMoved := h.moved
  rw [patchHeaderOf, hOld, hNew, hOldNe, hNewNe]
  cases hk : header.kind with
  | typeChanged => exact absurd hk h.kind.1
  | modeChanged => exact absurd hk h.kind.2
  | added =>
    have hModeNe : header.mode ≠ [] := h.mode.2
    have hSame : header.oldPath = header.newPath := by
      by_contra hne
      simpa [hk] using hMoved.mpr hne
    simp [patchHeader, hKind, hk, hMode hk, hModeNe, GitHeader.lines, GitHeader.patched,
      GitHeader.changeLines, GitHeader.indexLines, hSame, ascii]
  | modified =>
    simp [patchHeader, hKind, hk, GitHeader.lines, GitHeader.patched, GitHeader.changeLines,
      GitHeader.indexLines, ascii]
  | deleted =>
    simp [patchHeader, hKind, hk, GitHeader.lines, GitHeader.patched, GitHeader.changeLines,
      GitHeader.indexLines, ascii]
  | renamed =>
    have hne : header.oldPath ≠ header.newPath := hMoved.mp (.inl hk)
    simp [patchHeader, hKind, hk, hne, hSimilarity (.inl hk), hNumeral, GitHeader.lines,
      GitHeader.patched, GitHeader.changeLines, GitHeader.indexLines, moveLines, ascii]
  | copied =>
    have hne : header.oldPath ≠ header.newPath := hMoved.mp (.inr hk)
    simp [patchHeader, hKind, hk, hne, hSimilarity (.inr hk), hNumeral, GitHeader.lines,
      GitHeader.patched, GitHeader.changeLines, GitHeader.indexLines, moveLines, ascii]

/-- The hunk the builder prints: the parsed starts, the emitted counts, no heading. -/
def HunkText.patched (hunk : HunkText) : HunkText where
  range := {
    old := .full hunk.parsed.oldStart.toNat
      (countLines (fun line => line.kind.onOldSide) hunk.parsed.lines).toNat
    new := .full hunk.parsed.newStart.toNat
      (countLines (fun line => line.kind.onNewSide) hunk.parsed.lines).toNat
    tail := [] }
  body := hunk.body

theorem buildHunkPatch_eq {header : GitHeader} (h : header.WellFormed) {hunk : HunkText}
    (hKinds : ∀ line ∈ hunk.body, line.kind ≠ .noNewlineMarker) {file : DiffFile}
    (hFile : header.Describes file) :
    buildHunkPatch (hunk.addTo file) hunk.parsed false false = changeText header.patched hunk.patched := by
  have hHeader : patchHeaderOf (hunk.addTo file) false = Library.Lines.join LF header.patched.lines :=
    patchHeaderOf_eq h hFile.kind hFile.oldPath hFile.newPath hFile.mode hFile.similarity
  have hBody : hunk.parsed.lines.flatMap (hunkLine false) =
      Library.Lines.join LF (hunk.body.map BodyLine.bytes) := flatMap_records hKinds _ _
  have hRange : ∀ oldCount newCount : UInt32,
      hunkRanges hunk.parsed.oldStart oldCount hunk.parsed.newStart newCount =
        RangeLine.bytes ⟨.full hunk.parsed.oldStart.toNat oldCount.toNat,
          .full hunk.parsed.newStart.toNat newCount.toNat, []⟩ ++ [LF] := by
    intro oldCount newCount
    simp [hunkRanges, RangeLine.bytes, Range.bytes, Range.full, uintToString, ascii, comma]
  rw [buildHunkPatch, hHeader, hBody, hRange, changeText, Library.Lines.join_append, HunkText.lines,
    Library.Lines.join_cons]
  simp [HunkText.patched]

/-! ## The patch is no longer than the section -/

def lineBytes (lines : List Bytes) : Nat := (lines.map fun line => line.length + 1).sum

theorem length_join (lines : List Bytes) : (Library.Lines.join LF lines).length = lineBytes lines := by
  induction lines with
  | nil => rfl
  | cons line lines ih =>
    rw [Library.Lines.join_cons, List.length_append, List.length_cons, ih]
    simp only [lineBytes, List.map_cons, List.sum_cons]
    omega

theorem length_full_le (range : Range) {start count : Nat} (hStart : start ≤ range.start)
    (hCount : count ≤ range.count) :
    (Range.full start count).bytes.length ≤ range.bytes.length + 2 := by
  have hStartLength := Library.Decimal.length_numeral_mono hStart
  cases hOmitted : range.omitted with
  | true =>
    have hOne := range.omitted_one hOmitted
    have hCountLength : (Library.Decimal.numeral count).length ≤ (Library.Decimal.numeral 1).length :=
      Library.Decimal.length_numeral_mono (by omega)
    have hNumeralOne : (Library.Decimal.numeral 1).length = 1 := by decide
    simp only [Range.full, Range.bytes, hOmitted, if_true, List.append_nil, List.length_append,
      List.length_cons, Bool.false_eq_true, if_false]
    omega
  | false =>
    have hCountLength := Library.Decimal.length_numeral_mono hCount
    simp only [Range.full, Range.bytes, hOmitted, Bool.false_eq_true, if_false, List.length_append,
      List.length_cons]
    omega

theorem number_le (n : Nat) : (number n).toNat ≤ n := by
  rw [number]
  split
  · rw [UInt32.toNat_ofNat']
    exact Nat.mod_le _ _
  · exact Nat.zero_le n

theorem countLines_records_le (p : DiffLineKind → Bool) (body : List BodyLine) (old new : UInt32) :
    (countLines (fun line => p line.kind) (records old new body)).toNat ≤
      body.countP fun line => p line.kind := by
  have hKinds : (records old new body).countP (fun line => p line.kind) =
      body.countP fun line => p line.kind := by
    have hMap := congrArg (List.countP p) (records_kinds body old new)
    rw [List.countP_map, List.countP_map] at hMap
    exact hMap
  rw [countLines_eq, hKinds, UInt32.toNat_ofNat']
  exact Nat.mod_le _ _

theorem length_patched_rangeLine {options : Options} {header : GitHeader} {hunk : HunkText}
    (h : OneHunk options header hunk) :
    hunk.patched.range.bytes.length ≤ hunk.range.bytes.length + 4 := by
  have hOld := length_full_le hunk.range.old (number_le hunk.range.old.start)
    (h.oldCount ▸ countLines_records_le DiffLineKind.onOldSide hunk.body hunk.range.parsed.oldStart
      hunk.range.parsed.newStart)
  have hNew := length_full_le hunk.range.new (number_le hunk.range.new.start)
    (h.newCount ▸ countLines_records_le DiffLineKind.onNewSide hunk.body hunk.range.parsed.oldStart
      hunk.range.parsed.newStart)
  simp only [HunkText.patched, HunkText.parsed, RangeLine.parsed, RangeLine.bytes, List.length_append,
    List.length_nil] at hOld hNew ⊢
  omega

theorem lineBytes_patched {header : GitHeader} (hIndex : header.index ≠ none)
    (hKind : header.kind ≠ .deleted) :
    lineBytes header.patched.lines + 7 ≤ lineBytes header.lines := by
  cases hSome : header.index with
  | none => exact absurd hSome hIndex
  | some index =>
    have hPatched : header.patched.kind = header.kind := if_neg hKind
    have hModes : lineBytes header.patched.changeLines ≤ lineBytes header.changeLines := by
      have hMove : ∀ verb, lineBytes (moveLines verb header.patched) ≤
          lineBytes (moveLines verb header) := by
        intro verb
        simp [moveLines, GitHeader.patched, lineBytes]
      rw [GitHeader.changeLines, GitHeader.changeLines, hPatched]
      cases header.kind with
      | renamed => exact hMove _
      | copied => exact hMove _
      | added => exact Nat.le_refl _
      | deleted => exact Nat.le_refl _
      | modified => exact Nat.le_refl _
      | typeChanged => exact Nat.le_refl _
      | modeChanged => exact Nat.le_refl _
    have hIndexLines : lineBytes header.indexLines ≥ 7 := by
      simp [GitHeader.indexLines, hSome, lineBytes, ascii]
    have hSplit : ∀ header : GitHeader, lineBytes header.lines =
        lineBytes [ascii "diff --git " ++ (ascii "a/" ++ header.oldPath ++ ascii " b/" ++ header.newPath)] +
        lineBytes header.changeLines + lineBytes header.indexLines +
        lineBytes [ascii "--- " ++ if header.kind = .added then ascii "/dev/null"
            else ascii "a/" ++ header.oldPath,
          ascii "+++ " ++ if header.kind = .deleted then ascii "/dev/null"
            else ascii "b/" ++ header.newPath] := by
      intro header
      simp only [GitHeader.lines, lineBytes, List.map_cons, List.map_append, List.sum_cons,
        List.sum_append, List.map_nil, List.sum_nil]
      omega
    have hNone : lineBytes header.patched.indexLines = 0 := rfl
    rw [hSplit, hSplit header, hNone, hPatched]
    simp only [GitHeader.patched] at hModes ⊢
    omega

theorem length_patch_le {options : Options} {header : GitHeader} {hunk : HunkText}
    (h : OneHunk options header hunk) (hKind : header.kind ≠ .deleted) :
    (changeText header.patched hunk.patched).length ≤ (changeText header hunk).length := by
  have hHeader := lineBytes_patched h.index hKind
  have hRange := length_patched_rangeLine h
  rw [changeText, changeText, length_join, length_join]
  simp only [lineBytes, HunkText.lines, List.map_append, List.sum_append, List.map_cons,
    List.sum_cons] at hHeader ⊢
  have hBody : hunk.patched.body = hunk.body := rfl
  rw [hBody]
  omega

/-- Reading the patch of a file's only hunk gives the file's change back precisely when the
change is no deletion. -/
theorem hunkPatch_keeps_change_iff (options : Options) (header : GitHeader) (hunk : HunkText)
    (h : OneHunk options header hunk) (hSize : (changeText header hunk).length ≤ options.maxBytes) :
    ∃ f hk, (parse options (changeText header hunk)).files = [f] ∧ f.hunks = [hk] ∧
      f.kind = header.kind ∧
      ((∃ f', (parse options (buildHunkPatch f hk false false)).files = [f'] ∧ f'.kind = f.kind ∧
          f'.oldPath = f.oldPath ∧ f'.newPath = f.newPath ∧ f'.hunks.map DiffHunk.lines = [hk.lines]) ↔
        header.kind ≠ .deleted) := by
  obtain ⟨file, hFile, hParse⟩ := parse_changeText h.header h.tail h.lines h.readable hSize
  have hHunks : (hunk.addTo file).hunks = [hunk.parsed] := by
    rw [HunkText.addTo, hFile.hunks]
    rfl
  refine ⟨hunk.addTo file, hunk.parsed, hParse, hHunks, hFile.kind, ?_⟩
  rw [buildHunkPatch_eq h.header h.kinds hFile]
  have hTail : IsLine hunk.patched.range.tail := (by decide : IsLine [])
  constructor
  · rintro ⟨f', hFiles, hKindEq, _⟩ hDeleted
    by_cases hFits : (changeText header.patched hunk.patched).length ≤ options.maxBytes
    · obtain ⟨patched, hPatched, hReparse⟩ := parse_changeText h.header.patched
        hTail h.lines h.readable hFits
      rw [hReparse] at hFiles
      have hKindPatched : f'.kind = header.patched.kind := by
        rw [← List.singleton_inj.mp hFiles]
        exact hPatched.kind
      have hKindFile : f'.kind = header.kind := hKindEq.trans hFile.kind
      rw [hKindFile, GitHeader.patched, hDeleted] at hKindPatched
      cases hKindPatched
    · rw [parse, if_pos (by omega)] at hFiles
      cases hFiles
  · intro hKind
    have hFits := (length_patch_le h hKind).trans hSize
    obtain ⟨patched, hPatched, hReparse⟩ := parse_changeText h.header.patched
      hTail h.lines h.readable hFits
    refine ⟨hunk.patched.addTo patched, hReparse, ?_, ?_, ?_, ?_⟩
    · exact hPatched.kind.trans ((if_neg hKind).trans hFile.kind.symm)
    · exact hPatched.oldPath.trans hFile.oldPath.symm
    · exact hPatched.newPath.trans hFile.newPath.symm
    · have hNumber : ∀ n : UInt32, number n.toNat = n := by
        intro n
        rw [number_eq n.toNat_lt, UInt32.ofNat_toNat]
      rw [HunkText.addTo, hPatched.hunks]
      simp only [List.nil_append, List.map_cons, List.map_nil, HunkText.parsed, HunkText.patched,
        RangeLine.parsed, Range.full, hNumber]

def headerOf (kind : FileChangeKind) (oldPath newPath : Bytes) : GitHeader where
  kind := kind
  oldPath := oldPath
  newPath := newPath
  mode := ascii "100644"
  similarity := 90
  modes := none
  index := some (ascii "7898192..6178079 100644")

def hunkOf (old new : Range) (body : List BodyLine) : HunkText := ⟨⟨old, new, []⟩, body⟩

theorem hunkPatch_keeps_rename_sample :
    ∃ f hk, (parse {} (changeText (headerOf .renamed (ascii "a.txt") (ascii "b.txt"))
        (hunkOf (.full 1 1) (.full 1 1) [⟨.removed, ascii "x"⟩, ⟨.added, ascii "y"⟩]))).files = [f] ∧
      f.hunks = [hk] ∧
      ∃ f', (parse {} (buildHunkPatch f hk false false)).files = [f'] ∧ f'.kind = .renamed := by
  have hOneHunk : OneHunk {} (headerOf .renamed (ascii "a.txt") (ascii "b.txt"))
      (hunkOf (.full 1 1) (.full 1 1) [⟨.removed, ascii "x"⟩, ⟨.added, ascii "y"⟩]) := by
    refine ⟨by decide, ⟨by decide, by decide, by decide, by decide, by decide, by decide, ?_, ?_⟩,
      by decide, by decide, by decide, by decide, by decide, by simp [Readable]; decide⟩
    · rintro modes ⟨⟩
    · rintro index ⟨⟩
      decide
  obtain ⟨f, hk, hFiles, hHunks, hKind, hIff⟩ :=
    hunkPatch_keeps_change_iff {} _ _ hOneHunk (by decide +kernel)
  obtain ⟨f', hFiles', hKind', _⟩ := hIff.mpr (by decide)
  exact ⟨f, hk, hFiles, hHunks, f', hFiles', hKind'.trans hKind⟩

/-- Staging the only hunk of a deleted file stages an emptied one. -/
theorem hunkPatch_loses_deletion :
    ((parse {} (changeText (headerOf .deleted (ascii "f") (ascii "f"))
        (hunkOf (.full 1 1) (.full 0 0) [⟨.removed, ascii "x"⟩]))).files.map fun f =>
      (f.kind, f.hunks.map fun hk =>
        (parse {} (buildHunkPatch f hk false false)).files.map DiffFile.kind)) =
      [(.deleted, [[.modified]])] := by
  decide +kernel

end GitBranchManager.UnifiedDiffParser
