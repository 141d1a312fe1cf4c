import GitBranchManager.Diff.PatchBuilder
import Mathlib.Data.List.Forall2

/-! # What one turn of the parser's loop can do

A line opens a file, changes the fields of the last file, opens a hunk in it, adds
one line to its open hunk, or leaves the files as they are. Nothing else happens, so
invariants of the parse follow from the five cases.
-/

namespace GitBranchManager.UnifiedDiffParser

theorem stripCr_of_ne {line : Bytes} (h : line.getLast? ≠ some CR) : stripCr line = line :=
  if_neg h

theorem stripCr_cons (b : UInt8) (hb : b ≠ CR) (t : Bytes) : stripCr (b :: t) = b :: stripCr t := by
  cases t with
  | nil => simp [stripCr, hb]
  | cons c t =>
    simp only [stripCr, List.getLast?_cons_cons, List.dropLast_cons_cons]
    split <;> rfl

theorem prefix_stripCr (t : Bytes) : stripCr t <+: t := by
  rw [stripCr]
  split
  · exact List.dropLast_prefix t
  · exact List.prefix_refl t

theorem splitLines_join {lines : List Bytes} (h : ∀ line ∈ lines, LF ∉ line) :
    splitLines (Library.Lines.join LF lines) = lines.map stripCr := by
  have hCut := Library.Lines.cut_join LF h (List.not_mem_nil : LF ∉ ([] : Bytes))
  rw [List.append_nil] at hCut
  simp [splitLines, hCut]

theorem splitLines_open {lines : List Bytes} {last : Bytes} (h : ∀ line ∈ lines, LF ∉ line)
    (hLast : LF ∉ last) (hne : last ≠ []) :
    splitLines (Library.Lines.join LF lines ++ last) = lines.map stripCr ++ [last] := by
  have hCut := Library.Lines.cut_join LF h hLast
  simp [splitLines, hCut, hne]

theorem header_eq_none {line : Bytes} (h : ∀ entry ∈ headerTable, startsWith line entry.1 = false) :
    header line = none := by
  rw [header, List.findSome?_eq_none_iff]
  intro entry hEntry
  simp [h entry hEntry]

theorem mem_of_header {line : Bytes} {update : DiffFile → DiffFile} (h : header line = some update) :
    ∃ entry ∈ headerTable, startsWith line entry.1 = true ∧
      update = entry.2 (line.drop entry.1.length) := by
  obtain ⟨entry, hEntry, hUpdate⟩ := List.exists_of_findSome?_eq_some h
  obtain ⟨pre, apply⟩ := entry
  refine ⟨(pre, apply), hEntry, ?_⟩
  simp only at hUpdate
  split at hUpdate
  · exact ⟨‹_›, (Option.some.inj hUpdate).symm⟩
  · cases hUpdate

theorem indexLine_frame (rest : Bytes) (file : DiffFile) :
    (indexLine rest file).hunks = file.hunks ∧ (indexLine rest file).addedLines = file.addedLines ∧
      (indexLine rest file).removedLines = file.removedLines := by
  rw [indexLine]
  split
  · exact ⟨rfl, rfl, rfl⟩
  · dsimp only
    split
    · exact ⟨rfl, rfl, rfl⟩
    · split <;> exact ⟨rfl, rfl, rfl⟩

/-- No header line touches the hunks or the line counts. -/
theorem header_frame {line : Bytes} {update : DiffFile → DiffFile} (h : header line = some update)
    (file : DiffFile) :
    (update file).hunks = file.hunks ∧ (update file).addedLines = file.addedLines ∧
      (update file).removedLines = file.removedLines := by
  obtain ⟨entry, hEntry, _, rfl⟩ := mem_of_header h
  generalize line.drop entry.1.length = rest
  simp only [headerTable, List.mem_cons, List.not_mem_nil, or_false] at hEntry
  rcases hEntry with rfl | rfl | rfl | rfl | rfl | rfl | rfl | rfl | rfl | rfl | rfl | rfl | rfl | rfl
  all_goals first
    | exact indexLine_frame rest file
    | exact ⟨rfl, rfl, rfl⟩
    | (dsimp only; split <;> exact ⟨rfl, rfl, rfl⟩)

/-- The line passes every header test and reaches the hunk body. -/
def isContent (line : Bytes) : Bool :=
  !startsWith line (ascii "diff --git ") && (header line).isNone && !startsWith line (ascii "@@")

def bodyKind (line : Bytes) : Option DiffLineKind :=
  if startsWith line (ascii "\\ No newline") then some .noNewlineMarker
  else if line.headD space = plus then some .added
  else if line.headD space = minus then some .removed
  else if line.headD space = space then some .context
  else none

def bodyText (options : Options) (kind : DiffLineKind) (line : Bytes) : Bytes :=
  if kind = .noNewlineMarker then line else (line.drop 1).take options.maxLineLength

def bodyRecord (s : State) (kind : DiffLineKind) (text : Bytes) : DiffLine where
  kind := kind
  oldLine := if kind.onOldSide then s.oldLine else 0
  newLine := if kind.onNewSide then s.newLine else 0
  text := text

def recordLine (file : DiffFile) (line : DiffLine) : DiffFile :=
  { pushLine file line with
    addedLines := if line.kind = .added then file.addedLines + 1 else file.addedLines
    removedLines := if line.kind = .removed then file.removedLines + 1 else file.removedLines }

def State.record (s : State) (kind : DiffLineKind) (text : Bytes) : State :=
  { s.updateFile fun file => recordLine file (bodyRecord s kind text) with
    oldLine := if kind.onOldSide then s.oldLine + 1 else s.oldLine
    newLine := if kind.onNewSide then s.newLine + 1 else s.newLine }

def State.openHunk (s : State) (hunk : DiffHunk) : State :=
  { s.updateFile fun file => { file with hunks := file.hunks ++ [hunk] } with
    hunkOpen := true, oldLine := hunk.oldStart, newLine := hunk.newStart }

theorem step_diff_git (options : Options) (s : State) (rest : Bytes) :
    step options s (ascii "diff --git " ++ rest) =
      { s with files := s.files ++ [openFile rest], hunkOpen := false } := by
  have hLength : (ascii "diff --git ").length = 11 := rfl
  rw [step, if_pos (startsWith_append _ _), ← hLength, List.drop_left]

theorem step_header (options : Options) {s : State} {line : Bytes} {update : DiffFile → DiffFile}
    (hGit : startsWith line (ascii "diff --git ") = false) (hFiles : s.files ≠ [])
    (h : header line = some update) : step options s line = s.updateFile update := by
  rw [step, if_neg (by simp [hGit]), if_neg (by simpa using hFiles), h]

theorem step_hunk (options : Options) {s : State} {line : Bytes} {hunk : DiffHunk}
    (hHunk : startsWith line (ascii "@@") = true) (hFiles : s.files ≠ [])
    (hHeader : header line = none) (h : hunkHeader line = some hunk) :
    step options s line = s.openHunk hunk := by
  have hGit : startsWith line (ascii "diff --git ") = false := by
    cases line with
    | nil => rfl
    | cons b line =>
      cases hb : startsWith (b :: line) (ascii "diff --git ") with
      | false => rfl
      | true =>
        rw [startsWith_iff] at hHunk hb
        obtain ⟨_, hHunk⟩ := hHunk
        obtain ⟨_, hb⟩ := hb
        rw [← hb] at hHunk
        cases hHunk
  rw [step, if_neg (by simp [hGit]), if_neg (by simpa using hFiles), hHeader]
  simp only [hHunk, if_true, h]
  rfl

theorem step_content (options : Options) {s : State} {line : Bytes} (hContent : isContent line = true)
    (hFiles : s.files ≠ []) (hOpen : s.hunkOpen = true) :
    step options s line =
      match bodyKind line with
      | some kind => s.record kind (bodyText options kind line)
      | none => { s with hunkOpen := false } := by
  simp only [isContent, Bool.and_eq_true, Bool.not_eq_true', Option.isNone_iff_eq_none] at hContent
  obtain ⟨⟨hGit, hHeader⟩, hHunk⟩ := hContent
  rw [step, if_neg (by simp [hGit]), if_neg (by simpa using hFiles), hHeader]
  simp only [hHunk, hOpen, Bool.false_eq_true, if_false, Bool.not_true, bodyKind]
  split
  · rfl
  · split
    · rfl
    · split
      · rfl
      · split
        · rfl
        · rfl

inductive Turn (options : Options) (s : State) (line : Bytes) : State → Prop
  | openFile (rest : Bytes) : line = ascii "diff --git " ++ rest →
      Turn options s line { s with files := s.files ++ [openFile rest], hunkOpen := false }
  | skip : Turn options s line s
  | header (update : DiffFile → DiffFile) : header line = some update →
      Turn options s line (s.updateFile update)
  | openHunk (hunk : DiffHunk) : startsWith line (ascii "@@") = true → hunk.lines = [] →
      Turn options s line (s.openHunk hunk)
  | record (kind : DiffLineKind) : isContent line = true → bodyKind line = some kind →
      Turn options s line (s.record kind (bodyText options kind line))
  | closeHunk : bodyKind line = none → Turn options s line { s with hunkOpen := false }

theorem hunkHeader_lines {line : Bytes} {hunk : DiffHunk} (h : hunkHeader line = some hunk) :
    hunk.lines = [] := by
  rw [hunkHeader] at h
  split at h
  · cases h
  · cases h; rfl

theorem step_turn (options : Options) (s : State) (line : Bytes) :
    Turn options s line (step options s line) := by
  by_cases hGit : startsWith line (ascii "diff --git ") = true
  · obtain ⟨rest, rfl⟩ := startsWith_iff.mp hGit
    rw [step_diff_git]
    exact .openFile rest rfl
  by_cases hFiles : s.files = []
  · rw [step, if_neg hGit, if_pos (by simpa using hFiles)]
    exact .skip
  cases hHeader : header line with
  | some update =>
    rw [step_header options (by simpa using hGit) hFiles hHeader]
    exact .header update hHeader
  | none =>
    by_cases hHunk : startsWith line (ascii "@@") = true
    · cases hRead : hunkHeader line with
      | some hunk =>
        rw [step_hunk options hHunk hFiles hHeader hRead]
        exact .openHunk hunk hHunk (hunkHeader_lines hRead)
      | none =>
        rw [step, if_neg hGit, if_neg (by simpa using hFiles), hHeader]
        simp only [hHunk, if_true, hRead]
        exact .skip
    · cases hOpen : s.hunkOpen with
      | false =>
        rw [step, if_neg hGit, if_neg (by simpa using hFiles), hHeader]
        simp only [hHunk, Bool.false_eq_true, if_false, hOpen, Bool.not_false, if_true]
        exact .skip
      | true =>
        have hContent : isContent line = true := by
          simp [isContent, hGit, hHeader, hHunk]
        rw [step_content options hContent hFiles hOpen]
        cases hKind : bodyKind line with
        | some kind => exact .record kind hContent hKind
        | none => exact .closeHunk hKind

theorem forall₂_getElem? {α β : Type} {R : α → β → Prop} {as : List α} {bs : List β}
    (h : List.Forall₂ R as bs) {i : Nat} {b : β} (hb : bs[i]? = some b) :
    ∃ a, as[i]? = some a ∧ R a b := by
  induction h generalizing i with
  | nil => cases hb
  | cons hHead _ ih =>
    cases i with
    | zero =>
      obtain rfl := Option.some.inj hb
      exact ⟨_, rfl, hHead⟩
    | succ i => exact ih hb

theorem run_cons (options : Options) (line : Bytes) (lines : List Bytes) (s : State) :
    run options (line :: lines) s = run options lines (step options s line) := rfl

theorem run_append (options : Options) (lines more : List Bytes) (s : State) :
    run options (lines ++ more) s = run options more (run options lines s) :=
  List.foldl_append

end GitBranchManager.UnifiedDiffParser
