import GitBranchManager.Diff.ParserSteps
import Mathlib.Data.List.Forall2
import Mathlib.Data.List.ModifyLast

/-! # Which line of the text a hunk line was read from

A turn of the loop leaves the lines of a hunk alone or appends one record to them. The
lines of the text that append to one hunk are its writers, and the hunk's lines are the
records of its writers, in order.
-/

namespace GitBranchManager.UnifiedDiffParser

/-- A line of the text as it stands there, and whether a `\n` ends it. -/
structure RawLine where
  bytes : Bytes
  terminated : Bool
  deriving DecidableEq, Repr

def rawLines (text : Bytes) : List RawLine :=
  let (lines, rest) := Library.Lines.cut LF text
  lines.map (⟨·, true⟩) ++ if rest.isEmpty then [] else [⟨rest, false⟩]

def RawLine.split (raw : RawLine) : Bytes := if raw.terminated then stripCr raw.bytes else raw.bytes

theorem splitLines_eq (text : Bytes) : splitLines text = (rawLines text).map RawLine.split := by
  rw [splitLines, rawLines]
  rcases Library.Lines.cut LF text with ⟨lines, rest⟩
  simp only [List.map_append, List.map_map]
  congr 1
  split <;> rfl

theorem lf_not_mem_rawLines {text : Bytes} {raw : RawLine} (h : raw ∈ rawLines text) :
    LF ∉ raw.bytes := by
  obtain ⟨hLines, hRest⟩ := Library.Lines.sep_not_mem_cut LF text
  rw [rawLines] at h
  rcases hCut : Library.Lines.cut LF text with ⟨lines, rest⟩
  simp only [hCut, List.mem_append, List.mem_map] at h hLines hRest
  rcases h with ⟨line, hLine, rfl⟩ | h
  · exact hLines line hLine
  · split at h
    · cases h
    · rw [List.mem_singleton.mp h]
      exact hRest

def linesAt (files : List DiffFile) (i j : Nat) : List DiffLine :=
  (((files[i]?.bind fun file => file.hunks[j]?)).map DiffHunk.lines).getD []

def writers (options : Options) (i j : Nat) : State → List RawLine → List RawLine
  | _, [] => []
  | s, raw :: raws =>
    let next := step options s raw.split
    if (linesAt next.files i j).length = (linesAt s.files i j).length then writers options i j next raws
    else raw :: writers options i j next raws

theorem linesAt_eq {files : List DiffFile} {i j : Nat} {file : DiffFile} {hunk : DiffHunk}
    (hFile : files[i]? = some file) (hHunk : file.hunks[j]? = some hunk) :
    linesAt files i j = hunk.lines := by
  simp [linesAt, hFile, hHunk]

theorem linesAt_eq_nil (files : List DiffFile) {i j : Nat}
    (h : ∀ file, files[i]? = some file → file.hunks[j]? = none) : linesAt files i j = [] := by
  rw [linesAt]
  cases hFile : files[i]? with
  | none => rfl
  | some file => simp [h file hFile]

theorem getElem?_modifyLast {α : Type} (f : α → α) (l : List α) (i : Nat) :
    (l.modifyLast f)[i]? = if i + 1 = l.length then l[i]?.map f else l[i]? := by
  rcases List.eq_nil_or_concat l with rfl | ⟨l, a, rfl⟩
  · simp [List.modifyLast, List.modifyLast.go]
  · rw [List.concat_eq_append, List.modifyLast_concat]
    rcases Nat.lt_trichotomy i l.length with hi | rfl | hi
    · have hLast : i + 1 ≠ (l ++ [a]).length := by simp; omega
      rw [if_neg hLast, List.getElem?_append_left hi, List.getElem?_append_left hi]
    · simp
    · have hLast : i + 1 ≠ (l ++ [a]).length := by simp; omega
      rw [if_neg hLast, List.getElem?_eq_none (by simp; omega), List.getElem?_eq_none (by simp; omega)]

theorem linesAt_modifyLast (f : DiffFile → DiffFile) (files : List DiffFile) (i j : Nat) :
    linesAt (files.modifyLast f) i j =
      if i + 1 = files.length then
        ((files[i]?.bind fun file => (f file).hunks[j]?).map DiffHunk.lines).getD []
      else linesAt files i j := by
  rw [linesAt, getElem?_modifyLast]
  split
  · cases files[i]? <;> rfl
  · rfl

theorem linesAt_updateFile (s : State) (f : DiffFile → DiffFile) (h : ∀ file, (f file).hunks = file.hunks)
    (i j : Nat) : linesAt (s.updateFile f).files i j = linesAt s.files i j := by
  rw [State.updateFile, linesAt_modifyLast]
  split
  · simp only [h]
    rfl
  · rfl

theorem linesAt_openHunk (s : State) {hunk : DiffHunk} (h : hunk.lines = []) (i j : Nat) :
    linesAt (s.openHunk hunk).files i j = linesAt s.files i j := by
  rw [State.openHunk, State.updateFile, linesAt_modifyLast]
  split
  · rw [linesAt]
    cases hFile : s.files[i]? with
    | none => rfl
    | some file =>
      simp only [Option.bind_some]
      rcases Nat.lt_trichotomy j file.hunks.length with hj | rfl | hj
      · rw [List.getElem?_append_left hj]
      · simp [h]
      · rw [List.getElem?_eq_none (by simp; omega), List.getElem?_eq_none (by omega)]
  · rfl

theorem linesAt_openFile (files : List DiffFile) {file : DiffFile} (h : file.hunks = []) (i j : Nat) :
    linesAt (files ++ [file]) i j = linesAt files i j := by
  rcases Nat.lt_trichotomy i files.length with hi | rfl | hi
  · rw [linesAt, List.getElem?_append_left hi, linesAt]
  · rw [linesAt_eq_nil (files ++ [file]), linesAt_eq_nil files (by simp)]
    simp [h]
  · rw [linesAt_eq_nil (files ++ [file]), linesAt_eq_nil files]
    · intro file' hFile'
      rw [List.getElem?_eq_none (by omega)] at hFile'
      cases hFile'
    · intro file' hFile'
      rw [List.getElem?_eq_none (by simp; omega)] at hFile'
      cases hFile'

theorem linesAt_record (s : State) (kind : DiffLineKind) (text : Bytes) (i j : Nat) :
    linesAt (s.record kind text).files i j = linesAt s.files i j ∨
      linesAt (s.record kind text).files i j = linesAt s.files i j ++ [bodyRecord s kind text] := by
  rw [State.record, State.updateFile, linesAt_modifyLast]
  split
  · rw [linesAt]
    cases hFile : s.files[i]? with
    | none => exact .inl rfl
    | some file =>
      simp only [Option.bind_some, recordLine, pushLine, getElem?_modifyLast]
      split
      · cases hHunk : file.hunks[j]? with
        | none => exact .inl rfl
        | some hunk => exact .inr rfl
      · exact .inl rfl
  · exact .inl rfl

/-- What a hunk line has of the line of the text it was read from. -/
structure WrittenFrom (options : Options) (line : DiffLine) (raw : RawLine) : Prop where
  kind : bodyKind raw.split = some line.kind
  text : line.text = bodyText options line.kind raw.split

theorem WrittenFrom.lf_not_mem {options : Options} {line : DiffLine} {raw : RawLine}
    (h : WrittenFrom options line raw) (hRaw : LF ∉ raw.bytes) : LF ∉ line.text := by
  have hSplit : LF ∉ raw.split := by
    rw [RawLine.split]
    split
    · exact fun hMem => hRaw ((prefix_stripCr raw.bytes).subset hMem)
    · exact hRaw
  rw [h.text, bodyText]
  split
  · exact hSplit
  · exact fun hMem => hSplit (List.mem_of_mem_drop (List.mem_of_mem_take hMem))

theorem linesAt_step (options : Options) (s : State) (raw : RawLine) (i j : Nat) :
    linesAt (step options s raw.split).files i j = linesAt s.files i j ∨
      ∃ line, WrittenFrom options line raw ∧
        linesAt (step options s raw.split).files i j = linesAt s.files i j ++ [line] := by
  have hTurn := step_turn options s raw.split
  generalize step options s raw.split = s' at hTurn ⊢
  cases hTurn with
  | openFile rest _ =>
    have hNew : (openFile rest).hunks = [] := by
      rw [openFile]
      split <;> rfl
    exact .inl (linesAt_openFile s.files hNew i j)
  | skip => exact .inl rfl
  | header update hUpdate =>
    exact .inl (linesAt_updateFile s update (fun file => (header_frame hUpdate file).1) i j)
  | openHunk hunk _ hLines => exact .inl (linesAt_openHunk s hLines i j)
  | record kind _ hKind =>
    exact (linesAt_record s kind (bodyText options kind raw.split) i j).imp_right fun hLines =>
      ⟨_, ⟨hKind, rfl⟩, hLines⟩
  | closeHunk _ => exact .inl rfl

/-- The lines a run adds to a hunk are the records of its writers. -/
theorem linesAt_run (options : Options) (s : State) (raws : List RawLine) (i j : Nat) :
    ∃ added, linesAt (run options (raws.map RawLine.split) s).files i j = linesAt s.files i j ++ added ∧
      List.Forall₂ (WrittenFrom options) added (writers options i j s raws) := by
  induction raws generalizing s with
  | nil => exact ⟨[], by simp [run], .nil⟩
  | cons raw raws ih =>
    obtain ⟨added, hRun, hAdded⟩ := ih (step options s raw.split)
    rw [List.map_cons, run_cons, hRun, writers]
    rcases linesAt_step options s raw i j with hStep | ⟨line, hLine, hStep⟩
    · refine ⟨added, by rw [hStep], ?_⟩
      simp only [hStep, if_true]
      exact hAdded
    · refine ⟨line :: added, by rw [hStep, List.append_assoc, List.singleton_append], ?_⟩
      have hLength : (linesAt (step options s raw.split).files i j).length ≠
          (linesAt s.files i j).length := by
        rw [hStep, List.length_append, List.length_singleton]
        omega
      rw [if_neg hLength]
      exact .cons hLine hAdded

def hunkSource (options : Options) (text : Bytes) (i j : Nat) : List RawLine :=
  writers options i j {} (rawLines text)

theorem mem_writers {options : Options} {i j : Nat} {s : State} {raws : List RawLine} {raw : RawLine}
    (h : raw ∈ writers options i j s raws) : raw ∈ raws := by
  induction raws generalizing s with
  | nil => exact h
  | cons head raws ih =>
    rw [writers] at h
    split at h
    · exact List.mem_cons_of_mem _ (ih h)
    · rcases List.mem_cons.mp h with rfl | h
      · exact List.mem_cons_self
      · exact List.mem_cons_of_mem _ (ih h)

/-- Every line of a parsed hunk was read from its own line of the text. -/
theorem parse_written {options : Options} {text : Bytes} (hSize : text.length ≤ options.maxBytes)
    {i j : Nat} {file : DiffFile} {hunk : DiffHunk} (hFile : (parse options text).files[i]? = some file)
    (hHunk : file.hunks[j]? = some hunk) :
    List.Forall₂ (WrittenFrom options) hunk.lines (hunkSource options text i j) := by
  obtain ⟨added, hRun, hAdded⟩ := linesAt_run options {} (rawLines text) i j
  rw [parse, if_neg (by omega), splitLines_eq] at hFile
  rw [linesAt_eq hFile hHunk] at hRun
  rw [hRun]
  exact hAdded

theorem lf_not_mem_parse {options : Options} {text : Bytes} {file : DiffFile} {hunk : DiffHunk}
    (hFile : file ∈ (parse options text).files) (hHunk : hunk ∈ file.hunks) :
    ∀ line ∈ hunk.lines, LF ∉ line.text := by
  intro line hLine
  by_cases hSize : text.length ≤ options.maxBytes
  · obtain ⟨i, hi⟩ := List.mem_iff_getElem?.mp hFile
    obtain ⟨j, hj⟩ := List.mem_iff_getElem?.mp hHunk
    have hWritten := parse_written hSize hi hj
    obtain ⟨k, hk⟩ := List.mem_iff_getElem?.mp hLine
    obtain ⟨raw, hRaw, hFrom⟩ := forall₂_getElem? hWritten.flip hk
    exact hFrom.lf_not_mem (lf_not_mem_rawLines (mem_writers (List.mem_of_getElem? hRaw)))
  · rw [parse, if_pos (by omega)] at hFile
    cases hFile

end GitBranchManager.UnifiedDiffParser
