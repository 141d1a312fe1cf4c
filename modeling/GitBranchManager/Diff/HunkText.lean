import GitBranchManager.Diff.RangeLine
import Mathlib.Data.List.ModifyLast

/-! # Unified diff texts and their closed-form parse

A hunk text is a range line and body lines of arbitrary content. Run from any state
with an open file the parser appends one hunk to it, as long as no body line looks
like a `---` or `+++` header.
-/

namespace GitBranchManager

def DiffLineKind.marker : DiffLineKind → Bytes
  | .context => [space]
  | .added => [plus]
  | .removed => [minus]
  | .noNewlineMarker => ascii "\\ No newline"

namespace UnifiedDiffParser

structure BodyLine where
  kind : DiffLineKind
  text : Bytes
  deriving DecidableEq, Repr

def BodyLine.bytes (line : BodyLine) : Bytes := line.kind.marker ++ line.text

/-- A removed `-- …` or an added `++ …` prints like a path header. -/
def BodyLine.looksLikeHeader (line : BodyLine) : Bool :=
  (line.kind == .removed && startsWith line.text (ascii "-- ")) ||
    (line.kind == .added && startsWith line.text (ascii "++ "))

/-- What the parser keeps of a body line; a marker line is kept whole. -/
def BodyLine.kept (line : BodyLine) : Bytes :=
  if line.kind = .noNewlineMarker then line.bytes else line.text

structure HunkText where
  range : RangeLine
  body : List BodyLine

def HunkText.lines (hunk : HunkText) : List Bytes :=
  hunk.range.bytes :: hunk.body.map BodyLine.bytes

def records : UInt32 → UInt32 → List BodyLine → List DiffLine
  | _, _, [] => []
  | old, new, line :: body =>
    { kind := line.kind
      oldLine := if line.kind.onOldSide then old else 0
      newLine := if line.kind.onNewSide then new else 0
      text := line.kept } ::
    records (if line.kind.onOldSide then old + 1 else old)
      (if line.kind.onNewSide then new + 1 else new) body

def HunkText.parsed (hunk : HunkText) : DiffHunk :=
  { hunk.range.parsed with
    lines := records hunk.range.parsed.oldStart hunk.range.parsed.newStart hunk.body }

def countKind (kind : DiffLineKind) (body : List BodyLine) : Nat :=
  body.countP fun line => line.kind == kind

def HunkText.addTo (hunk : HunkText) (file : DiffFile) : DiffFile :=
  { file with
    hunks := file.hunks ++ [hunk.parsed]
    addedLines := file.addedLines + UInt32.ofNat (countKind .added hunk.body)
    removedLines := file.removedLines + UInt32.ofNat (countKind .removed hunk.body) }

theorem marker_cons (kind : DiffLineKind) :
    ∃ b rest, kind.marker = b :: rest ∧ b ≠ CR ∧ b ∈ [space, plus, minus, backslash] := by
  cases kind with
  | context => exact ⟨space, [], rfl, by decide, by decide⟩
  | added => exact ⟨plus, [], rfl, by decide, by decide⟩
  | removed => exact ⟨minus, [], rfl, by decide, by decide⟩
  | noNewlineMarker => exact ⟨backslash, ascii " No newline", rfl, by decide, by decide⟩

theorem header_of_marker {b : UInt8} {rest : Bytes} (hb : b ∈ [space, plus, minus, backslash])
    (hOld : startsWith (b :: rest) (ascii "--- ") = false)
    (hNew : startsWith (b :: rest) (ascii "+++ ") = false) : header (b :: rest) = none := by
  apply header_eq_none
  intro entry hEntry
  simp only [List.mem_cons, List.not_mem_nil, or_false] at hb
  simp only [headerTable, List.mem_cons, List.not_mem_nil, or_false] at hEntry
  rcases hEntry with rfl | rfl | rfl | rfl | rfl | rfl | rfl | rfl | rfl | rfl | rfl | rfl | rfl | rfl
  all_goals first
    | exact hOld
    | exact hNew
    | (rcases hb with rfl | rfl | rfl | rfl <;> rfl)

theorem isContent_bytes (line : BodyLine) : isContent line.bytes = !line.looksLikeHeader := by
  obtain ⟨kind, text⟩ := line
  have hTest : ∀ (b : UInt8) (rest : Bytes), b ∈ [space, plus, minus, backslash] →
      isContent (b :: rest) = (header (b :: rest)).isNone := by
    intro b rest hb
    simp only [List.mem_cons, List.not_mem_nil, or_false] at hb
    rcases hb with rfl | rfl | rfl | rfl <;> simp [isContent, ascii, space, plus, minus, backslash]
  cases kind with
  | context =>
    change isContent (space :: text) = _
    rw [hTest _ _ (by decide), header_of_marker (by decide) rfl rfl]
    rfl
  | noNewlineMarker =>
    change isContent (backslash :: (ascii " No newline" ++ text)) = _
    rw [hTest _ _ (by decide), header_of_marker (by decide) rfl rfl]
    rfl
  | removed =>
    change isContent (minus :: text) = _
    rw [hTest _ _ (by decide)]
    have hStart : startsWith (minus :: text) (ascii "--- ") = startsWith text (ascii "-- ") := rfl
    cases hDash : startsWith text (ascii "-- ") with
    | false =>
      rw [header_of_marker (by decide) (hStart.trans hDash) rfl]
      simp [BodyLine.looksLikeHeader, hDash]
    | true =>
      obtain ⟨rest, rfl⟩ := startsWith_iff.mp hDash
      simp [BodyLine.looksLikeHeader, header, headerTable, ascii, minus]
  | added =>
    change isContent (plus :: text) = _
    rw [hTest _ _ (by decide)]
    have hStart : startsWith (plus :: text) (ascii "+++ ") = startsWith text (ascii "++ ") := rfl
    cases hPlus : startsWith text (ascii "++ ") with
    | false =>
      rw [header_of_marker (by decide) rfl (hStart.trans hPlus)]
      simp [BodyLine.looksLikeHeader, hPlus]
    | true =>
      obtain ⟨rest, rfl⟩ := startsWith_iff.mp hPlus
      simp [BodyLine.looksLikeHeader, header, headerTable, ascii, plus]

theorem bodyKind_bytes (line : BodyLine) : bodyKind line.bytes = some line.kind := by
  obtain ⟨kind, text⟩ := line
  cases kind with
  | noNewlineMarker =>
    have hStart : startsWith (BodyLine.bytes ⟨.noNewlineMarker, text⟩) (ascii "\\ No newline") = true :=
      startsWith_append _ _
    rw [bodyKind, if_pos hStart]
  | context => rfl
  | added => rfl
  | removed => rfl

theorem bodyText_bytes (options : Options) (line : BodyLine)
    (h : line.kind ≠ .noNewlineMarker → line.text.length ≤ options.maxLineLength) :
    bodyText options line.kind line.bytes = line.kept := by
  obtain ⟨kind, text⟩ := line
  cases kind with
  | noNewlineMarker => rfl
  | context => exact List.take_of_length_le (h (fun hKind => by cases hKind))
  | added => exact List.take_of_length_le (h (fun hKind => by cases hKind))
  | removed => exact List.take_of_length_le (h (fun hKind => by cases hKind))

/-- The body can be told from headers and none of it is clipped. -/
def Readable (options : Options) (body : List BodyLine) : Prop :=
  ∀ line ∈ body, line.looksLikeHeader = false ∧
    (line.kind ≠ .noNewlineMarker → line.text.length ≤ options.maxLineLength)

theorem record_concat (fs : List DiffFile) (file : DiffFile) (hs : List DiffHunk) (hunk : DiffHunk)
    (isOpen : Bool) (old new : UInt32) (kind : DiffLineKind) (text : Bytes) :
    State.record ⟨fs ++ [{ file with hunks := hs ++ [hunk] }], isOpen, old, new⟩ kind text =
      let line := bodyRecord ⟨[], isOpen, old, new⟩ kind text
      ⟨fs ++ [{ file with
          hunks := hs ++ [{ hunk with lines := hunk.lines ++ [line] }]
          addedLines := if kind = .added then file.addedLines + 1 else file.addedLines
          removedLines := if kind = .removed then file.removedLines + 1 else file.removedLines }],
        isOpen, if kind.onOldSide then old + 1 else old, if kind.onNewSide then new + 1 else new⟩ := by
  simp [State.record, State.updateFile, List.modifyLast_concat, recordLine, pushLine, bodyRecord]

theorem countKind_cons (kind : DiffLineKind) (line : BodyLine) (body : List BodyLine) (n : UInt32) :
    n + UInt32.ofNat (countKind kind (line :: body)) =
      (if line.kind = kind then n + 1 else n) + UInt32.ofNat (countKind kind body) := by
  by_cases hKind : line.kind = kind
  · have hCount : countKind kind (line :: body) = countKind kind body + 1 := by
      simp [countKind, hKind]
    rw [hCount, UInt32.ofNat_add, if_pos hKind, UInt32.add_comm (UInt32.ofNat _), ← UInt32.add_assoc]
    rfl
  · have hCount : countKind kind (line :: body) = countKind kind body := by
      simp [countKind, hKind]
    rw [hCount, if_neg hKind]

theorem run_body (options : Options) {body : List BodyLine} (h : Readable options body)
    (fs : List DiffFile) (file : DiffFile) (hs : List DiffHunk) (hunk : DiffHunk) (old new : UInt32) :
    ∃ old' new', run options (body.map BodyLine.bytes)
        ⟨fs ++ [{ file with hunks := hs ++ [hunk] }], true, old, new⟩ =
      ⟨fs ++ [{ file with
          hunks := hs ++ [{ hunk with lines := hunk.lines ++ records old new body }]
          addedLines := file.addedLines + UInt32.ofNat (countKind .added body)
          removedLines := file.removedLines + UInt32.ofNat (countKind .removed body) }],
        true, old', new'⟩ := by
  induction body generalizing file hunk old new with
  | nil => exact ⟨old, new, by simp [run, records, countKind]⟩
  | cons line body ih =>
    obtain ⟨hLooks, hLength⟩ := h line List.mem_cons_self
    have hContent : isContent line.bytes = true := by rw [isContent_bytes, hLooks]; rfl
    rw [List.map_cons, run_cons, step_content options hContent (by simp) rfl, bodyKind_bytes]
    dsimp only
    rw [bodyText_bytes options line hLength, record_concat]
    dsimp only
    obtain ⟨old', new', hRun⟩ := ih (fun l hl => h l (List.mem_cons_of_mem _ hl))
      { file with
        addedLines := if line.kind = .added then file.addedLines + 1 else file.addedLines
        removedLines := if line.kind = .removed then file.removedLines + 1 else file.removedLines }
      { hunk with lines := hunk.lines ++ [bodyRecord ⟨[], true, old, new⟩ line.kind line.kept] }
      (if line.kind.onOldSide then old + 1 else old) (if line.kind.onNewSide then new + 1 else new)
    refine ⟨old', new', hRun.trans ?_⟩
    simp only [countKind_cons, records, List.append_assoc, List.singleton_append, bodyRecord]

theorem header_rangeLine (line : RangeLine) : header line.bytes = none := by
  apply header_eq_none
  intro entry hEntry
  simp only [headerTable, List.mem_cons, List.not_mem_nil, or_false] at hEntry
  rcases hEntry with rfl | rfl | rfl | rfl | rfl | rfl | rfl | rfl | rfl | rfl | rfl | rfl | rfl | rfl
  all_goals rfl

theorem step_rangeLine (options : Options) (line : RangeLine) (fs : List DiffFile) (file : DiffFile)
    (isOpen : Bool) (old new : UInt32) :
    step options ⟨fs ++ [file], isOpen, old, new⟩ line.bytes =
      ⟨fs ++ [{ file with hunks := file.hunks ++ [line.parsed] }], true, line.parsed.oldStart,
        line.parsed.newStart⟩ := by
  rw [step_hunk options rfl (by simp) (header_rangeLine _) (hunkHeader_bytes _)]
  simp only [State.openHunk, State.updateFile, List.modifyLast_concat]

theorem run_hunk (options : Options) {hunk : HunkText} (h : Readable options hunk.body)
    (fs : List DiffFile) (file : DiffFile) (isOpen : Bool) (old new : UInt32) :
    ∃ old' new', run options hunk.lines ⟨fs ++ [file], isOpen, old, new⟩ =
      ⟨fs ++ [hunk.addTo file], true, old', new'⟩ := by
  obtain ⟨old', new', hRun⟩ := run_body options h fs file file.hunks hunk.range.parsed
    hunk.range.parsed.oldStart hunk.range.parsed.newStart
  refine ⟨old', new', ?_⟩
  rw [HunkText.lines, run_cons, step_rangeLine, hRun]
  rfl

def addHunks (hunks : List HunkText) (file : DiffFile) : DiffFile :=
  { file with
    hunks := file.hunks ++ hunks.map HunkText.parsed
    addedLines := file.addedLines + UInt32.ofNat (countKind .added (hunks.flatMap HunkText.body))
    removedLines :=
      file.removedLines + UInt32.ofNat (countKind .removed (hunks.flatMap HunkText.body)) }

theorem addHunks_cons (hunk : HunkText) (hunks : List HunkText) (file : DiffFile) :
    addHunks (hunk :: hunks) file = addHunks hunks (hunk.addTo file) := by
  have hCount : ∀ kind, countKind kind ((hunk :: hunks).flatMap HunkText.body) =
      countKind kind hunk.body + countKind kind (hunks.flatMap HunkText.body) := fun kind => by
    simp [countKind]
  simp only [addHunks, HunkText.addTo, hCount, UInt32.ofNat_add, List.map_cons, List.append_assoc,
    List.singleton_append, UInt32.add_assoc]

theorem run_hunks (options : Options) {hunks : List HunkText}
    (h : ∀ hunk ∈ hunks, Readable options hunk.body)
    (fs : List DiffFile) (file : DiffFile) (isOpen : Bool) (old new : UInt32) :
    ∃ isOpen' old' new', run options (hunks.flatMap HunkText.lines) ⟨fs ++ [file], isOpen, old, new⟩ =
      ⟨fs ++ [addHunks hunks file], isOpen', old', new'⟩ := by
  induction hunks generalizing file isOpen old new with
  | nil => exact ⟨isOpen, old, new, by simp [run, addHunks, countKind]⟩
  | cons hunk hunks ih =>
    obtain ⟨old', new', hRun⟩ := run_hunk options (h hunk List.mem_cons_self) fs file isOpen old new
    rw [List.flatMap_cons, run_append, hRun, addHunks_cons]
    exact ih (fun k hk => h k (List.mem_cons_of_mem _ hk)) _ _ _ _

end UnifiedDiffParser

end GitBranchManager
