import GitBranchManager.Diff.PrintedLines
import GitBranchManager.Diff.Provenance

/-! # Clipped lines in patches

The parser keeps at most `maxLineLength` bytes of a line for the renderer, and the patch
builders print what it kept. A patch is the one the full lines would give exactly when
every line it prints was short enough and lost no `\r`.
-/

namespace GitBranchManager.UnifiedDiffParser

def RawLine.content (raw : RawLine) : Bytes := raw.bytes.drop 1

def RawLine.Kept (options : Options) (raw : RawLine) : Prop :=
  raw.content.length ≤ options.maxLineLength ∧
    (raw.terminated = true → raw.content.getLast? ≠ some CR)

def fullLine (line : DiffLine) (raw : RawLine) : DiffLine :=
  if line.kind = .noNewlineMarker then line else { line with text := raw.content }

/-- The hunk with the full content each of its lines has in the text. -/
def unclipped (options : Options) (text : Bytes) (i j : Nat) (hunk : DiffHunk) : DiffHunk :=
  { hunk with lines := List.zipWith fullLine hunk.lines (hunkSource options text i j) }

theorem drop_stripCr (bytes : Bytes) : (stripCr bytes).drop 1 = stripCr (bytes.drop 1) := by
  cases bytes with
  | nil => rfl
  | cons b t =>
    cases t with
    | nil =>
      rw [stripCr]
      split <;> rfl
    | cons c t =>
      simp only [stripCr, List.getLast?_cons_cons, List.dropLast_cons_cons, List.drop_succ_cons,
        List.drop_zero]
      split <;> rfl

theorem length_stripCr (bytes : Bytes) : (stripCr bytes).length ≤ bytes.length :=
  (prefix_stripCr bytes).length_le

theorem take_stripCr_eq_iff (n : Nat) (content : Bytes) :
    (stripCr content).take n = content ↔ content.length ≤ n ∧ content.getLast? ≠ some CR := by
  constructor
  · intro h
    have hTake : content.length ≤ n := by
      rw [← h]
      exact (List.length_take_le n _)
    refine ⟨hTake, (stripCr_eq_self_iff content).mp ?_⟩
    rwa [List.take_of_length_le ((length_stripCr content).trans hTake)] at h
  · rintro ⟨hLength, hLast⟩
    rw [(stripCr_eq_self_iff content).mpr hLast, List.take_of_length_le hLength]

theorem WrittenFrom.text_eq_iff {options : Options} {line : DiffLine} {raw : RawLine}
    (h : WrittenFrom options line raw) (hKind : line.kind ≠ .noNewlineMarker) :
    line.text = raw.content ↔ raw.Kept options := by
  have hSplit : raw.split.drop 1 =
      if raw.terminated then stripCr raw.content else raw.content := by
    rw [RawLine.split, RawLine.content]
    split
    · exact drop_stripCr raw.bytes
    · rfl
  rw [h.text, bodyText, if_neg hKind, hSplit, RawLine.Kept]
  cases hTerminated : raw.terminated with
  | true => simpa using take_stripCr_eq_iff options.maxLineLength raw.content
  | false => simp [List.take_eq_self_iff]

theorem sameLine_zipWith {options : Options} {lines : List DiffLine} {raws : List RawLine}
    (h : List.Forall₂ (WrittenFrom options) lines raws) (hLf : ∀ raw ∈ raws, LF ∉ raw.bytes) :
    List.Forall₂ SameLine lines (List.zipWith fullLine lines raws) := by
  induction h with
  | nil => exact .nil
  | @cons line raw lines raws hLine _ ih =>
    refine .cons ?_ (ih fun r hr => hLf r (List.mem_cons_of_mem _ hr))
    have hRaw := hLf raw List.mem_cons_self
    have hContent : LF ∉ raw.content := fun hMem => hRaw (List.mem_of_mem_drop hMem)
    have hText := hLine.lf_not_mem hRaw
    rw [fullLine]
    split
    · exact ⟨rfl, hText, hText⟩
    · exact ⟨rfl, hText, hContent⟩

/-- A patch built from a parsed hunk is the patch of the hunk's full lines precisely when the
parser kept every line whole that the patch prints. -/
theorem patch_unclipped_iff (options : Options) (text : Bytes)
    (hSize : text.length ≤ options.maxBytes) (i j : Nat) (file : DiffFile) (hunk : DiffHunk)
    (hFile : (parse options text).files[i]? = some file) (hHunk : file.hunks[j]? = some hunk)
    (request : PatchRequest) :
    request.build file hunk = request.build file (unclipped options text i j hunk) ↔
      ∀ (k : Nat) (raw : RawLine), (hunkSource options text i j)[k]? = some raw →
        request.Emits (hunk.lines.map DiffLine.kind) k → raw.Kept options := by
  have hWritten := parse_written hSize hFile hHunk
  have hSame := sameLine_zipWith hWritten fun raw hRaw => lf_not_mem_rawLines (mem_writers hRaw)
  have hFull : ∀ (k : Nat) (line : DiffLine) (raw : RawLine), hunk.lines[k]? = some line →
      (hunkSource options text i j)[k]? = some raw →
      (List.zipWith fullLine hunk.lines (hunkSource options text i j))[k]? =
        some (fullLine line raw) := by
    intro k line raw hLine hRaw
    simp [List.getElem?_zipWith, hLine, hRaw]
  have hText : ∀ (k : Nat) (line : DiffLine) (raw : RawLine), hunk.lines[k]? = some line →
      (hunkSource options text i j)[k]? = some raw →
      request.Emits (hunk.lines.map DiffLine.kind) k →
      (line.text = (fullLine line raw).text ↔ raw.Kept options) := by
    intro k line raw hLine hRaw hEmits
    obtain ⟨kind, hKind, hContent⟩ := hEmits.content
    have hEq : line.kind = kind := by simpa [hLine] using hKind
    obtain ⟨line', hLine', hFrom⟩ := forall₂_getElem? hWritten hRaw
    obtain rfl : line = line' := Option.some.inj (hLine.symm.trans hLine')
    rw [fullLine, if_neg (hEq ▸ hContent)]
    exact hFrom.text_eq_iff (hEq ▸ hContent)
  rw [unclipped, build_eq_iff file hunk hSame request]
  constructor
  · intro hAll k raw hRaw hEmits
    obtain ⟨line, hLine, _⟩ := forall₂_getElem? hWritten hRaw
    exact (hText k line raw hLine hRaw hEmits).mp
      (hAll k line (fullLine line raw) hLine (hFull k line raw hLine hRaw) hEmits)
  · intro hAll k line line' hLine hLine' hEmits
    obtain ⟨_, raw, _, hRaw, _⟩ := List.getElem?_zipWith_eq_some.mp hLine'
    obtain rfl : fullLine line raw = line' :=
      Option.some.inj ((hFull k line raw hLine hRaw).symm.trans hLine')
    exact (hText k line raw hLine hRaw hEmits).mpr (hAll k raw hRaw hEmits)

theorem patch_unclipped_sample :
    ∃ file hunk, (parse {} (diffText [sectionOf [⟨.added, ascii "x"⟩]] false)).files = [file] ∧
      file.hunks = [hunk] ∧
      PatchRequest.build file hunk (.whole false false) = PatchRequest.build file
        (unclipped {} (diffText [sectionOf [⟨.added, ascii "x"⟩]] false) 0 0 hunk)
        (.whole false false) := by
  refine ⟨_, _, rfl, rfl, ?_⟩
  refine (patch_unclipped_iff {} _ (by decide) 0 0 _ _ rfl rfl (.whole false false)).mpr ?_
  intro k raw hRaw _
  have hSource : hunkSource {} (diffText [sectionOf [⟨.added, ascii "x"⟩]] false) 0 0 =
      [⟨ascii "+x", true⟩] := by decide
  rw [hSource] at hRaw
  have hMem := List.mem_of_getElem? hRaw
  rw [List.mem_singleton] at hMem
  subst hMem
  exact ⟨by decide, fun _ => by decide⟩

theorem parse_addedLine {text : Bytes} (hText : IsLine text)
    (hLooks : startsWith text (ascii "++ ") = false)
    (hSize : (diffText [sectionOf [⟨.added, text⟩]] false).length ≤ 2 * 1024 * 1024) :
    (parse {} (diffText [sectionOf [⟨.added, text⟩]] false)).files =
      [{ oldPath := ascii "f", newPath := ascii "f", addedLines := 1
         hunks := [{
           oldStart := 1, oldCount := 1, newStart := 1, newCount := 1
           lines := [{ kind := .added, newLine := 1, text := text.take (8 * 1024) }] }] }] := by
  have hLines : ∀ line ∈ (sectionOf [⟨.added, text⟩]).lines, IsLine line ∧ line ≠ [] := by
    intro line hLine
    have hShape : (sectionOf [⟨.added, text⟩]).lines = (sectionOf []).lines ++ [plus :: text] := rfl
    rw [hShape, List.mem_append, List.mem_singleton] at hLine
    rcases hLine with hLine | rfl
    · have hPlain : (sectionOf []).Plain {} := sectionOf_plain (by simp)
      exact hPlain.isLine line hLine
    · exact ⟨IsLine.append (a := [plus]) (by decide) hText, by simp⟩
  have hSplit : splitLines (diffText [sectionOf [⟨.added, text⟩]] false) =
      (sectionOf []).lines ++ [BodyLine.bytes ⟨.added, text⟩] := by
    have hFlat : [sectionOf [⟨.added, text⟩]].flatMap SectionText.lines =
        (sectionOf [⟨.added, text⟩]).lines := by simp
    rw [diffText, hFlat]
    exact splitLines_text hLines false
  have hHead : run {} (sectionOf []).lines {} =
      ⟨[] ++ [{ oldPath := ascii "f", newPath := ascii "f"
                hunks := [] ++ [{ oldStart := 1, oldCount := 1, newStart := 1, newCount := 1 }] }],
        true, 1, 1⟩ := by decide
  have hContent : isContent (BodyLine.bytes ⟨.added, text⟩) = true := by
    rw [isContent_bytes]
    simp [BodyLine.looksLikeHeader, hLooks]
  rw [parse, if_neg (Nat.not_lt.mpr hSize), hSplit, run_append, hHead, run_cons,
    step_content _ hContent (by simp) rfl, bodyKind_bytes]
  rfl

theorem length_addedLine (text : Bytes) :
    (diffText [sectionOf [⟨.added, text⟩]] false).length = 51 + text.length := by
  have hText : diffText [sectionOf [⟨.added, text⟩]] false =
      Library.Lines.join LF (sectionOf []).lines ++ plus :: (text ++ [LF]) := by
    have hShape : [sectionOf [⟨.added, text⟩]].flatMap SectionText.lines =
        (sectionOf []).lines ++ [plus :: text] := rfl
    rw [diffText, hShape, Library.Lines.join_append]
    simp
  have hHead : (Library.Lines.join LF (sectionOf []).lines).length = 49 := by decide
  rw [hText, List.length_append, hHead, List.length_cons, List.length_append, List.length_singleton]
  omega

/-- An added line one byte over the limit is staged without its last byte. -/
theorem patch_clips_long_line :
    ∃ file hunk,
      (parse {} (diffText [sectionOf [⟨.added, List.replicate 8193 120⟩]] false)).files = [file] ∧
      file.hunks = [hunk] ∧
      buildHunkPatch file hunk false false =
        wholePatch file hunk false [plus :: List.replicate 8192 120] ∧
      buildHunkPatch file hunk false false ≠
        wholePatch file hunk false [plus :: List.replicate 8193 120] := by
  have hOnly : ∀ b ∈ List.replicate 8193 (120 : UInt8), b = 120 := fun b hb => List.eq_of_mem_replicate hb
  have hLong : (List.replicate 8193 (120 : UInt8)).length = 8193 := List.length_replicate
  have hTake : (List.replicate 8193 (120 : UInt8)).take (8 * 1024) = List.replicate 8192 120 :=
    List.take_replicate
  have hShort : (List.replicate 8192 (120 : UInt8)).length = 8192 := List.length_replicate
  generalize List.replicate 8193 (120 : UInt8) = text at hOnly hLong hTake ⊢
  generalize List.replicate 8192 (120 : UInt8) = clipped at hTake hShort ⊢
  have hText : IsLine text :=
    isLine_of_not_mem (fun h => absurd (hOnly _ h) (by decide)) (fun h => absurd (hOnly _ h) (by decide))
  have hLooks : startsWith text (ascii "++ ") = false := by
    rw [Bool.eq_false_iff]
    intro hStart
    obtain ⟨rest, rfl⟩ := startsWith_iff.mp hStart
    exact absurd (hOnly 43 (by simp [ascii])) (by decide)
  have hFiles := parse_addedLine hText hLooks (by rw [length_addedLine, hLong]; decide)
  rw [hTake] at hFiles
  refine ⟨_, _, hFiles, rfl, rfl, ?_⟩
  intro hPatch
  have hBody := congrArg List.length (List.append_cancel_left hPatch)
  simp only [List.flatMap_cons, List.flatMap_nil, hunkLine, Library.Lines.join_cons,
    Library.Lines.join_nil, List.length_append, List.length_cons, List.length_nil, hLong, hShort] at hBody
  omega

end GitBranchManager.UnifiedDiffParser
