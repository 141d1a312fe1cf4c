import GitBranchManager.Base.BufferedOutput
import GitBranchManager.Diff.QuotedPaths
import GitBranchManager.Objects.CommitMeta
import GitBranchManager.Refs.RefCommands
import Mathlib.Data.List.ModifyLast

/-! # The history of a file

A commit is a line that starts with a marker, and the line after the next says what became of the
file. A subject is read up to its first tab, and a path that git quotes is kept in quotes.
-/

namespace GitBranchManager

open Library Library.Pieces LineSplitter

structure FileHistoryEntry where
  oid : ObjectId := .null
  author : Signature := {}
  subject : Bytes := []
  status : Bytes := []
  renamedFrom : Bytes := []
  path : Bytes := []
  deriving DecidableEq

namespace FileHistoryStore

def kRecordMarker : UInt8 := 1

/-- Five columns; what follows the fifth is not read. -/
def parseCommitFields (record : Bytes) : FileHistoryEntry :=
  let columns := record.splitOn TAB
  { oid := ObjectId.fromHex (columns.getD 0 [])
    author := {
      name := columns.getD 1 []
      email := columns.getD 2 []
      when := parseInt64 (columns.getD 3 []) }
    subject := columns.getD 4 [] }

def isMove (status : Bytes) : Bool := startsWith status (ascii "R") || startsWith status (ascii "C")

/-- `<status> <path>`, or both paths of a move. -/
def readStatus (line : Bytes) (tab : Nat) (entry : FileHistoryEntry) : FileHistoryEntry :=
  let status := line.take tab
  let rest := line.drop (tab + 1)
  { entry with
    status
    path := line.drop (match rfind [TAB] line with
      | some last => last + 1
      | none => 0)
    renamedFrom := match isMove status, find [TAB] rest with
      | true, some tab2 => rest.take tab2
      | _, _ => entry.renamedFrom }

def readLine (entries : List FileHistoryEntry) (line : Bytes) : List FileHistoryEntry :=
  if line.isEmpty then entries
  else if startsWith line [kRecordMarker] then entries ++ [parseCommitFields (line.drop 1)]
  else match find [TAB] line with
    | some tab => entries.modifyLast (readStatus line tab)
    | none => entries

def command (path startRevision : Bytes) : GitCommand :=
  [ascii "log", ascii "--follow", ascii "--name-status", ascii "--format=" ++ kRecordMarker ::
    ascii "%H\x09%an\x09%ae\x09%at\x09%s"] ++
    (if startRevision.isEmpty then [] else [startRevision]) ++ [ascii "--", path]

def fileHistory {ρ : Type} (git : ProcessRunner ρ) (s : ρ) (path startRevision : Bytes) :
    GitResult (List FileHistoryEntry) × ρ :=
  if path.isEmpty then (.error { code := .invalidArgument, message := ascii "No file selected" }, s)
  else match git s (command path startRevision) with
    | (.error e, s) => (.error e.toGitError, s)
    | (.ok out, s) => (.ok ((out.splitOn LF).foldl readLine []), s)

end FileHistoryStore

/-! ## What git prints -/

/-- With `core.quotepath=false`. -/
def mustQuote (b : UInt8) : Bool :=
  (UnifiedDiffParser.escapeLetter b).isSome || UnifiedDiffParser.gitOctal false b

def printedPath (path : Bytes) : Bytes :=
  if path.any mustQuote then UnifiedDiffParser.quotePath (UnifiedDiffParser.gitOctal false) path else path

/-- A commit, and what it did to the file; a move has a path before it. -/
structure LoggedCommit where
  oid : ObjectId
  authorName : Bytes
  authorEmail : Bytes
  authorTime : Nat
  subject : Bytes
  status : Bytes
  path : Bytes
  renamedFrom : Option Bytes := none
  oidSome : oid.isNull = false
  fits : authorTime < 2 ^ 63
  plain : ∀ text ∈ [authorName, authorEmail, status], TAB ∉ text ∧ LF ∉ text
  subjectPlain : LF ∉ subject
  unmarked : status.head? ≠ some FileHistoryStore.kRecordMarker
  moved : renamedFrom.isSome = FileHistoryStore.isMove status

namespace LoggedCommit

def recordLine (commit : LoggedCommit) : Bytes :=
  FileHistoryStore.kRecordMarker :: (commit.oid.hex ++ TAB :: (commit.authorName ++ TAB :: (commit.authorEmail ++
    TAB :: (Decimal.numeral commit.authorTime ++ TAB :: commit.subject))))

def statusLine (commit : LoggedCommit) : Bytes :=
  commit.status ++ TAB :: match commit.renamedFrom with
    | none => printedPath commit.path
    | some before => printedPath before ++ TAB :: printedPath commit.path

def lines (commit : LoggedCommit) : List Bytes := [commit.recordLine, [], commit.statusLine]

def entry (commit : LoggedCommit) : FileHistoryEntry where
  oid := commit.oid
  author := {
    name := commit.authorName
    email := commit.authorEmail
    when := Int64.ofInt commit.authorTime }
  subject := commit.subject
  status := commit.status
  renamedFrom := commit.renamedFrom.getD []
  path := commit.path

def paths (commit : LoggedCommit) : List Bytes := commit.path :: commit.renamedFrom.toList

/-- What the code makes of the commit. -/
def read (commit : LoggedCommit) : FileHistoryEntry :=
  { commit.entry with
    subject := (trimmed LF commit.subject).takeWhile (· != TAB)
    renamedFrom := (commit.renamedFrom.map printedPath).getD []
    path := printedPath commit.path }

end LoggedCommit

def historyText (commits : List LoggedCommit) : Bytes := Lines.join LF (commits.flatMap LoggedCommit.lines)

/-! ## Reading it back -/

theorem not_mem_printedPath {b : UInt8} (h : b < 32) (path : Bytes) : b ∉ printedPath path := by
  have hQuoted : ∀ n : Fin 256, (UnifiedDiffParser.quoteByte (UnifiedDiffParser.gitOctal false) (UInt8.ofFin n)).all
      (32 ≤ ·) = true := by
    decide +kernel
  have hLow (c : UInt8) (hc : 32 ≤ c) : b ≠ c := by
    rintro rfl
    exact absurd (UInt8.lt_of_lt_of_le h hc) (UInt8.lt_irrefl b)
  rw [printedPath]
  split
  · rw [UnifiedDiffParser.quotePath, List.mem_append, List.mem_cons, List.mem_flatMap, List.mem_singleton]
    rintro ((hb | ⟨c, -, hb⟩) | hb)
    · exact hLow 34 (by decide) hb
    · exact hLow b (by simpa using List.all_eq_true.mp (hQuoted c.toFin) b hb) rfl
    · exact hLow 34 (by decide) hb
  · rename_i hPlain
    intro hb
    have hMust : mustQuote b = true := by
      rw [mustQuote, UnifiedDiffParser.gitOctal, decide_eq_true h]
      simp
    exact hPlain (List.any_eq_true.mpr ⟨b, hb, hMust⟩)

/-- Quotes make a path longer. -/
theorem printedPath_eq_iff (path : Bytes) : printedPath path = path ↔ path.any mustQuote = false := by
  rw [printedPath]
  split
  · rename_i hQuoted
    rw [hQuoted]
    refine iff_of_false (fun hSame => ?_) (by simp)
    have hPart (path : Bytes) : path.length ≤
        (path.flatMap (UnifiedDiffParser.quoteByte (UnifiedDiffParser.gitOctal false))).length := by
      induction path with
      | nil => exact Nat.zero_le _
      | cons b path ih =>
        have hByte : 1 ≤ (UnifiedDiffParser.quoteByte (UnifiedDiffParser.gitOctal false) b).length := by
          rw [UnifiedDiffParser.quoteByte]
          split
          · exact Nat.le_add_left 1 1
          · split
            · exact Nat.le_add_left 1 3
            · exact Nat.le_refl 1
        rw [List.flatMap_cons, List.length_append, List.length_cons]
        omega
    have hLength := congrArg List.length hSame
    rw [UnifiedDiffParser.quotePath, List.length_append, List.length_cons, List.length_singleton] at hLength
    have hLe := hPart path
    omega
  · rename_i hPlain
    exact iff_of_true rfl (Bool.eq_false_iff.mpr hPlain)

namespace FileHistoryStore

theorem readLine_record (entries : List FileHistoryEntry) (commit : LoggedCommit) :
    readLine entries (trimmed LF commit.recordLine) = entries ++ [
      { oid := commit.oid
        author := commit.entry.author
        subject := (trimmed LF commit.subject).takeWhile (· != TAB) }] := by
  have hPlain := commit.plain
  simp only [List.forall_mem_cons, List.not_mem_nil, false_imp_iff, implies_true, and_true] at hPlain
  obtain ⟨⟨hName, -⟩, ⟨hEmail, -⟩, -⟩ := hPlain
  have hHex : TAB ∉ commit.oid.hex := fun hMem => absurd (ObjectId.mem_kDigits_of_mem_hex hMem) (by decide)
  have hTime : TAB ∉ Decimal.numeral commit.authorTime := Decimal.not_mem_numeral _ (by decide)
  have hTrim : trimmed LF commit.recordLine = kRecordMarker :: (commit.oid.hex ++ TAB :: (commit.authorName ++
      TAB :: (commit.authorEmail ++ TAB :: (Decimal.numeral commit.authorTime ++ TAB ::
        trimmed LF commit.subject)))) := by
    have hFront : commit.recordLine = kRecordMarker :: (commit.oid.hex ++ TAB :: (commit.authorName ++ TAB ::
        (commit.authorEmail ++ TAB :: Decimal.numeral commit.authorTime))) ++ [TAB] ++ commit.subject := by
      simp [LoggedCommit.recordLine]
    rw [hFront, trimmed_append (by rw [List.getLast?_concat]; decide)]
    simp
  have hWhen : parseInt64 (Decimal.numeral commit.authorTime ++ []) = Int64.ofInt commit.authorTime :=
    parseInt64_numeral commit.fits fun _ => nofun
  rw [List.append_nil] at hWhen
  obtain ⟨first, more, hSubject⟩ := exists_splitOn TAB (trimmed LF commit.subject)
  have hColumns : (commit.oid.hex ++ TAB :: (commit.authorName ++ TAB :: (commit.authorEmail ++ TAB ::
      (Decimal.numeral commit.authorTime ++ TAB :: trimmed LF commit.subject)))).splitOn TAB =
        commit.oid.hex :: commit.authorName :: commit.authorEmail :: Decimal.numeral commit.authorTime ::
          first :: more := by
    rw [List.splitOn_append_cons_self_of_not_mem hHex, List.splitOn_append_cons_self_of_not_mem hName,
      List.splitOn_append_cons_self_of_not_mem hEmail, List.splitOn_append_cons_self_of_not_mem hTime, hSubject]
  have hMarked : ∀ text, startsWith (kRecordMarker :: text) [kRecordMarker] = true := fun text =>
    startsWith_append [kRecordMarker] text
  rw [hTrim, readLine, if_neg (by simp), hMarked, if_pos rfl, List.drop_one, List.tail_cons, parseCommitFields,
    hColumns, ← first_eq hSubject]
  simp only [List.getD_cons_zero, List.getD_cons_succ, ObjectId.fromHex_hex commit.oidSome, hWhen]
  rfl

/-- What stands behind the status. -/
def pathColumns (commit : LoggedCommit) : Bytes :=
  match commit.renamedFrom with
  | none => printedPath commit.path
  | some before => printedPath before ++ TAB :: printedPath commit.path

theorem statusLine_eq (commit : LoggedCommit) :
    commit.statusLine = commit.status ++ TAB :: pathColumns commit := rfl

theorem tab_not_mem_status (commit : LoggedCommit) : TAB ∉ commit.status :=
  (commit.plain commit.status (by simp)).1

theorem trimmed_statusLine (commit : LoggedCommit) : trimmed LF commit.statusLine = commit.statusLine := by
  have hReturn (path : Bytes) : CR ∉ printedPath path := not_mem_printedPath (by decide) path
  have hLast : (commit.status ++ [TAB]).getLast? ≠ some CR := by
    rw [List.getLast?_concat]
    decide
  have hNone : CR ∉ pathColumns commit := by
    rw [pathColumns]
    cases commit.renamedFrom with
    | none => exact hReturn _
    | some before =>
      rw [List.mem_append, List.mem_cons, not_or, not_or]
      exact ⟨hReturn _, by decide, hReturn _⟩
  rw [statusLine_eq, List.append_cons, trimmed_append hLast, trimmed_of_not_mem hNone]

theorem unmarked_statusLine (commit : LoggedCommit) : startsWith commit.statusLine [kRecordMarker] = false := by
  have hHead := commit.unmarked
  rw [statusLine_eq]
  cases hText : commit.status with
  | nil => rfl
  | cons b status =>
    rw [hText, List.head?_cons] at hHead
    rw [List.cons_append, startsWith_cons_cons, beq_eq_false_iff_ne.mpr fun hSame => hHead (congrArg some hSame.symm),
      Bool.false_and]

/-- The last tab is the one in front of the path, and the first after the status ends the old path. -/
theorem readStatus_statusLine (entry : FileHistoryEntry) (commit : LoggedCommit) :
    readStatus commit.statusLine commit.status.length entry = { entry with
      status := commit.status
      path := printedPath commit.path
      renamedFrom := (commit.renamedFrom.map printedPath).getD entry.renamedFrom } := by
  have hTab (path : Bytes) : TAB ∉ printedPath path := not_mem_printedPath (by decide) path
  rw [readStatus, statusLine_eq, List.take_left, drop_field, ← commit.moved, pathColumns]
  cases hBefore : commit.renamedFrom with
  | none =>
    dsimp only
    rw [rfind_last (hTab _)]
    dsimp only
    rw [drop_field]
    rfl
  | some before =>
    have hLast : commit.status ++ TAB :: (printedPath before ++ TAB :: printedPath commit.path) =
        (commit.status ++ TAB :: printedPath before) ++ TAB :: printedPath commit.path := by
      rw [List.append_assoc, List.cons_append]
    dsimp only
    rw [hLast, rfind_last (hTab _)]
    dsimp only
    rw [drop_field, find_byte (hTab _)]
    exact congrArg (fun renamedFrom => { entry with
      status := commit.status, path := printedPath commit.path, renamedFrom }) List.take_left

theorem readLine_status (entries : List FileHistoryEntry) (entry : FileHistoryEntry) (commit : LoggedCommit) :
    readLine (entries ++ [entry]) (trimmed LF commit.statusLine) = entries ++ [
      { entry with
        status := commit.status
        path := printedPath commit.path
        renamedFrom := (commit.renamedFrom.map printedPath).getD entry.renamedFrom }] := by
  have hSome : commit.statusLine.isEmpty = false := by
    rw [statusLine_eq]
    simp
  have hFind : find [TAB] commit.statusLine = some commit.status.length := find_byte (tab_not_mem_status commit) _
  rw [trimmed_statusLine, readLine, hSome, if_neg Bool.false_ne_true, unmarked_statusLine,
    if_neg Bool.false_ne_true, hFind]
  dsimp only
  rw [List.modifyLast_concat, readStatus_statusLine]

theorem foldl_commit (entries : List FileHistoryEntry) (commit : LoggedCommit) :
    commit.lines.foldl (fun entries line => readLine entries (trimmed LF line)) entries =
      entries ++ [commit.read] := by
  rw [LoggedCommit.lines, List.foldl_cons, List.foldl_cons, List.foldl_cons, List.foldl_nil, readLine_record]
  have hBlank (entries : List FileHistoryEntry) : readLine entries (trimmed LF []) = entries := rfl
  rw [hBlank, readLine_status]
  rfl

theorem not_mem_lines (commit : LoggedCommit) : ∀ line ∈ commit.lines, LF ∉ line := by
  have hPlain := commit.plain
  simp only [List.forall_mem_cons, List.not_mem_nil, false_imp_iff, implies_true, and_true] at hPlain
  obtain ⟨⟨-, hName⟩, ⟨-, hEmail⟩, -, hStatus⟩ := hPlain
  have hHex : LF ∉ commit.oid.hex := fun hMem => absurd (ObjectId.mem_kDigits_of_mem_hex hMem) (by decide)
  have hTime : LF ∉ Decimal.numeral commit.authorTime := Decimal.not_mem_numeral _ (by decide)
  have hPrinted (path : Bytes) : LF ∉ printedPath path := not_mem_printedPath (by decide) path
  have hTab : LF ≠ TAB := by decide
  have hMarker : LF ≠ kRecordMarker := by decide
  simp only [LoggedCommit.lines, List.forall_mem_cons, List.not_mem_nil, false_imp_iff, implies_true, and_true]
  refine ⟨?_, not_false, ?_⟩
  · simp [LoggedCommit.recordLine, hName, hEmail, hHex, hTime, hTab, hMarker, commit.subjectPlain]
  · rw [LoggedCommit.statusLine]
    cases commit.renamedFrom <;> simp [hStatus, hPrinted, hTab]

theorem takeWhile_trimmed_iff (subject : Bytes) : (trimmed LF subject).takeWhile (· != TAB) = subject ↔
    TAB ∉ subject ∧ subject.getLast? ≠ some CR := by
  have hAll : (∀ b ∈ subject, (b != TAB) = true) ↔ TAB ∉ subject := by
    simp only [bne_iff_ne]
    exact ⟨fun h hMem => h TAB hMem rfl, fun h b hMem hSame => h (hSame ▸ hMem)⟩
  by_cases hReturn : subject.getLast? = some CR
  · refine iff_of_false (fun hSame => ?_) (fun h => h.2 hReturn)
    have hShort : (trimmed LF subject).length < subject.length := by
      rw [trimmed, if_pos ⟨rfl, hReturn⟩, List.length_dropLast]
      have hPositive := List.length_pos_of_mem (List.mem_of_getLast? hReturn)
      omega
    have hLe := ((List.takeWhile_prefix (· != TAB)).length_le : _ ≤ (trimmed LF subject).length)
    rw [hSame] at hLe
    omega
  · rw [trimmed, if_neg (fun hLine => hReturn hLine.2), List.takeWhile_eq_self_iff, hAll, and_iff_left hReturn]

theorem read_eq_entry_iff (commit : LoggedCommit) : commit.read = commit.entry ↔
    TAB ∉ commit.subject ∧ commit.subject.getLast? ≠ some CR ∧ ∀ path ∈ commit.paths, path.any mustQuote = false := by
  have hBefore : (commit.renamedFrom.map printedPath).getD [] = commit.renamedFrom.getD [] ↔
      ∀ path ∈ commit.renamedFrom.toList, path.any mustQuote = false := by
    cases commit.renamedFrom with
    | none => simp
    | some before => simpa using printedPath_eq_iff before
  rw [LoggedCommit.read, LoggedCommit.entry, FileHistoryEntry.mk.injEq, takeWhile_trimmed_iff, hBefore,
    printedPath_eq_iff, LoggedCommit.paths, List.forall_mem_cons]
  tauto

variable {ρ : Type}

/-- A history comes back as it is exactly when no subject has a tab or ends in a carriage return and no
path needs quotes. -/
theorem fileHistory_exact_iff {git : ProcessRunner ρ} {s s' : ρ} {path startRevision : Bytes} (hPath : path ≠ [])
    {commits : List LoggedCommit} {chunks : List Bytes} (hChunks : chunks.flatten = historyText commits)
    (hRun : git s (command path startRevision) = (.ok (ProcessRunner.buffered (records LF chunks)), s')) :
    fileHistory git s path startRevision = (.ok (commits.map LoggedCommit.entry), s') ↔
      ∀ commit ∈ commits, TAB ∉ commit.subject ∧ commit.subject.getLast? ≠ some CR ∧
        ∀ path ∈ commit.paths, path.any mustQuote = false := by
  have hRead : ((ProcessRunner.buffered (records LF chunks)).splitOn LF).foldl readLine [] =
      commits.map LoggedCommit.read :=
    read_buffered (fun _ => rfl) (fun commit _ => not_mem_lines commit)
      (fun commit _ entries => foldl_commit entries commit) hChunks
  rw [fileHistory, if_neg (fun hEmpty => hPath (List.isEmpty_iff.mp hEmpty)), hRun]
  dsimp only
  rw [hRead, Prod.mk.injEq, and_iff_left rfl, Except.ok.injEq, List.map_inj_left]
  exact forall₂_congr fun commit _ => read_eq_entry_iff commit

def tabbedCommit : LoggedCommit where
  oid := .replicate 3
  authorName := ascii "A"
  authorEmail := ascii "a@b"
  authorTime := 5
  subject := ascii "x\x09y"
  status := ascii "M"
  path := ascii "f"
  oidSome := rfl
  fits := by decide
  plain := by decide
  subjectPlain := by decide
  unmarked := by decide
  moved := by decide

def tabbedGit : ProcessRunner Unit := fun s _ =>
  (.ok (ProcessRunner.buffered (records LF [historyText [tabbedCommit]])), s)

theorem fileHistory_exact_iff_tabbed :
    fileHistory tabbedGit () (ascii "f") [] = (.ok ([tabbedCommit].map LoggedCommit.entry), ()) ↔
      ∀ commit ∈ [tabbedCommit], TAB ∉ commit.subject ∧ commit.subject.getLast? ≠ some CR ∧
        ∀ path ∈ commit.paths, path.any mustQuote = false :=
  @fileHistory_exact_iff Unit tabbedGit () () (ascii "f") [] (by decide) [tabbedCommit] _ (List.append_nil _) rfl

/-- A tab in a subject ends it. -/
theorem fileHistory_cuts_subject :
    fileHistory tabbedGit () (ascii "f") [] ≠ (.ok ([tabbedCommit].map LoggedCommit.entry), ()) := by
  decide +kernel

end FileHistoryStore

end GitBranchManager
