import GitBranchManager.Status.DiffFingerprints

/-! # A retained diff is still the file's diff -/

namespace GitBranchManager

open Library UnifiedDiffParser WorkingCopyEntry

def ParsedDiff.hunks (diff : ParsedDiff) : List (List DiffHunk) := diff.files.map DiffFile.hunks

/-- The repository when a status is read: what the read saw, the status it reported, and the
diff text git has at that moment for each side of each path. -/
structure StatusReport where
  reads : StatusReads
  status : WorkingCopyStatus
  reported : ∃ cache, (WorkingCopyStatusReader.read reads cache).toOption.map Prod.fst = some status
  /-- git prints object names in hexadecimal. -/
  plainBlobs : ∀ entry ∈ status.entries, entry.PlainBlobs
  diffText : (path : Bytes) → (staged : Bool) → Bytes

def StatusReport.hunks (report : StatusReport) (path : Bytes) (staged : Bool) : List (List DiffHunk) :=
  (parse {} (report.diffText path staged)).hunks

theorem WorkingCopyStatus.mem_of_sideEntry {status : WorkingCopyStatus} {path : Bytes} {staged : Bool}
    {entry : WorkingCopyEntry} (h : status.sideEntry path staged = some entry) :
    entry ∈ status.entries := by
  have hSide := (List.mem_filter.mp (List.mem_of_getLast? h)).1
  cases staged with
  | true => exact (List.mem_filter.mp hSide).1
  | false =>
    have hEither := (List.mem_filter.mp hSide).1
    rcases List.mem_append.mp hEither with hMem | hMem <;> exact (List.mem_filter.mp hMem).1

theorem survives_iff (before after : StatusReport) (path : Bytes) (staged : Bool) :
    survives before.status after.status (workingCopyDiffKey path staged) = true ↔
      ∃ a b, before.status.sideEntry path staged = some a ∧
        after.status.sideEntry path staged = some b ∧ a.SameRecord staged b := by
  rw [survives, get?_fingerprints, get?_fingerprints]
  cases hBefore : before.status.sideEntry path staged with
  | none => simp
  | some a =>
    cases hAfter : after.status.sideEntry path staged with
    | none => simp
    | some b =>
      have ha := before.plainBlobs a (WorkingCopyStatus.mem_of_sideEntry hBefore)
      have hb := after.plainBlobs b (WorkingCopyStatus.mem_of_sideEntry hAfter)
      simp [eq_comm (a := b.fingerprint staged), fingerprint_eq_iff ha hb]

theorem survives_eq_true {previous next : WorkingCopyStatus} {key : Bytes} :
    survives previous next key = true ↔ ∃ text,
      (workingCopyDiffFingerprints previous).get? key = some text ∧
        (workingCopyDiffFingerprints next).get? key = some text := by
  rw [survives]
  cases (workingCopyDiffFingerprints previous).get? key <;> simp

theorem get?_retained (current : InsertionMap Bytes WorkingCopyDiffReply)
    (previous next : WorkingCopyStatus) (key : Bytes) :
    (retainedWorkingCopyDiffs current previous next).get? key =
      if survives previous next key then current.get? key else none := by
  rw [retainedWorkingCopyDiffs, InsertionMap.get?_filter]
  cases survives previous next key <;> cases current.get? key <;> simp

/-- A side with equal fingerprints has equal hunks, and a reply retained for it is the diff
git has now, exactly when git's hunks did not change or the record of the side did. -/
theorem retained_diff_current_iff (before after : StatusReport) (path : Bytes) (staged : Bool) :
    ((∀ text, (workingCopyDiffFingerprints before.status).get? (workingCopyDiffKey path staged) = some text →
        (workingCopyDiffFingerprints after.status).get? (workingCopyDiffKey path staged) = some text →
        before.hunks path staged = after.hunks path staged) ∧
      ∀ (current : InsertionMap Bytes WorkingCopyDiffReply) (reply : WorkingCopyDiffReply),
        current.get? (workingCopyDiffKey path staged) = some reply →
        reply.diff.hunks = before.hunks path staged →
        ∀ kept, (retainedWorkingCopyDiffs current before.status after.status).get?
          (workingCopyDiffKey path staged) = some kept → kept.diff.hunks = after.hunks path staged) ↔
      before.hunks path staged = after.hunks path staged ∨
        ¬∃ a b, before.status.sideEntry path staged = some a ∧
          after.status.sideEntry path staged = some b ∧ a.SameRecord staged b := by
  rw [← survives_iff, survives_eq_true]
  constructor
  · rintro ⟨hSame, -⟩
    by_cases hSurvives : ∃ text,
        (workingCopyDiffFingerprints before.status).get? (workingCopyDiffKey path staged) = some text ∧
        (workingCopyDiffFingerprints after.status).get? (workingCopyDiffKey path staged) = some text
    · obtain ⟨text, hBefore, hAfter⟩ := hSurvives
      exact Or.inl (hSame text hBefore hAfter)
    · exact Or.inr hSurvives
  · intro h
    have hSame : ∀ text,
        (workingCopyDiffFingerprints before.status).get? (workingCopyDiffKey path staged) = some text →
        (workingCopyDiffFingerprints after.status).get? (workingCopyDiffKey path staged) = some text →
        before.hunks path staged = after.hunks path staged :=
      fun text hBefore hAfter => h.resolve_right fun hNot => hNot ⟨text, hBefore, hAfter⟩
    refine ⟨hSame, fun current reply hReply hShown kept hKept => ?_⟩
    rw [get?_retained] at hKept
    split at hKept
    next hSurvives =>
      obtain ⟨text, hBefore, hAfter⟩ := survives_eq_true.mp hSurvives
      obtain rfl := Option.some.inj (hReply.symm.trans hKept)
      rw [hShown, hSame text hBefore hAfter]
    next => cases hKept

def editedReads : StatusReads where
  status := .ok [ascii "1 .M N... 100644 100644 100644 78981922613b2afb6025042ff6bd878ac1994e85 78981922613b2afb6025042ff6bd878ac1994e85 f.txt"]
  lsFilesOthers := fun _ => .ok []
  numstat := fun staged => .ok (if staged then [] else [ascii "1\t1\tf.txt"])
  isBare := false
  now := 0
  fileSize := fun _ => none
  lastWriteTime := fun _ => none
  contents := fun _ => none

def editedEntry : WorkingCopyEntry :=
  { path := ascii "f.txt", hasUnstagedChange := true, unstagedAdded := 1, unstagedRemoved := 1 }

def editedReport (newLine newBlob : String) : StatusReport where
  reads := editedReads
  status := { entries := [editedEntry] }
  reported := ⟨{}, by decide +kernel⟩
  plainBlobs := by simp [PlainBlobs, editedEntry]
  diffText := fun _ staged =>
    if staged then []
    else ascii "diff --git a/f.txt b/f.txt\nindex 7898192.." ++ ascii newBlob ++
      ascii " 100644\n--- a/f.txt\n+++ b/f.txt\n@@ -1 +1 @@\n-a\n+" ++ ascii newLine ++ ascii "\n"

/-- Editing the line again, to `c` instead of `b`, leaves the fingerprint as it was. -/
theorem retained_diff_is_stale :
    ¬∀ (before after : StatusReport) (path : Bytes) (staged : Bool) (text : Bytes),
      (workingCopyDiffFingerprints before.status).get? (workingCopyDiffKey path staged) = some text →
      (workingCopyDiffFingerprints after.status).get? (workingCopyDiffKey path staged) = some text →
      before.hunks path staged = after.hunks path staged := by
  intro h
  have hText : (workingCopyDiffFingerprints (editedReport "b" "6178079").status).get?
      (workingCopyDiffKey (ascii "f.txt") false) =
        some (ascii "true|false|0|1|1|false|0||||false|0|0") := by decide +kernel
  have hSame := h (editedReport "b" "6178079") (editedReport "c" "f2ad6c7") (ascii "f.txt") false _
    hText hText
  exact absurd hSame (by decide +kernel)

end GitBranchManager
