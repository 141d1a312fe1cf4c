import GitBranchManager.Library.InsertionMap
import GitBranchManager.Library.Joined
import GitBranchManager.Status.WorkingCopyStatus

/-! # Which cached diffs survive a status

Every side of every path has a fingerprint, the joined text of what the status records of
it. A cached diff is retained when its fingerprint is the same in two successive statuses.
-/

namespace GitBranchManager

open Library

def FileChangeKind.value : FileChangeKind → Nat
  | .modified => 0
  | .added => 1
  | .deleted => 2
  | .renamed => 3
  | .copied => 4
  | .typeChanged => 5
  | .modeChanged => 6

def ConflictKind.value : ConflictKind → Nat
  | .none => 0
  | .bothAdded => 1
  | .bothModified => 2
  | .bothDeleted => 3
  | .addedByUs => 4
  | .deletedByUs => 5
  | .addedByThem => 6
  | .deletedByThem => 7

def boolText (b : Bool) : Bytes := if b then ascii "true" else ascii "false"

def intText (n : Int) : Bytes :=
  if n < 0 then minus :: Decimal.numeral n.natAbs else Decimal.numeral n.natAbs

def bar : UInt8 := 124

def workingCopyDiffKey (path : Bytes) (staged : Bool) : Bytes := boolText staged ++ ascii ":" ++ path

namespace WorkingCopyStatus

def staged (status : WorkingCopyStatus) : List WorkingCopyEntry := status.entries.filter (·.staged)

def unstaged (status : WorkingCopyStatus) : List WorkingCopyEntry :=
  status.entries.filter (·.hasUnstagedChange)

def untrackedFiles (status : WorkingCopyStatus) : List WorkingCopyEntry :=
  status.entries.filter (·.untracked)

def entriesWithUnstagedSide (status : WorkingCopyStatus) : List WorkingCopyEntry :=
  status.unstaged ++ status.untrackedFiles

end WorkingCopyStatus

namespace WorkingCopyEntry

/-- An untracked file without size and time is one that was not measured. -/
def unmeasured (entry : WorkingCopyEntry) : Bool :=
  entry.untracked && entry.untrackedSize == 0 && entry.untrackedMtimeTicks == 0

def unstagedParts (entry : WorkingCopyEntry) : List Bytes :=
  [boolText entry.hasUnstagedChange, boolText entry.untracked, intText entry.worktreeStatus.value,
    intText entry.unstagedAdded.toNat, intText entry.unstagedRemoved.toNat,
    boolText entry.isConflicted, intText entry.conflict.value, entry.ancestorBlob, entry.oursBlob,
    entry.theirsBlob, boolText entry.isSubmodule, intText entry.untrackedSize,
    intText entry.untrackedMtimeTicks]

def stagedParts (entry : WorkingCopyEntry) : List Bytes :=
  [boolText entry.staged, intText entry.indexStatus.value, intText entry.stagedAdded.toNat,
    intText entry.stagedRemoved.toNat, entry.oldPath, intText entry.similarity.toInt,
    boolText entry.isSubmodule]

def fingerprint (staged : Bool) (entry : WorkingCopyEntry) : Bytes :=
  [bar].intercalate (if staged then entry.stagedParts else entry.unstagedParts)

end WorkingCopyEntry

def WorkingCopyStatus.side (status : WorkingCopyStatus) (staged : Bool) : List WorkingCopyEntry :=
  if staged then status.staged
  else status.entriesWithUnstagedSide.filter fun entry => !entry.unmeasured

def addFingerprint (staged : Bool) (fingerprints : InsertionMap Bytes Bytes)
    (entry : WorkingCopyEntry) : InsertionMap Bytes Bytes :=
  fingerprints.put (workingCopyDiffKey entry.path staged) (entry.fingerprint staged)

def workingCopyDiffFingerprints (status : WorkingCopyStatus) : InsertionMap Bytes Bytes :=
  (status.side true).foldl (addFingerprint true)
    ((status.side false).foldl (addFingerprint false) .empty)

structure WorkingCopyDiffReply where
  path : Bytes
  staged : Bool
  diff : ParsedDiff
  deriving DecidableEq, Repr

def survives (previous next : WorkingCopyStatus) (key : Bytes) : Bool :=
  match (workingCopyDiffFingerprints previous).get? key with
  | none => false
  | some old => (workingCopyDiffFingerprints next).get? key == some old

def retainedWorkingCopyDiffs (current : InsertionMap Bytes WorkingCopyDiffReply)
    (previous next : WorkingCopyStatus) : InsertionMap Bytes WorkingCopyDiffReply :=
  current.filter fun key _ => survives previous next key

theorem boolText_inj {a b : Bool} (h : boolText a = boolText b) : a = b := by
  cases a <;> cases b <;> first | rfl | exact absurd h (by decide)

theorem bar_not_mem_boolText (b : Bool) : bar ∉ boolText b := by
  cases b <;> decide

theorem not_mem_intText (n : Int) {b : UInt8} (hDigit : Decimal.isDigit b = false) (hMinus : b ≠ minus) :
    b ∉ intText n := by
  rw [intText]
  split
  · rw [List.mem_cons, not_or]
    exact ⟨hMinus, Decimal.not_mem_numeral _ hDigit⟩
  · exact Decimal.not_mem_numeral _ hDigit

theorem bar_not_mem_intText (n : Int) : bar ∉ intText n := not_mem_intText n (by decide) (by decide)

theorem numeral_inj {a b : Nat} (h : Decimal.numeral a = Decimal.numeral b) : a = b := by
  have hValue := congrArg Decimal.value h
  rwa [Decimal.value_numeral, Decimal.value_numeral] at hValue

theorem minus_cons_ne_numeral (text : Bytes) (n : Nat) : minus :: text ≠ Decimal.numeral n := by
  intro h
  exact Decimal.not_mem_numeral n (by decide) (h ▸ List.mem_cons_self)

theorem intText_inj {a b : Int} (h : intText a = intText b) : a = b := by
  rw [intText, intText] at h
  split at h <;> split at h
  · have := numeral_inj (List.cons.inj h).2
    omega
  · exact absurd h (minus_cons_ne_numeral _ _)
  · exact absurd h.symm (minus_cons_ne_numeral _ _)
  · have := numeral_inj h
    omega

theorem count_inj {a b : UInt32} (h : intText a.toNat = intText b.toNat) : a = b :=
  UInt32.toNat_inj.mp (Int.ofNat.inj (intText_inj h))

theorem FileChangeKind.value_inj {a b : FileChangeKind} (h : intText a.value = intText b.value) :
    a = b := by
  have hValue : a.value = b.value := Int.ofNat.inj (intText_inj h)
  cases a <;> cases b <;> first | rfl | exact absurd hValue (by decide)

theorem ConflictKind.value_inj {a b : ConflictKind} (h : intText a.value = intText b.value) :
    a = b := by
  have hValue : a.value = b.value := Int.ofNat.inj (intText_inj h)
  cases a <;> cases b <;> first | rfl | exact absurd hValue (by decide)

theorem workingCopyDiffKey_inj {path path' : Bytes} {staged staged' : Bool}
    (h : workingCopyDiffKey path staged = workingCopyDiffKey path' staged') :
    path = path' ∧ staged = staged' := by
  have hColon (b : Bool) : (58 : UInt8) ∉ boolText b := by cases b <;> decide
  have hKey (path : Bytes) (b : Bool) : workingCopyDiffKey path b = boolText b ++ 58 :: path := by
    rw [workingCopyDiffKey, List.append_assoc]
    rfl
  rw [hKey, hKey] at h
  obtain ⟨hSide, hPath⟩ := Joined.split_first (hColon staged) (hColon staged') h
  exact ⟨hPath, boolText_inj hSide⟩

/-- The entry whose fingerprint a key ends up with: the last one of its path on its side. -/
def WorkingCopyStatus.sideEntry (status : WorkingCopyStatus) (path : Bytes) (staged : Bool) :
    Option WorkingCopyEntry :=
  ((status.side staged).filter fun entry => entry.path = path).getLast?

theorem get?_addFingerprint (side : Bool) (fingerprints : InsertionMap Bytes Bytes)
    (entries : List WorkingCopyEntry) (path : Bytes) (staged : Bool) :
    (entries.foldl (addFingerprint side) fingerprints).get? (workingCopyDiffKey path staged) =
      if staged = side then
        ((entries.filter fun entry => entry.path = path).getLast?.map (·.fingerprint staged)).or
          (fingerprints.get? (workingCopyDiffKey path staged))
      else fingerprints.get? (workingCopyDiffKey path staged) := by
  induction entries using List.reverseRecOn with
  | nil => simp
  | append_singleton entries entry ih =>
    rw [List.foldl_append, List.foldl_cons, List.foldl_nil, addFingerprint, InsertionMap.get?_put, ih,
      List.filter_append]
    by_cases hKey : workingCopyDiffKey path staged = workingCopyDiffKey entry.path side
    · obtain ⟨rfl, rfl⟩ := workingCopyDiffKey_inj hKey
      simp
    · rw [if_neg hKey]
      by_cases hSide : staged = side
      · have hPath : entry.path ≠ path := fun he => hKey (by rw [hSide, he])
        simp [hPath]
      · rw [if_neg hSide, if_neg hSide]

theorem get?_fingerprints (status : WorkingCopyStatus) (path : Bytes) (staged : Bool) :
    (workingCopyDiffFingerprints status).get? (workingCopyDiffKey path staged) =
      (status.sideEntry path staged).map (·.fingerprint staged) := by
  rw [workingCopyDiffFingerprints, get?_addFingerprint, get?_addFingerprint, WorkingCopyStatus.sideEntry]
  cases staged <;> simp

namespace WorkingCopyEntry

/-- What a fingerprint records of an entry: on the staged side the kind, the counts and the
rename, on the other the kind, the counts, the conflict and an untracked file's stat. -/
def SameRecord (staged : Bool) (a b : WorkingCopyEntry) : Prop :=
  if staged then
    a.staged = b.staged ∧ a.indexStatus = b.indexStatus ∧ a.stagedAdded = b.stagedAdded ∧
      a.stagedRemoved = b.stagedRemoved ∧ a.oldPath = b.oldPath ∧ a.similarity = b.similarity ∧
      a.isSubmodule = b.isSubmodule
  else
    a.hasUnstagedChange = b.hasUnstagedChange ∧ a.untracked = b.untracked ∧
      a.worktreeStatus = b.worktreeStatus ∧ a.unstagedAdded = b.unstagedAdded ∧
      a.unstagedRemoved = b.unstagedRemoved ∧ a.conflict = b.conflict ∧
      a.ancestorBlob = b.ancestorBlob ∧ a.oursBlob = b.oursBlob ∧ a.theirsBlob = b.theirsBlob ∧
      a.isSubmodule = b.isSubmodule ∧ a.untrackedSize = b.untrackedSize ∧
      a.untrackedMtimeTicks = b.untrackedMtimeTicks

def PlainBlobs (entry : WorkingCopyEntry) : Prop :=
  bar ∉ entry.ancestorBlob ∧ bar ∉ entry.oursBlob ∧ bar ∉ entry.theirsBlob

theorem bar_not_mem_unstagedParts {entry : WorkingCopyEntry} (h : entry.PlainBlobs) :
    ∀ part ∈ entry.unstagedParts.tail, bar ∉ part := by
  simp [unstagedParts, bar_not_mem_boolText, bar_not_mem_intText, h.1, h.2.1, h.2.2]

theorem unstaged_fingerprint_inj {a b : WorkingCopyEntry} (ha : a.PlainBlobs) (hb : b.PlainBlobs)
    (h : a.fingerprint false = b.fingerprint false) : a.SameRecord false b := by
  have hParts := Joined.fields_eq_after (bar_not_mem_unstagedParts ha) (bar_not_mem_unstagedParts hb)
    (by simp [unstagedParts]) h
  simp only [unstagedParts, List.tail_cons, List.cons.injEq, and_true] at hParts
  obtain ⟨hChange, hUntracked, hStatus, hAdded, hRemoved, -, hConflict, hAncestor, hOurs, hTheirs,
    hSubmodule, hSize, hTicks⟩ := hParts
  rw [SameRecord, if_neg (by decide)]
  exact ⟨boolText_inj hChange, boolText_inj hUntracked, FileChangeKind.value_inj hStatus,
    count_inj hAdded, count_inj hRemoved, ConflictKind.value_inj hConflict, hAncestor, hOurs, hTheirs,
    boolText_inj hSubmodule, Int.ofNat.inj (intText_inj hSize), intText_inj hTicks⟩

/-- The old path is the one part of a staged fingerprint that may hold a bar. -/
theorem staged_fingerprint_inj {a b : WorkingCopyEntry} (h : a.fingerprint true = b.fingerprint true) :
    a.SameRecord true b := by
  have hFront : ∀ entry : WorkingCopyEntry, ∀ part ∈ entry.stagedParts.take 4, bar ∉ part := by
    simp [stagedParts, bar_not_mem_boolText, bar_not_mem_intText]
  have hBack : ∀ entry : WorkingCopyEntry, ∀ part ∈ entry.stagedParts.drop 5, bar ∉ part := by
    simp [stagedParts, bar_not_mem_boolText, bar_not_mem_intText]
  have hParts := Joined.fields_eq (hFront a) (hFront b) (hBack a) (hBack b) (by simp [stagedParts])
    (by simp [stagedParts]) h
  simp only [stagedParts, List.take_succ_cons, List.take_zero, List.drop_succ_cons, List.drop_zero,
    List.cons.injEq, and_true] at hParts
  obtain ⟨⟨hStaged, hStatus, hAdded, hRemoved⟩, hOldPath, hSimilarity, hSubmodule⟩ := hParts
  rw [SameRecord, if_pos rfl]
  exact ⟨boolText_inj hStaged, FileChangeKind.value_inj hStatus, count_inj hAdded, count_inj hRemoved,
    hOldPath, Int32.toInt_inj.mp (intText_inj hSimilarity), boolText_inj hSubmodule⟩

/-- Two fingerprints of one side are the same text exactly when the entries' records are. -/
theorem fingerprint_eq_iff {staged : Bool} {a b : WorkingCopyEntry} (ha : a.PlainBlobs)
    (hb : b.PlainBlobs) : a.fingerprint staged = b.fingerprint staged ↔ a.SameRecord staged b := by
  constructor
  · intro h
    cases staged with
    | false => exact unstaged_fingerprint_inj ha hb h
    | true => exact staged_fingerprint_inj h
  · intro h
    cases staged with
    | false =>
      simp only [SameRecord, Bool.false_eq_true, if_false] at h
      simp [fingerprint, unstagedParts, isConflicted, h]
    | true =>
      simp only [SameRecord, if_true] at h
      simp [fingerprint, stagedParts, h]

end WorkingCopyEntry

end GitBranchManager
