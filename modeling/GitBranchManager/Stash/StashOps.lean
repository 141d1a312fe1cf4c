import GitBranchManager.Library.Positions
import GitBranchManager.Refs.RefOperations

/-! # The list of stashes and the operations on them

Each operation runs one command. A stash is named by its place in the list, the newest first.
-/

namespace GitBranchManager

/-- What is not `stash@{N}` is index 0. -/
def parseStashIndex (gd : Bytes) : Int32 :=
  match find [123] gd with
  | none => 0
  | some opened =>
    let inside := gd.drop (opened + 1)
    match find [125] inside with
    | none => 0
    | some closed => parseInt32 (inside.take closed)

structure StashEntry where
  index : Int32 := 0
  message : Bytes := []
  oid : Bytes := []
  timestamp : Int64 := 0
  deriving DecidableEq, Repr

namespace StashStore

def listCommand : GitCommand := [ascii "stash", ascii "list", ascii "--format=%gd%x09%H%x09%at%x09%gs"]

def columns (line : Bytes) : List Bytes :=
  let (columns, rest) := Library.Lines.cut TAB line
  columns ++ [rest]

/-- A column that is missing leaves the default in place, and what follows the fourth is not read. -/
def readEntry (line : Bytes) : StashEntry where
  index := parseStashIndex ((columns line).getD 0 [])
  oid := (columns line).getD 1 []
  timestamp := parseInt64 ((columns line).getD 2 [])
  message := (columns line).getD 3 []

def readEntries (out : Bytes) : List StashEntry :=
  let (lines, rest) := Library.Lines.cut LF out
  ((lines ++ [rest]).filter fun line => !line.isEmpty).map readEntry

def list {ρ : Type} (git : ProcessRunner ρ) (s : ρ) : GitResult (List StashEntry) × ρ :=
  match git s listCommand with
  | (.error e, s) => (.error e.toGitError, s)
  | (.ok out, s) => (.ok (readEntries out), s)

end StashStore

structure StashSaveRequest where
  message : Bytes := []
  includeUntracked : Bool := false
  keepIndex : Bool := false
  paths : List Bytes := []
  deriving DecidableEq, Repr

structure StashApplyRequest where
  index : Int32 := 0
  pop : Bool := false
  deriving DecidableEq, Repr

structure StashDropRequest where
  index : Int32 := 0
  deriving DecidableEq, Repr

structure StashBranchRequest where
  index : Int32 := 0
  branchName : Bytes
  deriving DecidableEq, Repr

def stashName (index : Int32) : Bytes := ascii "stash@\x7b" ++ intToString index ++ ascii "\x7d"

variable {ρ : Type}

/-- A failed command fails the operation, and its message is the summary. -/
def runStashCommand (command : GitCommand) (done : Bytes) (git : ProcessRunner ρ) (s : ρ) : OperationOutcome × ρ :=
  match git s command with
  | (.error e, s) => (failedOutcomeOf e, s)
  | (.ok _, s) => ({ succeeded := true, summary := done }, s)

namespace StashSaveRequest

def args (request : StashSaveRequest) : GitCommand :=
  [ascii "stash", ascii "push"] ++
    (if request.message.isEmpty then [] else [ascii "-m", request.message]) ++
    (if request.includeUntracked then [ascii "--include-untracked"] else []) ++
    (if request.keepIndex then [ascii "--keep-index"] else []) ++
    if request.paths.isEmpty then [] else ascii "--" :: request.paths

/-- git reports nothing to stash with exit code 0. -/
def run (request : StashSaveRequest) (git : ProcessRunner ρ) (s : ρ) : OperationOutcome × ρ :=
  match git s request.args with
  | (.error e, s) => (failedOutcomeOf e, s)
  | (.ok out, s) =>
    if (find (ascii "No local changes to save") out).isSome then
      let message := ascii "There are no local changes to stash"
      ({ error := some { code := .invalidArgument, message }, summary := message }, s)
    else ({ succeeded := true, summary := ascii "Stashed changes" }, s)

end StashSaveRequest

def StashApplyRequest.run (request : StashApplyRequest) (git : ProcessRunner ρ) (s : ρ) : OperationOutcome × ρ :=
  runStashCommand [ascii "stash", ascii (if request.pop then "pop" else "apply"), stashName request.index]
    (ascii (if request.pop then "Popped stash" else "Applied stash")) git s

def StashDropRequest.run (request : StashDropRequest) (git : ProcessRunner ρ) (s : ρ) : OperationOutcome × ρ :=
  runStashCommand [ascii "stash", ascii "drop", stashName request.index] (ascii "Dropped stash") git s

def StashBranchRequest.run (request : StashBranchRequest) (git : ProcessRunner ρ) (s : ρ) : OperationOutcome × ρ :=
  runStashCommand [ascii "stash", ascii "branch", request.branchName, stashName request.index]
    (ascii "Created " ++ request.branchName ++ ascii " from stash") git s

/-! ## The stashes that git keeps

Git finds the stash of a command by its name, which is its place in the list at that time. The
answer to a command says what git does with it and whether it fails, at any point of its work.
-/

open Library

theorem StashStore.columns_cons {front : Bytes} (h : TAB ∉ front) (line : Bytes) :
    columns (front ++ TAB :: line) = front :: columns line := by
  rw [columns, columns, Lines.cut_line TAB h]
  rfl

structure Stash where
  oid : Bytes
  timestamp : Nat := 0
  subject : Bytes := []
  oidPlain : TAB ∉ oid ∧ LF ∉ oid := by decide
  subjectPlain : LF ∉ subject := by decide
  deriving DecidableEq, Repr

/-- `stored` is what a push saves, `workTree` what the work tree turns into, and `removes` says that
the stash leaves the list, each also when the command fails later. -/
structure StashAnswer where
  stored : Option Stash := none
  workTree : Option Nat := none
  removes : Bool := false
  error : Option CommandError := none
  out : Bytes := []

/-- The command fails and leaves everything as it is. -/
structure StashAnswer.Refuses (answer : StashAnswer) : Prop where
  workTree : answer.workTree = none
  removes : answer.removes = false
  error : answer.error.isSome = true

/-- `workTree` numbers the states of the work tree and of what is checked out, and `changes` is what
happened to the list so far. -/
structure StashRepo where
  stashes : List Stash := []
  workTree : Nat := 0
  changes : List ListChange := []
  deriving DecidableEq, Repr

namespace StashRepo

def placeName (i : Nat) : Bytes := ascii "stash@\x7b" ++ Decimal.numeral i ++ ascii "\x7d"

def resolve (s : StashRepo) (ref : Bytes) : Option Nat :=
  (List.range s.stashes.length).find? fun i => placeName i == ref

def listLine (i : Nat) (stash : Stash) : Bytes :=
  placeName i ++ TAB :: (stash.oid ++ TAB :: (Decimal.numeral stash.timestamp ++ TAB :: stash.subject))

def listing (s : StashRepo) : Bytes :=
  Lines.join LF (s.stashes.zipIdx.map fun entry => listLine entry.2 entry.1)

def push (s : StashRepo) (answer : StashAnswer) : StashRepo :=
  match answer.stored with
  | some stash =>
    { stashes := stash :: s.stashes
      workTree := answer.workTree.getD s.workTree
      changes := s.changes ++ [.pushed] }
  | none => s

/-- A drop leaves the work tree as it is, and an apply leaves the list. -/
def act (s : StashRepo) (verb : Bytes) (i : Nat) (answer : StashAnswer) : StashRepo :=
  let s := if verb == ascii "drop" then s else { s with workTree := answer.workTree.getD s.workTree }
  if answer.removes && verb != ascii "apply" then
    { s with stashes := s.stashes.eraseIdx i, changes := s.changes ++ [.removed i] }
  else s

def git (answer : StashAnswer) : ProcessRunner StashRepo := fun s command =>
  let result (out : Bytes) : Except CommandError Bytes :=
    match answer.error with
    | some e => .error e
    | none => .ok out
  let verb := command.getD 1 []
  if verb == ascii "list" then (result s.listing, s)
  else if verb == ascii "push" then (result answer.out, s.push answer)
  else
    match s.resolve (command.getLastD []) with
    | none => (.error (answer.error.getD {}), s)
    | some i => (result answer.out, s.act verb i answer)

section Laws

variable {s s' : StashRepo} {answer : StashAnswer} {command : GitCommand}

theorem placeName_inj {i j : Nat} (h : placeName i = placeName j) : i = j := by
  have hNumeral := List.append_cancel_left (List.append_cancel_right h)
  rw [← Decimal.value_numeral i, hNumeral, Decimal.value_numeral]

theorem stashName_eq {index : Int32} {i : Nat} (h : index.toInt = i) : stashName index = placeName i := by
  have hNot : ¬ (i : Int) < 0 := by omega
  rw [stashName, placeName, intToString, h, if_neg hNot, Int.natAbs_natCast]

theorem resolve_placeName {i : Nat} (h : i < s.stashes.length) : s.resolve (placeName i) = some i := by
  refine List.find?_range_eq_some.mpr ⟨beq_self_eq_true _, List.mem_range.mpr h, fun j hLess => ?_⟩
  have hOther : placeName j ≠ placeName i := fun hSame => absurd (placeName_inj hSame) (Nat.ne_of_lt hLess)
  simpa using hOther

theorem not_mem_placeName {b : UInt8} (i : Nat) (hFixed : b ∉ ascii "stash@\x7b\x7d")
    (hDigit : Decimal.isDigit b = false) : b ∉ placeName i := by
  intro hMem
  rcases List.mem_append.mp hMem with hFront | hLast
  · rcases List.mem_append.mp hFront with hFirst | hNumeral
    · exact hFixed (List.mem_append_left _ hFirst)
    · exact Decimal.not_mem_numeral i hDigit hNumeral
  · exact hFixed (List.mem_append_right (ascii "stash@\x7b") hLast)

theorem oid_readEntry (i : Nat) (stash : Stash) : (StashStore.readEntry (listLine i stash)).oid = stash.oid := by
  have hName : TAB ∉ placeName i := not_mem_placeName i (by decide) (by decide)
  rw [StashStore.readEntry, listLine, StashStore.columns_cons hName, StashStore.columns_cons stash.oidPlain.1]
  rfl

theorem not_mem_listLine (i : Nat) (stash : Stash) : LF ∉ listLine i stash := by
  have hName : LF ∉ placeName i := not_mem_placeName i (by decide) (by decide)
  have hTime : LF ∉ Decimal.numeral stash.timestamp := Decimal.not_mem_numeral _ (by decide)
  have hTab : LF ≠ TAB := by decide
  simp [listLine, hName, hTime, hTab, stash.oidPlain.2, stash.subjectPlain]

/-- The rows of a list show the stashes in their order. -/
theorem oid_readEntries (s : StashRepo) : (StashStore.readEntries s.listing).map StashEntry.oid =
    s.stashes.map Stash.oid := by
  have hPlain : ∀ line ∈ s.stashes.zipIdx.map fun entry => listLine entry.2 entry.1, LF ∉ line := by
    intro line hLine
    obtain ⟨entry, -, rfl⟩ := List.mem_map.mp hLine
    exact not_mem_listLine entry.2 entry.1
  have hFilled : ∀ line ∈ s.stashes.zipIdx.map fun entry => listLine entry.2 entry.1, (!line.isEmpty) = true := by
    intro line hLine
    obtain ⟨entry, -, rfl⟩ := List.mem_map.mp hLine
    rfl
  have hCut := Lines.cut_join LF hPlain (List.not_mem_nil : LF ∉ ([] : Bytes))
  rw [List.append_nil] at hCut
  rw [StashStore.readEntries, listing, hCut]
  simp only [List.filter_append, List.filter_eq_self.mpr hFilled, List.map_append, List.map_map]
  have hOids : (StashEntry.oid ∘ StashStore.readEntry ∘ fun entry : Stash × Nat => listLine entry.2 entry.1) =
      Stash.oid ∘ Prod.fst := funext fun entry => oid_readEntry entry.2 entry.1
  rw [hOids, ← List.map_map, List.zipIdx_map_fst]
  simp

/-- The list keeps its place, or makes one change. -/
inductive Evolves (s s' : StashRepo) : Prop
  | same (hStashes : s'.stashes = s.stashes) (hChanges : s'.changes = s.changes)
  | changed (change : ListChange) (hLeads : change.Leads s.stashes s'.stashes)
      (hChanges : s'.changes = s.changes ++ [change])

theorem evolves_push (s : StashRepo) (answer : StashAnswer) : s.Evolves (s.push answer) := by
  rw [push]
  split
  · exact .changed .pushed (.pushed _ _) rfl
  · exact .same rfl rfl

theorem evolves_act (s : StashRepo) (verb : Bytes) (i : Nat) (answer : StashAnswer) :
    s.Evolves (s.act verb i answer) := by
  rw [act]
  split
  · split
    · exact .changed (.removed i) (.removed i _) rfl
    · exact .changed (.removed i) (.removed i _) rfl
  · split
    · exact .same rfl rfl
    · exact .same rfl rfl

theorem evolves_git (answer : StashAnswer) (s : StashRepo) (command : GitCommand) :
    s.Evolves (git answer s command).2 := by
  simp only [git]
  split
  · exact .same rfl rfl
  · split
    · exact evolves_push s answer
    · split
      · exact .same rfl rfl
      · exact evolves_act s _ _ answer

/-- A command that names no stash, or that git refuses, does nothing. -/
theorem git_idle (hList : command.getD 1 [] ≠ ascii "list") (hPush : command.getD 1 [] ≠ ascii "push")
    (hIdle : answer.Refuses ∨ s.resolve (command.getLastD []) = none) :
    ∃ e, git answer s command = (.error e, s) := by
  simp only [git, beq_iff_eq, if_neg hList, if_neg hPush]
  rcases hIdle with hRefuses | hNowhere
  · obtain ⟨e, hError⟩ := Option.isSome_iff_exists.mp hRefuses.error
    split
    · exact ⟨_, rfl⟩
    · refine ⟨e, ?_⟩
      simp [hError, act, hRefuses.workTree, hRefuses.removes]
  · rw [hNowhere]
    exact ⟨_, rfl⟩

end Laws

end StashRepo

end GitBranchManager
