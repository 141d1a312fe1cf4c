import GitBranchManager.Base.ObjectId
import GitBranchManager.Refs.RefOperations

/-! # Undo points

What HEAD was is recorded before an operation runs, and an undo resets to what was recorded last.
The names of the recorded branches come from HEAD, which names branches only.
-/

namespace GitBranchManager

inductive HeadInfoKind
  | branch
  | detached
  | unborn
  deriving DecidableEq, Repr

structure HeadInfo where
  kind : HeadInfoKind := .unborn
  branchName : Bytes := []
  fullRef : Bytes := []
  target : ObjectId := .null
  deriving DecidableEq

variable {ρ : Type}

def headCommand : GitCommand :=
  [ascii "rev-parse", ascii "--revs-only", ascii "HEAD", ascii "--symbolic-full-name", ascii "HEAD"]

def symbolicRef : GitCommand := [ascii "symbolic-ref", ascii "--quiet", ascii "HEAD"]

/-- The short name of a local branch. -/
def shortNameFor (fullName : Bytes) : Bytes := fullName.drop kHeads.length

namespace RefStore

/-- The object id and the symbolic name in the answer to `headCommand`. -/
def splitHead (out : Bytes) : Bytes × Bytes :=
  match find [LF] out with
  | none => (out, [])
  | some split => (out.take split, out.drop (split + 1))

/-- HEAD when it resolves to a commit. -/
def resolvedHead (out : Bytes) : HeadInfo :=
  let (oid, symbolic) := splitHead out
  let head : HeadInfo :=
    if symbolic.isEmpty || symbolic == ascii "HEAD" then { kind := .detached }
    else { kind := .branch, fullRef := symbolic, branchName := shortNameFor symbolic }
  { head with target := ObjectId.fromHex oid }

/-- HEAD when it resolves to nothing. -/
def unbornHead (symbolic : Bytes) : HeadInfo :=
  if symbolic.isEmpty then {} else { fullRef := symbolic, branchName := shortNameFor symbolic }

def readHead (git : ProcessRunner ρ) (s : ρ) : Except CommandError HeadInfo × ρ :=
  match git s headCommand with
  | (.error e, s) => (.error e, s)
  | (.ok out, s) =>
    if !out.isEmpty then (.ok (resolvedHead out), s)
    else
      match git s symbolicRef with
      | (.error _, s) => (.ok {}, s)
      | (.ok symbolic, s) => (.ok (unbornHead symbolic), s)

end RefStore

structure UndoEntry where
  id : Nat := 0
  description : Bytes
  headBefore : ObjectId := .null
  branchBefore : Bytes := []
  timestamp : Int := 0
  deriving DecidableEq

namespace UndoEntry

/-- The entry of an operation that is about to run; an answer that failed leaves it empty. -/
def of (undoJournal : List UndoEntry) (operation : Operation) (timestamp : Int) (head : Option HeadInfo) :
    UndoEntry where
  id := undoJournal.length + 1
  description := operation.describe
  headBefore := (head.map HeadInfo.target).getD .null
  branchBefore := (head.map HeadInfo.branchName).getD []
  timestamp := timestamp

def kMaxUndoEntries : Nat := 200

def push (undoJournal : List UndoEntry) (entry : UndoEntry) : List UndoEntry :=
  let undoJournal := undoJournal ++ [entry]
  if kMaxUndoEntries < undoJournal.length then undoJournal.tail else undoJournal

theorem push_eq_drop (undoJournal : List UndoEntry) (entry : UndoEntry) :
    push undoJournal entry = undoJournal.drop (if kMaxUndoEntries ≤ undoJournal.length then 1 else 0) ++ [entry] := by
  rw [push]
  cases undoJournal with
  | nil => rfl
  | cons first rest =>
    simp only [List.length_append, List.length_cons, List.length_nil]
    by_cases hFull : kMaxUndoEntries ≤ rest.length + 1
    · rw [if_pos (by omega), if_pos hFull]
      rfl
    · rw [if_neg (by omega), if_neg hFull]
      rfl

theorem getLast?_push (undoJournal : List UndoEntry) (entry : UndoEntry) :
    (push undoJournal entry).getLast? = some entry := by
  rw [push_eq_drop]
  exact List.getLast?_concat

end UndoEntry

namespace OperationRunner

def recordUndoPoint (operation : Operation) (timestamp : Int) (undoJournal : List UndoEntry)
    (git : ProcessRunner ρ) (s : ρ) : List UndoEntry × ρ :=
  let (head, s) := RefStore.readHead git s
  (UndoEntry.push undoJournal (UndoEntry.of undoJournal operation timestamp head.toOption), s)

end OperationRunner

structure UndoRequest where
  headBefore : ObjectId
  branchBefore : Bytes
  deriving DecidableEq

namespace UndoRequest

def resetCommand (request : UndoRequest) : GitCommand :=
  [ascii "reset", ascii "--hard", request.headBefore.hex]

def run (request : UndoRequest) (git : ProcessRunner ρ) (s : ρ) : OperationOutcome × ρ :=
  if request.headBefore.isNull then
    ({ error := some { code := .invalidArgument, message := ascii "Nothing to undo" } }, s)
  else
    match RefStore.readHead git s with
    | (.error e, s) => (failedOutcomeOf e, s)
    | (.ok head, s) =>
      if !request.branchBefore.isEmpty && head.kind == .branch && head.branchName != request.branchBefore then
        ({ error := some
            { code := .invalidArgument
              message := ascii "Switch back to \"" ++ request.branchBefore ++ ascii "\" before undoing this" } }, s)
      else
        match git s request.resetCommand with
        | (.error e, s) => (failedOutcomeOf e, s)
        | (.ok _, s) => ({ succeeded := true, summary := ascii "Undid the last operation" }, s)

end UndoRequest

def undoLastOperation (undoJournal : List UndoEntry) : Option UndoRequest :=
  undoJournal.getLast?.map fun last => { headBefore := last.headBefore, branchBefore := last.branchBefore }

/-- Recording an undo point leaves the repository as reading HEAD does. -/
theorem state_recordUndoPoint (operation : Operation) (timestamp : Int) (undoJournal : List UndoEntry)
    (git : ProcessRunner ρ) (s : ρ) :
    (OperationRunner.recordUndoPoint operation timestamp undoJournal git s).2 = recordUndoPoint git s := by
  change (RefStore.readHead git s).2 = recordUndoPoint git s
  rw [RefStore.readHead, recordUndoPoint]
  rcases hAnswer : git s headCommand with ⟨answer, s'⟩
  rw [headCommand] at hAnswer
  rw [hAnswer]
  cases answer with
  | error e => rfl
  | ok out =>
    cases hOut : out.isEmpty with
    | false => simp [hOut]
    | true =>
      simp only [hOut, Bool.not_true, Bool.false_eq_true, if_false, if_true, symbolicRef]
      split
      · rename_i hRef
        rw [hRef]
      · rename_i hRef
        rw [hRef]

end GitBranchManager
