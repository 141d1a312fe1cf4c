import GitBranchManager.Library.Runs
import Mathlib.Data.List.Basic

/-! # Worktree prunes of a session

A published worktree list prunes by itself what it finds stale for the first time. The outcome of
a prune, whoever asked for it, comes back on the channel of working copy operations. Automatic
prunes are counted, and the other channel takes one off for an error that names a worktree prune.
-/

namespace GitBranchManager

open Library

/-! ## The error that a session shows

The banner shows `lastError`. A failure is written to it or leaves it alone; nothing but `clearError`
takes an error back.
-/

/-- The fields of a decoded `GitError` that decide where it is shown. -/
structure ReportedError where
  codeName : String
  message : String := ""
  argv : List String := []
  deriving DecidableEq, Repr

def isUserCancel (error : Option ReportedError) : Bool :=
  error.any fun error => error.codeName == "Cancelled"

/-- `copyWith(lastError: error)`. -/
def writeLastError (error lastError : Option ReportedError) : Option ReportedError := error <|> lastError

/-! ## The prunes -/

structure WorktreeInfo where
  path : String
  isPrunable : Bool := false
  isLocked : Bool := false
  deriving DecidableEq, Repr

inductive PruneOrigin
  | automatic
  | user
  deriving DecidableEq, Repr

/-- What a completion event carries. -/
structure CompletionPayload where
  succeeded : Bool
  error : Option ReportedError := none
  kind : String := ""
  deriving DecidableEq, Repr

/-- A prune that has come back. `decodes` says whether its event could be read, `written` is the
failure that its handler has written to `lastError`. -/
structure PruneRecord where
  origin : PruneOrigin
  decodes : Bool
  payload : CompletionPayload
  written : Option ReportedError
  deriving DecidableEq, Repr

/-- `submitted` holds who asked for each prune that has not come back, `log` the others, the last
one first. -/
structure WorktreePrunes where
  worktrees : List WorktreeInfo := []
  autoPrunedWorktreePaths : List String := []
  autoPruneWorktreesInFlight : Nat := 0
  lastError : Option ReportedError := none
  submitted : List PruneOrigin := []
  log : List PruneRecord := []
  deriving DecidableEq, Repr

/-- `backgroundFetch` is what `peekFetch` says of the fetch that the payload answers. A prune comes
back in the order of its submission, unless it is cancelled in the queue. -/
inductive PruneEvent
  | publishWorktrees (worktrees : List WorktreeInfo)
  | pruneWorktrees
  | pruneFinished (i : Nat) (decodes succeeded : Bool) (error : Option ReportedError)
  | workingCopyOperationFinished (payload : CompletionPayload) (backgroundFetch : Bool)
  | operationFinished (error : Option ReportedError)
  | clearError
  deriving DecidableEq, Repr

namespace CompletionPayload

def commitOutcomeKind : String := "commit"

def fetchOutcomeKind : String := "fetch"

/-- What the handler of `workingCopyOperationFinished` hands to `copyWith`. -/
def writtenError (payload : CompletionPayload) (backgroundFetch : Bool) : Option ReportedError :=
  let isBackground := payload.kind == fetchOutcomeKind && backgroundFetch
  if (!payload.succeeded && !isBackground) || payload.kind == commitOutcomeKind then
    let failure := if payload.succeeded then none else payload.error
    if isUserCancel failure then none else failure
  else none

end CompletionPayload

namespace WorktreePrunes

def submitPrune (s : WorktreePrunes) (origin : PruneOrigin) : WorktreePrunes :=
  { s with submitted := s.submitted ++ [origin] }

def autoPruneWorktrees (s : WorktreePrunes) (worktrees : List WorktreeInfo) : WorktreePrunes :=
  let fresh := (worktrees.filter fun w =>
    w.isPrunable && !w.isLocked && !s.autoPrunedWorktreePaths.contains w.path).map WorktreeInfo.path
  if fresh.isEmpty then s
  else
    { s with
      autoPrunedWorktreePaths := s.autoPrunedWorktreePaths ++ fresh
      autoPruneWorktreesInFlight := s.autoPruneWorktreesInFlight + 1 }.submitPrune .automatic

def isSuppressedAutoPruneWorktreesError (s : WorktreePrunes) (error : ReportedError) : Bool :=
  s.autoPruneWorktreesInFlight != 0 && error.argv.contains "worktree" && error.argv.contains "prune"

/-- The end of `_handleOperationOutcome`. -/
def handleOperationOutcome (s : WorktreePrunes) (error : Option ReportedError) : WorktreePrunes :=
  match error with
  | none => s
  | some error =>
    if isUserCancel (some error) then s
    else if s.isSuppressedAutoPruneWorktreesError error then
      { s with autoPruneWorktreesInFlight := s.autoPruneWorktreesInFlight - 1 }
    else { s with lastError := writeLastError (some error) s.lastError }

/-- The operation of a prune has no kind. An event that does not decode is dropped
and writes nothing. -/
def step (s : WorktreePrunes) : PruneEvent → Option WorktreePrunes
  | .publishWorktrees worktrees => some ({ s with worktrees }.autoPruneWorktrees worktrees)
  | .pruneWorktrees => some (s.submitPrune .user)
  | .pruneFinished i decodes succeeded error =>
    (s.submitted[i]?).map fun origin =>
      let payload : CompletionPayload := { succeeded, error }
      let written := if decodes then payload.writtenError false else none
      { s with
        lastError := writeLastError written s.lastError
        submitted := s.submitted.eraseIdx i
        log := { origin, decodes, payload, written } :: s.log }
  | .workingCopyOperationFinished payload backgroundFetch =>
    some { s with lastError := writeLastError (payload.writtenError backgroundFetch) s.lastError }
  | .operationFinished error => some (s.handleOperationOutcome error)
  | .clearError => some { s with lastError := none }

end WorktreePrunes

end GitBranchManager
