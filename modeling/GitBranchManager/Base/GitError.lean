import GitBranchManager.Base.Bytes

/-! # Errors that cross a core API boundary -/

namespace GitBranchManager

inductive GitErrorCode
  | unknown
  | notFound
  | invalidArgument
  | conflict
  | lockHeld
  | auth
  | hostKey
  | nonFastForward
  | dirtyWorkTree
  | hookRejected
  | cancelled
  | processFailed
  | spawnFailed
  | parseError
  | corrupt
  | unsupported
  | timeout
  | tooLarge
  | database
  | io
  | notCancellable
  | staleBranchTip
  | missingBranchTip
  deriving DecidableEq, Repr

structure GitError where
  code : GitErrorCode := .unknown
  message : Bytes := []
  deriving DecidableEq, Repr

abbrev GitResult (α : Type) := Except GitError α

/-! ## What an operation reports -/

inductive OperationChoiceKind
  | stashAndRetry
  | forceDiscard
  | abort
  | retry
  | removeLock
  deriving DecidableEq, Repr

structure OperationChoice where
  kind : OperationChoiceKind
  destructive : Bool := false
  deriving DecidableEq, Repr

/-- `kind` is stamped by the runner; `mutatedRefs` says that a failed operation was seen to change
refs. -/
structure OperationOutcome where
  succeeded : Bool := false
  error : Option GitError := none
  choices : List OperationChoice := []
  summary : Bytes := []
  kind : Bytes := []
  mutatedRefs : Bool := false
  deriving DecidableEq, Repr

end GitBranchManager
