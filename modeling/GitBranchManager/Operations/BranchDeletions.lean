import GitBranchManager.Library.Runs
import GitBranchManager.Operations.PendingOperationTracker

/-! # Branch deletions and their remote halves

A local delete may be confirmed together with the deletion of remote branches. Until its outcome
the request waits in the queue of its kind, a failed one is kept for the recovery dialog, and a
forced retry waits for the probe of its branches. The outcomes come in the order of the requests.
-/

namespace GitBranchManager

namespace PendingDeleteBranchRequest

def names (request : PendingDeleteBranchRequest) : List Bytes := request.entries.map DeleteBranchEntry.name

/-- The calls that delete the remote half; one without names is never made. -/
def remoteRequests (request : PendingDeleteBranchRequest) : List PendingDeleteBranchRequest :=
  (request.thenDeleteRemote.filter fun remote => !remote.names.isEmpty).map fun remote =>
    { entries := remote.names.map fun name => { name }, isRemote := true, remoteName := remote.remoteName }

end PendingDeleteBranchRequest

inductive BranchDeletionProbe
  | notFound (name : Bytes)
  | noReference (name tipOid : Bytes)
  | counted (name tipOid upstream : Bytes) (unsyncedCount : Int)
  deriving DecidableEq, Repr

namespace BranchDeletionProbe

def name : BranchDeletionProbe → Bytes
  | .notFound name => name
  | .noReference name _ => name
  | .counted name _ _ _ => name

/-- The entry of a branch that is still there. -/
def forced : BranchDeletionProbe → Option DeleteBranchEntry
  | .notFound _ => none
  | .noReference name tipOid => some { name, force := true, expectedTipOid := tipOid }
  | .counted name tipOid _ _ => some { name, force := true, expectedTipOid := tipOid }

end BranchDeletionProbe

structure BranchDeletionProbeReply where
  probes : List BranchDeletionProbe
  error : Option GitError := none
  deriving DecidableEq, Repr

namespace BranchDeletionProbeReply

/-- A read that fails has no probes, and another one has a probe for each name, in their order. -/
def answers (reply : BranchDeletionProbeReply) (names : List Bytes) : Bool :=
  if reply.error.isSome then reply.probes.isEmpty else reply.probes.map BranchDeletionProbe.name == names

def gone (reply : BranchDeletionProbeReply) : List Bytes :=
  (reply.probes.filter fun probe => probe.forced.isNone).map BranchDeletionProbe.name

end BranchDeletionProbeReply

/-- A call of the user. -/
structure Confirmation where
  id : Nat
  request : PendingDeleteBranchRequest
  deriving DecidableEq, Repr

/-- A request with the call that it comes from, as its own half or as the remote one. -/
structure BranchDeletion where
  confirmation : Confirmation
  isRemoteHalf : Bool
  request : PendingDeleteBranchRequest
  deriving DecidableEq, Repr

/-- `choice` is the recovery choice that resubmits a request, if one does; `gone` are the names that a
probe of the confirmation has not found. -/
inductive DeletionRecord
  | submitted (deletion : BranchDeletion) (choice : Option OperationChoiceKind)
  | finished (deletion : BranchDeletion) (succeeded : Bool)
  | probed (confirmation : Confirmation) (gone : List Bytes)
  deriving DecidableEq, Repr

/-- The future of a probe, which is completed once. -/
structure ProbeFuture where
  names : List Bytes
  reply : Option BranchDeletionProbeReply := none
  deriving DecidableEq, Repr

/-- A future is named by its place in `probes`, and `awaiting` are the forced retries that wait for one.
`confirmations` counts the calls of the user and `log` holds the records, the newest first; no step
reads either, nor what a request says of its confirmation. -/
structure BranchDeletions where
  isOpen : Bool := true
  queue : List BranchDeletion := []
  lastFailed : Option BranchDeletion := none
  lastFailedProbe : Option Nat := none
  probes : List ProbeFuture := []
  awaiting : List (BranchDeletion × Nat) := []
  confirmations : Nat := 0
  log : List DeletionRecord := []
  deriving DecidableEq, Repr

inductive DeletionEvent
  | deleteBranch (request : PendingDeleteBranchRequest)
  | outcome (succeeded : Bool) (choices : List OperationChoice)
  | retryDeleteBranchWithChoice (kind : OperationChoiceKind)
  | dismissDeleteBranchChoices
  | probeReady (probe : Nat) (reply : BranchDeletionProbeReply)
  | resume (i : Nat)
  | close
  deriving DecidableEq, Repr

namespace BranchDeletions

def write (s : BranchDeletions) (record : DeletionRecord) : BranchDeletions := { s with log := record :: s.log }

def deleteBranch (s : BranchDeletions) (deletion : BranchDeletion) (choice : Option OperationChoiceKind) :
    BranchDeletions :=
  if !s.isOpen || deletion.request.entries.isEmpty then s
  else { s with queue := s.queue ++ [deletion] }.write (.submitted deletion choice)

def remoteHalf (deletion : BranchDeletion) (remote : RemoteBranchDeletion) : BranchDeletion where
  confirmation := deletion.confirmation
  isRemoteHalf := true
  request :=
    { entries := remote.names.map fun name => { name }, isRemote := true, remoteName := remote.remoteName }

/-- The loop over `thenDeleteRemote`. -/
def deleteRemoteHalf (s : BranchDeletions) (deletion : BranchDeletion) : BranchDeletions :=
  deletion.request.thenDeleteRemote.foldl (fun s remote => s.deleteBranch (remoteHalf deletion remote) none) s

/-- Without a session the future has an empty reply from the start. -/
def probeBranchDeletion (s : BranchDeletions) (names : List Bytes) : Nat × BranchDeletions :=
  let reply : Option BranchDeletionProbeReply := if !s.isOpen || names.isEmpty then some { probes := [] } else none
  (s.probes.length, { s with probes := s.probes ++ [{ names, reply }] })

def handleOutcome (s : BranchDeletions) (succeeded : Bool) (choices : List OperationChoice) : BranchDeletions :=
  match s.queue with
  | [] => s
  | deletion :: queue =>
    let s := { s with queue, lastFailed := if succeeded then none else some deletion }.write
      (.finished deletion succeeded)
    let s :=
      if !succeeded && !choices.isEmpty && !deletion.request.isRemote then
        let (probe, s) := s.probeBranchDeletion deletion.request.names
        { s with lastFailedProbe := some probe }
      else { s with lastFailedProbe := none }
    if succeeded then s.deleteRemoteHalf deletion else s

/-- A remote delete is never forced. -/
def forceDeleteAfterProbe (s : BranchDeletions) (deletion : BranchDeletion) (probe : Option Nat) : BranchDeletions :=
  if deletion.request.isRemote then s
  else
    match probe with
    | some probe => { s with awaiting := s.awaiting ++ [(deletion, probe)] }
    | none =>
      let (probe, s) := s.probeBranchDeletion deletion.request.names
      { s with awaiting := s.awaiting ++ [(deletion, probe)] }

def dismiss (s : BranchDeletions) : BranchDeletions := { s with lastFailed := none, lastFailedProbe := none }

def retryDeleteBranchWithChoice (s : BranchDeletions) (kind : OperationChoiceKind) : BranchDeletions :=
  match s.lastFailed with
  | none => s.dismiss
  | some deletion =>
    match kind with
    | .forceDiscard => s.dismiss.forceDeleteAfterProbe deletion s.lastFailedProbe
    | .retry | .removeLock => s.dismiss.deleteBranch deletion (some kind)
    | .stashAndRetry | .abort => s.dismiss

/-- The rest of `_forceDeleteAfterProbe`, once its probe has a reply. -/
def resume (s : BranchDeletions) (deletion : BranchDeletion) (reply : BranchDeletionProbeReply) : BranchDeletions :=
  if reply.error.isSome then s
  else
    let entries := reply.probes.filterMap BranchDeletionProbe.forced
    let s := s.write (.probed deletion.confirmation reply.gone)
    if entries.isEmpty then s.deleteRemoteHalf deletion
    else s.deleteBranch { deletion with request := { deletion.request with entries } } (some .forceDiscard)

def step (s : BranchDeletions) : DeletionEvent → Option BranchDeletions
  | .deleteBranch request =>
    let confirmation : Confirmation := { id := s.confirmations, request }
    some ({ s with confirmations := s.confirmations + 1 }.deleteBranch
      { confirmation, isRemoteHalf := false, request } none)
  | .outcome succeeded choices => some (s.handleOutcome succeeded choices)
  | .retryDeleteBranchWithChoice kind => some (s.retryDeleteBranchWithChoice kind)
  | .dismissDeleteBranchChoices => some s.dismiss
  | .probeReady probe reply =>
    match s.probes[probe]? with
    | none => some s
    | some future =>
      if future.reply.isSome then some s
      else if reply.answers future.names then
        some { s with probes := s.probes.set probe { future with reply := some reply } }
      else none
  | .resume i =>
    match s.awaiting[i]? with
    | none => none
    | some (deletion, probe) =>
      ((s.probes[probe]?).bind ProbeFuture.reply).map
        ({ s with awaiting := s.awaiting.eraseIdx i }.resume deletion)
  | .close => some { s with isOpen := false, queue := [] }

end BranchDeletions

end GitBranchManager
