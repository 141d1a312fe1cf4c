import GitBranchManager.Operations.WorkerSteps
import Mathlib.Logic.Function.Basic

/-! # Requests that wait for their outcomes

The completion events of an operation queue carry no id that the requester knows. One queue of
requests for each kind of operation says which request an outcome answers.
-/

namespace GitBranchManager

inductive PendingOperationKind
  | checkout
  | deleteBranch
  | fetch
  | pruneRemote
  deriving DecidableEq, Repr

namespace PendingOperationKind

def values : List PendingOperationKind := [.checkout, .deleteBranch, .fetch, .pruneRemote]

def wireName : PendingOperationKind → Bytes
  | .checkout => ascii "checkout"
  | .deleteBranch => ascii "delete-branch"
  | .fetch => ascii "fetch"
  | .pruneRemote => ascii "prune-remote"

def fromWireName (wireName : Bytes) : Option PendingOperationKind :=
  values.find? fun kind => kind.wireName == wireName

theorem fromWireName_eq_some {wireName : Bytes} {kind : PendingOperationKind} :
    fromWireName wireName = some kind ↔ wireName = kind.wireName := by
  constructor
  · intro h
    rw [fromWireName] at h
    have hName := List.find?_some h
    exact (eq_of_beq hName).symm
  · rintro rfl
    cases kind with
    | checkout | deleteBranch | fetch | pruneRemote => decide

end PendingOperationKind

structure PendingCheckoutRequest where
  target : Bytes
  detach : Bool
  createBranch : Bool
  newBranchName : Bytes
  deriving DecidableEq, Repr

structure DeleteBranchEntry where
  name : Bytes
  force : Bool := false
  expectedTipOid : Bytes := []
  deriving DecidableEq, Repr

structure RemoteBranchDeletion where
  remoteName : Bytes
  names : List Bytes
  deriving DecidableEq, Repr

structure PendingDeleteBranchRequest where
  entries : List DeleteBranchEntry
  isRemote : Bool
  remoteName : Bytes
  thenDeleteRemote : List RemoteBranchDeletion := []
  deriving DecidableEq, Repr

structure PendingFetchRequest where
  remoteName : Bytes
  background : Bool := false
  deriving DecidableEq, Repr

structure PendingPruneRemoteRequest where
  remoteName : Bytes
  refs : List Bytes
  automatic : Bool := false
  deriving DecidableEq, Repr

def PendingRequest : PendingOperationKind → Type
  | .checkout => PendingCheckoutRequest
  | .deleteBranch => PendingDeleteBranchRequest
  | .fetch => PendingFetchRequest
  | .pruneRemote => PendingPruneRemoteRequest

structure PendingOperationTracker where
  queue : (kind : PendingOperationKind) → List (PendingRequest kind)

namespace PendingOperationTracker

def clear : PendingOperationTracker := ⟨fun _ => []⟩

variable (tracker : PendingOperationTracker)

def record (kind : PendingOperationKind) (request : PendingRequest kind) : PendingOperationTracker :=
  ⟨Function.update tracker.queue kind (tracker.queue kind ++ [request])⟩

/-- The first request is removed, if there is one. -/
def take (kind : PendingOperationKind) : Option (PendingRequest kind) × PendingOperationTracker :=
  ((tracker.queue kind).head?, ⟨Function.update tracker.queue kind (tracker.queue kind).tail⟩)

def recordCheckout (request : PendingCheckoutRequest) := tracker.record .checkout request
def recordDeleteBranch (request : PendingDeleteBranchRequest) := tracker.record .deleteBranch request
def recordFetch (request : PendingFetchRequest) := tracker.record .fetch request
def recordPruneRemote (request : PendingPruneRemoteRequest) := tracker.record .pruneRemote request

def takeCheckout : Option PendingCheckoutRequest × PendingOperationTracker := tracker.take .checkout
def takeDeleteBranch : Option PendingDeleteBranchRequest × PendingOperationTracker := tracker.take .deleteBranch
def takeFetch : Option PendingFetchRequest × PendingOperationTracker := tracker.take .fetch
def takePruneRemote : Option PendingPruneRemoteRequest × PendingOperationTracker := tracker.take .pruneRemote

end PendingOperationTracker

/-- The two events that end an operation. -/
inductive CompletionEvent
  | operationFinished
  | workingCopyOperationFinished
  deriving DecidableEq, Repr

/-- A fetch goes through `submitWorkingCopyOperation`, the others through `submitOperation`. -/
def PendingOperationKind.completionEvent : PendingOperationKind → CompletionEvent
  | .fetch => .workingCopyOperationFinished
  | _ => .operationFinished

/-- A session and its controller. The completion callback of each operation emits its event;
`handled` counts the events the controller has received. `requested` and `answered` record,
with the ids of their operations, the requests made and the requests handed out. -/
structure TrackedSession where
  runner : OperationRunner := {}
  emits : Nat → CompletionEvent := fun _ => .operationFinished
  tracker : PendingOperationTracker := .clear
  handled : Nat := 0
  isOpen : Bool := true
  requested : (kind : PendingOperationKind) → List (Nat × PendingRequest kind) := fun _ => []
  answered : (kind : PendingOperationKind) → List (Nat × PendingRequest kind) := fun _ => []

namespace TrackedSession

def outcomes (log : List RunnerRecord) : List (Nat × OperationOutcome) :=
  log.filterMap fun
    | .delivered id _ outcome => some (id, outcome)
    | _ => none

def answer (s : TrackedSession) (id : Nat) (kind : PendingOperationKind) : TrackedSession :=
  match s.tracker.take kind with
  | (none, _) => s
  | (some request, tracker) =>
    { s with tracker, answered := Function.update s.answered kind (s.answered kind ++ [(id, request)]) }

def handleOperationOutcome (s : TrackedSession) (id : Nat) (outcome : OperationOutcome) : TrackedSession :=
  match PendingOperationKind.fromWireName outcome.kind with
  | some .checkout => s.answer id .checkout
  | some .deleteBranch => s.answer id .deleteBranch
  | some .fetch => s
  | some .pruneRemote => s.answer id .pruneRemote
  | none => s

def handleWorkingCopyOutcomeKind (s : TrackedSession) (id : Nat) (outcome : OperationOutcome) : TrackedSession :=
  if PendingOperationKind.fromWireName outcome.kind = some .fetch then s.answer id .fetch else s

def handleEvent (s : TrackedSession) (id : Nat) (outcome : OperationOutcome) : TrackedSession :=
  match s.emits id with
  | .operationFinished => s.handleOperationOutcome id outcome
  | .workingCopyOperationFinished => s.handleWorkingCopyOutcomeKind id outcome

/-- `request` is a call of the controller: it records the request and submits the operation.
What a handler submits itself is a request that follows. `submit` is any other operation, from
any thread. The events are received in the order of the callbacks; one that does not decode, or
whose handler reads what does not decode, is dropped. -/
inductive SessionEvent
  | request (kind : PendingOperationKind) (request : PendingRequest kind) (operation : Operation)
  | submit (operation : Operation) (event : CompletionEvent)
  | runner (event : OperationRunner.RunnerEvent)
  | handle (decodes : Bool)
  | close

def isTracked (operation : Operation) : Bool := (PendingOperationKind.fromWireName operation.kind).isSome

/-- `kind()` is a literal where it is tracked. -/
def refuses (s : OperationRunner) : OperationRunner.RunnerEvent → Bool
  | .submit _ => true
  | .worker .kindThrows | .worker (.failUndelivered true _) =>
    match s.worker with
    | .busy queued _ => isTracked queued.operation
    | _ => false
  | _ => false

def submitTo (s : TrackedSession) (operation : Operation) (event : CompletionEvent) : Option TrackedSession :=
  (s.runner.step (.submit operation)).map fun runner =>
    { s with runner, emits := Function.update s.emits s.runner.nextId event }

def step (s : TrackedSession) : SessionEvent → Option TrackedSession
  | .request kind request operation =>
    if s.isOpen && operation.kind == kind.wireName then
      (s.submitTo operation kind.completionEvent).map fun s' =>
        { s' with
          tracker := s.tracker.record kind request
          requested := Function.update s.requested kind (s.requested kind ++ [(s.runner.nextId, request)]) }
    else none
  | .submit operation event => if isTracked operation then none else s.submitTo operation event
  | .runner event =>
    if refuses s.runner event then none
    else (s.runner.step event).map fun runner => { s with runner }
  | .handle decodes =>
    match (outcomes s.runner.log)[s.handled]? with
    | none => none
    | some (id, outcome) =>
      if !s.isOpen then none
      else if decodes then some ({ s with handled := s.handled + 1 }.handleEvent id outcome)
      else some { s with handled := s.handled + 1 }
  | .close => some { s with isOpen := false, tracker := .clear }

def start (first : Nat) : TrackedSession where
  runner := { nextId := first }

end TrackedSession

end GitBranchManager
