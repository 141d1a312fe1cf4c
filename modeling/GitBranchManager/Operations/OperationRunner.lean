import GitBranchManager.Base.GitError

/-! # The serial queue of mutating operations

Callers submit and cancel under the queue's lock. One worker pops an operation, marks it
running, checks it, runs it and delivers its outcome; what the lock does not cover is a step
of its own. A cancellation source is named by the id of its operation, and no id wraps.
-/

namespace GitBranchManager

structure Operation where
  describe : Bytes
  kind : Bytes := []
  killableMidFlight : Bool := false
  isBackground : Bool := false
  retriesOnLockHeld : Bool := false
  isHousekeeping : Bool := false
  allowedDuringSequencerOperation : Bool := false
  deriving DecidableEq, Repr

/-- What the runner looks at in an answer of `RepoState::read`. -/
structure RepoState where
  indexLocked : Bool := false
  indexLockAgeSeconds : Option Int := none
  isSequencerOperation : Bool := false
  describe : Bytes := []
  deriving DecidableEq, Repr

/-- `onDone` is taken, and false from then on, when the completion callback is called. -/
structure QueuedOperation where
  id : Nat
  operation : Operation
  onDone : Bool := true
  deriving DecidableEq, Repr

inductive CancelResult
  | cancelled
  | notCancellable
  | notFound
  deriving DecidableEq, Repr

/-- How far the worker is with an operation. `running` and `waiting` count the retries that
are left. -/
inductive Phase
  | popped
  | marked
  | preflight
  | cleared
  | running (retries : Nat)
  | waiting (retries : Nat)
  | finished (outcome : OperationOutcome)
  | thrown
  | delivered
  deriving DecidableEq, Repr

inductive Worker
  | idle
  | busy (queued : QueuedOperation) (phase : Phase)
  | exited
  deriving DecidableEq, Repr

inductive RunnerRecord
  | submitted (id : Nat) (operation : Operation)
  | began (id : Nat)
  | ended (id : Nat)
  | delivered (id : Nat) (operation : Operation) (outcome : OperationOutcome)
  deriving DecidableEq, Repr

/-- `tripped` lists the cancelled sources; `log` records the calls made, which no step of the
source reads. -/
structure OperationRunner where
  queue : List QueuedOperation := []
  worker : Worker := .idle
  runningId : Nat := 0
  runningKillable : Bool := false
  runningDescription : Bytes := []
  stopping : Bool := false
  preparingForShutdown : Bool := false
  nextId : Nat := 1
  tripped : List Nat := []
  log : List RunnerRecord := []
  deriving DecidableEq, Repr

namespace OperationRunner

def kStaleLockSeconds : Int := 600
def kLockRetries : Nat := 2

def cancelledOutcome : OperationOutcome where
  error := some { code := .cancelled, message := ascii "Operation cancelled" }

def failedOutcome : OperationOutcome where
  error := some { code := .unknown, message := ascii "The operation failed unexpectedly" }

def lockedSummary : Bytes := ascii "Another Git process appears to be running in this repository"

def staleLock (current : RepoState) : Bool := current.indexLockAgeSeconds.any (kStaleLockSeconds < ·)

def preflight (operation : Operation) (isCancelled : Bool) (current : RepoState) :
    Option OperationOutcome :=
  if isCancelled then some cancelledOutcome
  else if current.indexLocked then
    some
      { error := some { code := .lockHeld, message := lockedSummary }
        choices := { kind := .retry } ::
          if staleLock current then [{ kind := .removeLock, destructive := true }] else []
        summary := lockedSummary }
  else if current.isSequencerOperation && !operation.allowedDuringSequencerOperation then
    some
      { error := some
          { code := .conflict, message := ascii "Finish or abort the operation in progress first" }
        choices := [{ kind := .abort, destructive := true }]
        summary := current.describe }
  else none

def afterPreflight (s : OperationRunner) (queued : QueuedOperation) (current : RepoState) : Phase :=
  match preflight queued.operation (s.tripped.contains queued.id) current with
  | some blocked => .finished blocked
  | none => .cleared

def backgroundIds (queue : List QueuedOperation) : List Nat :=
  (queue.filter fun queued => queued.operation.isBackground).map QueuedOperation.id

def submit (s : OperationRunner) (operation : Operation) : Nat × OperationRunner :=
  let waiting := if operation.isBackground then [] else backgroundIds s.queue
  let own := if s.preparingForShutdown && operation.isBackground then [s.nextId] else []
  (s.nextId,
    { s with
      queue := s.queue ++ [{ id := s.nextId, operation }]
      nextId := s.nextId + 1
      tripped := s.tripped ++ waiting ++ own
      log := s.log ++ [.submitted s.nextId operation] })

def trip (s : OperationRunner) (id : Nat) : OperationRunner := { s with tripped := s.tripped ++ [id] }

/-- The locked part of `cancel`. A running operation that may be killed is tripped once the
lock is released. -/
def cancel (s : OperationRunner) (id : Nat) : CancelResult × Option Bytes × OperationRunner :=
  if s.queue.any fun queued => queued.id == id then (.cancelled, none, s.trip id)
  else if id = 0 ∨ id ≠ s.runningId then (.notFound, none, s)
  else if !s.runningKillable then (.notCancellable, some s.runningDescription, s)
  else (.cancelled, none, s)

def prepareForShutdown (s : OperationRunner) : OperationRunner :=
  { s with preparingForShutdown := true, tripped := s.tripped ++ backgroundIds s.queue }

/-- The condition of the retry loop, besides the retries that are left. -/
def lostLock (operation : Operation) (outcome : OperationOutcome) (isCancelled : Bool) : Bool :=
  !outcome.succeeded && operation.retriesOnLockHeld &&
    outcome.error.any (fun error => error.code == .lockHeld) && !isCancelled

def afterRun (s : OperationRunner) (queued : QueuedOperation) (retries : Nat) :
    Option OperationOutcome → Phase
  | none => .finished failedOutcome
  | some outcome =>
    match retries with
    | 0 => .finished outcome
    | left + 1 =>
      if lostLock queued.operation outcome (s.tripped.contains queued.id) then .waiting left
      else .finished outcome

/-- Calls the completion callback. -/
def deliver (s : OperationRunner) (queued : QueuedOperation) (outcome : OperationOutcome)
    (next : Phase) : OperationRunner :=
  { s with
    worker := .busy { queued with onDone := false } next
    log := s.log ++ [.delivered queued.id queued.operation outcome] }

inductive WorkerAction
  | pop
  | mark
  | markThrows (killableRead : Bool)
  | check
  | preflight (current : RepoState)
  | preflightThrows
  | begin
  | beginThrows
  | finishRun (result : Option OperationOutcome)
  | rerun
  | rerunThrows
  | kindThrows
  | deliver (callbackThrows : Bool)
  | failUndelivered (kindThrows callbackThrows : Bool)
  | release
  | exit
  deriving DecidableEq, Repr

/-- One step of `workerLoop`; an answer of the repository, the result of `run` and where an
exception is thrown come with the action. -/
def work (s : OperationRunner) : WorkerAction → Option OperationRunner
  | .pop =>
    match s.worker, s.queue with
    | .idle, queued :: queue =>
      some { s with queue, worker := .busy queued .popped, runningId := queued.id }
    | _, _ => none
  | .mark =>
    match s.worker with
    | .busy queued .popped =>
      some { s with
        worker := .busy queued .marked
        runningKillable := queued.operation.killableMidFlight
        runningDescription := queued.operation.describe }
    | _ => none
  | .markThrows killableRead =>
    match s.worker with
    | .busy queued .popped =>
      some { s with
        worker := .busy queued .thrown
        runningKillable :=
          if killableRead then queued.operation.killableMidFlight else s.runningKillable }
    | _ => none
  | .check =>
    match s.worker with
    | .busy queued .marked =>
      some { s with
        worker := .busy queued
          (if s.tripped.contains queued.id then .finished cancelledOutcome else .preflight) }
    | _ => none
  | .preflight current =>
    match s.worker with
    | .busy queued .preflight =>
      some { s with worker := .busy queued (s.afterPreflight queued current) }
    | _ => none
  | .preflightThrows =>
    match s.worker with
    | .busy queued .preflight => some { s with worker := .busy queued .thrown }
    | _ => none
  | .begin =>
    match s.worker with
    | .busy queued .cleared =>
      some { s with worker := .busy queued (.running kLockRetries), log := s.log ++ [.began queued.id] }
    | _ => none
  | .beginThrows =>
    match s.worker with
    | .busy queued .cleared =>
      if queued.operation.isHousekeeping then none
      else some { s with worker := .busy queued (.finished failedOutcome) }
    | _ => none
  | .finishRun result =>
    match s.worker with
    | .busy queued (.running retries) =>
      some { s with
        worker := .busy queued (s.afterRun queued retries result)
        log := s.log ++ [.ended queued.id] }
    | _ => none
  | .rerun =>
    match s.worker with
    | .busy queued (.waiting retries) =>
      some { s with worker := .busy queued (.running retries), log := s.log ++ [.began queued.id] }
    | _ => none
  | .rerunThrows =>
    match s.worker with
    | .busy queued (.waiting _) => some { s with worker := .busy queued (.finished failedOutcome) }
    | _ => none
  | .kindThrows =>
    match s.worker with
    | .busy queued (.finished _) => some { s with worker := .busy queued .thrown }
    | _ => none
  | .deliver callbackThrows =>
    match s.worker with
    | .busy queued (.finished outcome) =>
      some (s.deliver queued { outcome with kind := queued.operation.kind }
        (if callbackThrows then .thrown else .delivered))
    | _ => none
  | .failUndelivered kindThrows _ =>
    match s.worker with
    | .busy queued .thrown =>
      if queued.onDone then
        some (s.deliver queued
          { failedOutcome with kind := if kindThrows then [] else queued.operation.kind } .delivered)
      else some { s with worker := .busy queued .delivered }
    | _ => none
  | .release =>
    match s.worker with
    | .busy _ .delivered => some { s with worker := .idle, runningId := 0, runningKillable := false }
    | _ => none
  | .exit =>
    match s.worker, s.queue with
    | .idle, [] => if s.stopping then some { s with worker := .exited } else none
    | _, _ => none

/-- `trip` is the end of a `cancel` that let the lock go, or the owner of the handle; other
runners draw ids from the same sequence; nothing is submitted to a runner that is destroyed. -/
inductive RunnerEvent
  | submit (operation : Operation)
  | otherId
  | cancel (id : Nat)
  | trip (id : Nat)
  | prepareForShutdown
  | stop
  | worker (action : WorkerAction)
  deriving DecidableEq, Repr

def step (s : OperationRunner) : RunnerEvent → Option OperationRunner
  | .submit operation => if s.stopping then none else some (s.submit operation).2
  | .otherId => some { s with nextId := s.nextId + 1 }
  | .cancel id => some (s.cancel id).2.2
  | .trip id => some (s.trip id)
  | .prepareForShutdown => some s.prepareForShutdown
  | .stop => some { s with stopping := true }
  | .worker action => s.work action

def isWorker : RunnerEvent → Bool
  | .worker _ => true
  | _ => false

def submissions (log : List RunnerRecord) : List (Nat × Operation) :=
  log.filterMap fun
    | .submitted id operation => some (id, operation)
    | _ => none

def completions (log : List RunnerRecord) : List (Nat × Operation) :=
  log.filterMap fun
    | .delivered id operation _ => some (id, operation)
    | _ => none

/-- The `run` bodies that have begun and not ended. -/
def activeRuns (log : List RunnerRecord) : List Nat :=
  log.foldl (fun active record =>
    match record with
    | .began id => active ++ [id]
    | .ended id => active.erase id
    | _ => active) []

end OperationRunner

end GitBranchManager
