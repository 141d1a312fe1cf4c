import GitBranchManager.Operations.CancelledOperations

/-! # The ways to a cancellation source

A session keeps the sources of the operations it waits for. Cancelling everything copies them
out and trips them once the lock is released; cancelling one operation is up to the queue.
Closing a session prepares the queue for shutdown and then cancels everything.
-/

namespace GitBranchManager

open Library

/-- `targets` and `running` hold the sources that `cancelOperations` and the queue's `cancel`
have copied out. -/
structure CancellableSession where
  operations : OperationRunner := {}
  inFlight : List Nat := []
  targets : List Nat := []
  running : List Nat := []
  deriving DecidableEq, Repr

inductive CancellableEvent
  | submitOperation (operation : Operation)
  | submit (operation : Operation)
  | otherId
  | cancelOperation (id : Nat)
  | cancelTarget (id : Nat)
  | cancelRunning (id : Nat)
  | prepareForShutdown
  | stop
  | worker (action : OperationRunner.WorkerAction)
  deriving DecidableEq, Repr

namespace CancellableSession

open OperationRunner

def completedIds (operations : OperationRunner) : List Nat := (completions operations.log).map Prod.fst

/-- `cancel` leaves the trip of a running operation until the lock is released. -/
def copiesRunning (operations : OperationRunner) (id : Nat) : Bool :=
  !(operations.queue.any fun queued => queued.id == id) && (operations.cancel id).1 == .cancelled

/-- The completion callback of `submitOperation` erases its entry first; other submissions have
none. -/
def step (s : CancellableSession) : CancellableEvent → Option CancellableSession
  | .submitOperation operation =>
    (s.operations.step (.submit operation)).map fun operations =>
      { s with operations, inFlight := s.inFlight ++ [s.operations.nextId] }
  | .submit operation => (s.operations.step (.submit operation)).map fun operations => { s with operations }
  | .otherId => (s.operations.step .otherId).map fun operations => { s with operations }
  | .cancelOperation id =>
    if id = 0 then some { s with targets := s.targets ++ s.inFlight }
    else
      (s.operations.step (.cancel id)).map fun operations =>
        { s with operations, running := if copiesRunning s.operations id then s.running ++ [id] else s.running }
  | .cancelTarget id =>
    if id ∈ s.targets then (s.operations.step (.trip id)).map fun operations => { s with operations } else none
  | .cancelRunning id =>
    if id ∈ s.running then (s.operations.step (.trip id)).map fun operations => { s with operations } else none
  | .prepareForShutdown => (s.operations.step .prepareForShutdown).map fun operations => { s with operations }
  | .stop => (s.operations.step .stop).map fun operations => { s with operations }
  | .worker action =>
    (s.operations.step (.worker action)).map fun operations =>
      { s with operations, inFlight := s.inFlight.filter fun id => !(completedIds operations).contains id }

end CancellableSession

namespace OperationRunner

/-- What `cancel` reads of the operation in the worker's hands is true of it. -/
structure Labelled (s : OperationRunner) : Prop where
  idle : (∀ queued phase, s.worker ≠ .busy queued phase) → s.runningKillable = false
  id : ∀ queued phase, s.worker = .busy queued phase → s.runningId = queued.id
  killable : ∀ queued phase, s.worker = .busy queued phase → s.runningKillable = true →
    queued.operation.killableMidFlight = true
  known : ∀ queued phase, s.worker = .busy queued phase → queued.entry ∈ submissions s.log

theorem labelled_start (first : Nat) : Labelled { nextId := first } where
  idle _ := rfl
  id _ _ hBusy := absurd hBusy (by simp)
  killable _ _ hBusy := absurd hBusy (by simp)
  known _ _ hBusy := absurd hBusy (by simp)

/-- Only marking an operation and releasing it write what a refused cancel is answered from. -/
theorem flags_of_work {s s' : OperationRunner} {action : WorkerAction} (h : s.work action = some s') :
    s'.runningKillable = s.runningKillable ∧ s'.runningDescription = s.runningDescription ∨
      s'.worker = .idle ∧ s'.runningKillable = false ∨
      ∃ queued, s.worker = .busy queued .popped ∧
        (s'.runningKillable = s.runningKillable ∨ s'.runningKillable = queued.operation.killableMidFlight) := by
  cases action with
  | mark =>
    rw [work] at h
    split at h
    next queued hBusy =>
      obtain rfl := Option.some.inj h
      exact .inr (.inr ⟨queued, hBusy, .inr rfl⟩)
    next => cases h
  | markThrows killableRead =>
    rw [work] at h
    split at h
    next queued hBusy =>
      obtain rfl := Option.some.inj h
      cases killableRead with
      | true => exact .inr (.inr ⟨queued, hBusy, .inr rfl⟩)
      | false => exact .inr (.inr ⟨queued, hBusy, .inl rfl⟩)
    next => cases h
  | release =>
    rw [work] at h
    split at h
    · obtain rfl := Option.some.inj h
      exact .inr (.inl ⟨rfl, rfl⟩)
    · cases h
  | pop | check | preflight _ | preflightThrows | begin | finishRun _ | rerun | rerunThrows | kindThrows | deliver _ =>
    rw [work] at h
    split at h
    · obtain rfl := Option.some.inj h
      exact .inl ⟨rfl, rfl⟩
    · cases h
  | beginThrows =>
    rw [work] at h
    split at h
    · split at h
      · cases h
      · obtain rfl := Option.some.inj h
        exact .inl ⟨rfl, rfl⟩
    · cases h
  | failUndelivered _ _ =>
    rw [work] at h
    split at h
    · split at h
      · obtain rfl := Option.some.inj h
        exact .inl ⟨rfl, rfl⟩
      · obtain rfl := Option.some.inj h
        exact .inl ⟨rfl, rfl⟩
    · cases h
  | exit =>
    rw [work] at h
    split at h
    · split at h
      · obtain rfl := Option.some.inj h
        exact .inl ⟨rfl, rfl⟩
      · cases h
    · cases h

/-- The flag is set when the operation is marked, or when reading its description throws. -/
theorem killable_of_work {s s' : OperationRunner} {action : WorkerAction} (h : s.work action = some s')
    (hKillable : s'.runningKillable = true) :
    s.runningKillable = true ∨
      ∃ queued, s.worker = .busy queued .popped ∧ queued.operation.killableMidFlight = true := by
  obtain ⟨hSame, -⟩ | ⟨-, hNone⟩ | ⟨queued, hBusy, hSame | hRead⟩ := flags_of_work h
  · exact .inl (hSame ▸ hKillable)
  · exact absurd (hNone.symm.trans hKillable) Bool.false_ne_true
  · exact .inl (hSame ▸ hKillable)
  · exact .inr ⟨queued, hBusy, hRead ▸ hKillable⟩

/-- The operation that a step leaves in the worker's hands was there or headed the queue. -/
theorem held_of_works {s s' : OperationRunner} (h : Works s s') {queued : QueuedOperation} {phase : Phase}
    (hBusy : s'.worker = .busy queued phase) :
    (∃ held before, s.worker = .busy held before ∧ held.id = queued.id ∧ held.operation = queued.operation ∧
        s'.runningId = s.runningId) ∨
      s.worker = .idle ∧ queued ∈ s.queue ∧ s'.runningId = queued.id ∧
        s'.runningKillable = s.runningKillable := by
  cases h with
  | pop head queue hIdle hQueue =>
    injection hBusy with hHead
    subst hHead
    exact .inr ⟨hIdle, hQueue ▸ List.mem_cons_self, rfl, rfl⟩
  | move held before next killable description hHeld hMove =>
    injection hBusy with hHead
    subst hHead
    exact .inl ⟨held, before, hHeld, rfl, rfl, rfl⟩
  | began held before retries hHeld hPhase =>
    injection hBusy with hHead
    subst hHead
    exact .inl ⟨held, before, hHeld, rfl, rfl, rfl⟩
  | ended held retries next hHeld hNext =>
    injection hBusy with hHead
    subst hHead
    exact .inl ⟨held, _, hHeld, rfl, rfl, rfl⟩
  | delivered held before next outcome hHeld hPhase =>
    injection hBusy with hHead
    subst hHead
    exact .inl ⟨held, before, hHeld, rfl, rfl, rfl⟩
  | skipped held hHeld hDone =>
    injection hBusy with hHead
    subst hHead
    exact .inl ⟨held, _, hHeld, rfl, rfl, rfl⟩
  | released held hHeld => cases hBusy
  | exited hIdle hQueue hStop => cases hBusy

theorem Labelled.work {s s' : OperationRunner} {action : WorkerAction} (h : s.Labelled) (hConsistent : s.Consistent)
    (hWork : s.work action = some s') : s'.Labelled := by
  have hWorks := works_of_work hWork
  constructor
  · intro hFree
    cases hWorks with
    | released held hHeld => rfl
    | exited hIdle hQueue hStop => exact h.idle fun _ _ hBusy => absurd (hIdle.symm.trans hBusy) (by simp)
    | pop | move | began | ended | delivered | skipped => exact absurd rfl (hFree _ _)
  · intro queued phase hBusy
    rcases held_of_works hWorks hBusy with ⟨held, before, hHeld, hId, -, hSame⟩ | ⟨-, -, hId, -⟩
    · rw [hSame, h.id held before hHeld, hId]
    · exact hId
  · intro queued phase hBusy hKillable
    have hFlag := killable_of_work hWork hKillable
    rcases held_of_works hWorks hBusy with ⟨held, before, hHeld, -, hOperation, -⟩ | ⟨hIdle, -, -, hSame⟩
    · rw [← hOperation]
      rcases hFlag with hSet | ⟨marked, hMarked, hMay⟩
      · exact h.killable held before hHeld hSet
      · rw [hHeld] at hMarked
        injection hMarked with hMarked
        rwa [hMarked]
    · rw [hSame, h.idle fun _ _ hOther => absurd (hIdle.symm.trans hOther) (by simp)] at hKillable
      cases hKillable
  · intro queued phase hBusy
    rw [submissions_of_works hWorks]
    rcases held_of_works hWorks hBusy with ⟨held, before, hHeld, hId, hOperation, -⟩ | ⟨-, hQueue, -, -⟩
    · have hKnown := h.known held before hHeld
      rwa [QueuedOperation.entry, hId, hOperation] at hKnown
    · rw [hConsistent.order]
      exact List.mem_append_right _ (List.mem_append_right _ (List.mem_map_of_mem hQueue))

theorem Labelled.step {s s' : OperationRunner} {event : RunnerEvent} (h : s.Labelled) (hConsistent : s.Consistent)
    (hStep : s.step event = some s') : s'.Labelled := by
  cases event with
  | submit operation =>
    rw [OperationRunner.step] at hStep
    split at hStep
    · cases hStep
    · obtain rfl := Option.some.inj hStep
      refine ⟨h.idle, h.id, h.killable, fun queued phase hBusy => ?_⟩
      rw [submit, submissions_append]
      exact List.mem_append_left _ (h.known queued phase hBusy)
  | otherId =>
    obtain rfl := Option.some.inj hStep
    exact ⟨h.idle, h.id, h.killable, h.known⟩
  | cancel id =>
    obtain rfl := Option.some.inj hStep
    rcases cancel_cases s id with hEq | hEq
    · rw [hEq]
      exact h
    · rw [hEq]
      exact ⟨h.idle, h.id, h.killable, h.known⟩
  | trip id =>
    obtain rfl := Option.some.inj hStep
    exact ⟨h.idle, h.id, h.killable, h.known⟩
  | prepareForShutdown =>
    obtain rfl := Option.some.inj hStep
    exact ⟨h.idle, h.id, h.killable, h.known⟩
  | stop =>
    obtain rfl := Option.some.inj hStep
    exact ⟨h.idle, h.id, h.killable, h.known⟩
  | worker action => exact h.work hConsistent hStep

/-- One id is given to one operation. -/
theorem Consistent.unique {s : OperationRunner} (h : s.Consistent) {id : Nat} {operation other : Operation}
    (hOperation : (id, operation) ∈ submissions s.log) (hOther : (id, other) ∈ submissions s.log) :
    operation = other := by
  have hSame := List.inj_on_of_nodup_map h.nodup hOperation hOther rfl
  exact congrArg Prod.snd hSame

end OperationRunner

end GitBranchManager
