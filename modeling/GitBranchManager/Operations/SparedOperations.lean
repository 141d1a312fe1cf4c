import GitBranchManager.Operations.CancelRoutes

/-! # Who interrupts an operation that must not be killed

An operation that is past its checks has left the queue, so what trips queued sources passes it
by, and `cancel` refuses it. Only the copy of all sources that cancelling everything takes still
holds its own.
-/

namespace GitBranchManager

open Library

namespace OperationRunner

theorem cancel_trips (s : OperationRunner) (id : Nat) :
    (s.cancel id).2.2 = s ∨ id ∈ s.queue.map QueuedOperation.id ∧ (s.cancel id).2.2 = s.trip id := by
  rw [cancel]
  split
  · rename_i hQueued
    obtain ⟨queued, hMem, hId⟩ := List.any_eq_true.mp hQueued
    exact .inr ⟨List.mem_map.mpr ⟨queued, hMem, beq_iff_eq.mp hId⟩, rfl⟩
  · split
    · exact .inl rfl
    · split
      · exact .inl rfl
      · exact .inl rfl

/-- What the worker turns to has not been tripped before it is cleared. -/
theorem tripped_of_works {s s' : OperationRunner} (h : Works s s') {queued : QueuedOperation} {phase : Phase}
    (hBusy : s'.worker = .busy queued phase) (hMay : phase.mayRun = true) (hTripped : queued.id ∈ s'.tripped) :
    ∃ before, s.worker = .busy queued before ∧ before.mayRun = true ∧ queued.id ∈ s.tripped := by
  cases h with
  | pop head queue hIdle hQueue =>
    injection hBusy with _ hPhase
    rw [← hPhase] at hMay
    cases hMay
  | move held before next killable description hHeld hMove =>
    injection hBusy with hHead hPhase
    subst hHead hPhase
    cases hMove with
    | admitted hLive => exact absurd hTripped hLive
    | allowed hLive => exact absurd hTripped hLive
    | marked | markThrows | refused | blocked | preflightThrows | beginThrows | rerunThrows | kindThrows =>
      cases hMay
  | began held before retries hHeld hPhase =>
    injection hBusy with hHead
    subst hHead
    refine ⟨before, hHeld, ?_, hTripped⟩
    rcases hPhase with ⟨rfl, -⟩ | rfl
    · rfl
    · rfl
  | ended held retries next hHeld hNext =>
    injection hBusy with hHead
    subst hHead
    exact ⟨_, hHeld, rfl, hTripped⟩
  | delivered held before next outcome hHeld hPhase =>
    injection hBusy with _ hLast
    rw [← hLast] at hMay
    rcases hPhase with ⟨-, rfl | rfl⟩ | ⟨-, -, rfl⟩
    · cases hMay
    · cases hMay
    · cases hMay
  | skipped held hHeld hDone =>
    injection hBusy with _ hLast
    rw [← hLast] at hMay
    cases hMay
  | released held hHeld => cases hBusy
  | exited hIdle hQueue hStop => cases hBusy

/-- A source that is tripped while its operation may run was tripped by name. -/
theorem tripped_of_step {s s' : OperationRunner} {event : RunnerEvent} (hConsistent : s.Consistent)
    (hLabelled : s.Labelled) (hStep : s.step event = some s') {queued : QueuedOperation} {phase : Phase}
    (hBusy : s'.worker = .busy queued phase) (hMay : phase.mayRun = true) (hTripped : queued.id ∈ s'.tripped) :
    (∃ before, s.worker = .busy queued before ∧ before.mayRun = true ∧ queued.id ∈ s.tripped) ∨
      event = .trip queued.id := by
  have hApart : s.worker = .busy queued phase → queued.id ∉ s.queue.map QueuedOperation.id := by
    intro hSame hQueued
    have hWaits := (hConsistent.fresh hQueued).2.1 queued phase hSame rfl
    rw [hMay] at hWaits
    cases hWaits
  have hBackground : s.worker = .busy queued phase → queued.id ∉ backgroundIds s.queue := by
    intro hSame hQueued
    obtain ⟨waiting, hMem, hId⟩ := List.mem_map.mp hQueued
    exact hApart hSame (List.mem_map.mpr ⟨waiting, List.mem_of_mem_filter hMem, hId⟩)
  cases event with
  | submit operation =>
    rw [OperationRunner.step] at hStep
    split at hStep
    · cases hStep
    · obtain rfl := Option.some.inj hStep
      have hNew : queued.id ≠ s.nextId :=
        Nat.ne_of_lt (hConsistent.bound _ (hLabelled.known queued phase hBusy))
      simp only [submit, List.mem_append] at hTripped
      rcases hTripped with (hOld | hWaiting) | hOwn
      · exact .inl ⟨phase, hBusy, hMay, hOld⟩
      · split at hWaiting
        · cases hWaiting
        · exact absurd hWaiting (hBackground hBusy)
      · split at hOwn
        · exact absurd (List.mem_singleton.mp hOwn) hNew
        · cases hOwn
  | otherId =>
    obtain rfl := Option.some.inj hStep
    exact .inl ⟨phase, hBusy, hMay, hTripped⟩
  | cancel id =>
    obtain rfl := Option.some.inj hStep
    rcases cancel_trips s id with hEq | ⟨hQueued, hEq⟩
    · rw [hEq] at hBusy hTripped
      exact .inl ⟨phase, hBusy, hMay, hTripped⟩
    · rw [hEq] at hBusy hTripped
      rcases List.mem_append.mp hTripped with hOld | hOwn
      · exact .inl ⟨phase, hBusy, hMay, hOld⟩
      · rw [← List.mem_singleton.mp hOwn] at hQueued
        exact absurd hQueued (hApart hBusy)
  | trip id =>
    obtain rfl := Option.some.inj hStep
    rcases List.mem_append.mp hTripped with hOld | hOwn
    · exact .inl ⟨phase, hBusy, hMay, hOld⟩
    · rw [List.mem_singleton.mp hOwn]
      exact .inr rfl
  | prepareForShutdown =>
    obtain rfl := Option.some.inj hStep
    rcases List.mem_append.mp hTripped with hOld | hWaiting
    · exact .inl ⟨phase, hBusy, hMay, hOld⟩
    · exact absurd hWaiting (hBackground hBusy)
  | stop =>
    obtain rfl := Option.some.inj hStep
    exact .inl ⟨phase, hBusy, hMay, hTripped⟩
  | worker action => exact .inl (tripped_of_works (works_of_work hStep) hBusy hMay hTripped)

end OperationRunner

namespace CancellableSession

open OperationRunner

/-- `cancel` copies out sources of operations that may be killed only. -/
structure Spared (s : CancellableSession) : Prop where
  consistent : s.operations.Consistent
  labelled : s.operations.Labelled
  running : ∀ id ∈ s.running, ∃ operation,
    (id, operation) ∈ submissions s.operations.log ∧ operation.killableMidFlight = true
  tripped : ∀ queued phase, s.operations.worker = .busy queued phase → phase.mayRun = true →
    queued.operation.killableMidFlight = false → queued.id ∈ s.operations.tripped → queued.id ∈ s.targets

theorem spared_start (first : Nat) : Spared { operations := { nextId := first } } where
  consistent := consistent_start first
  labelled := labelled_start first
  running _ h := absurd h List.not_mem_nil
  tripped _ _ hBusy := absurd hBusy (by simp)

theorem killable_of_copied {operations : OperationRunner} {id : Nat} (h : operations.Labelled)
    (hCopied : copiesRunning operations id = true) :
    ∃ operation, (id, operation) ∈ submissions operations.log ∧ operation.killableMidFlight = true := by
  rw [copiesRunning, Bool.and_eq_true, Bool.not_eq_true', beq_iff_eq] at hCopied
  obtain ⟨hQueue, hAnswer⟩ := hCopied
  rw [cancel, if_neg (Bool.eq_false_iff.mp hQueue)] at hAnswer
  split at hAnswer
  · cases hAnswer
  · rename_i hRunning
    rw [not_or, not_not] at hRunning
    split at hAnswer
    · cases hAnswer
    · rename_i hKillable
      rw [Bool.not_eq_true', Bool.not_eq_false] at hKillable
      obtain ⟨queued, phase, hBusy⟩ : ∃ queued phase, operations.worker = .busy queued phase := by
        by_contra hFree
        rw [h.idle fun queued phase hBusy => hFree ⟨queued, phase, hBusy⟩] at hKillable
        cases hKillable
      rw [hRunning.2, h.id queued phase hBusy]
      exact ⟨queued.operation, h.known queued phase hBusy, h.killable queued phase hBusy hKillable⟩

/-- A step of the queue that trips no copied source of an operation that must not be killed. -/
theorem Spared.queue {s : CancellableSession} (h : s.Spared) {event : RunnerEvent} {operations : OperationRunner}
    (hStep : s.operations.step event = some operations)
    (hTrip : ∀ queued phase, s.operations.worker = .busy queued phase →
      queued.operation.killableMidFlight = false → event = .trip queued.id → queued.id ∈ s.targets)
    (inFlight : List Nat) : Spared { s with operations, inFlight } := by
  refine ⟨h.consistent.step hStep, h.labelled.step h.consistent hStep, ?_, ?_⟩
  · intro id hId
    obtain ⟨operation, hKnown, hMay⟩ := h.running id hId
    exact ⟨operation, submissions_of_step hStep hKnown, hMay⟩
  · intro queued phase hBusy hMay hKept hTripped
    rcases tripped_of_step h.consistent h.labelled hStep hBusy hMay hTripped with ⟨before, hWas, hBefore, hOld⟩ | hName
    · exact h.tripped queued before hWas hBefore hKept hOld
    · subst hName
      obtain rfl := Option.some.inj hStep
      exact hTrip queued phase hBusy hKept rfl

theorem Spared.step {s s' : CancellableSession} {event : CancellableEvent} (h : s.Spared)
    (hStep : s.step event = some s') : s'.Spared := by
  cases event with
  | submitOperation operation =>
    obtain ⟨operations, hNext, rfl⟩ := Option.map_eq_some_iff.mp hStep
    exact h.queue hNext (fun _ _ _ _ hName => absurd hName (by simp)) _
  | submit operation =>
    obtain ⟨operations, hNext, rfl⟩ := Option.map_eq_some_iff.mp hStep
    exact h.queue hNext (fun _ _ _ _ hName => absurd hName (by simp)) _
  | otherId =>
    rw [CancellableSession.step] at hStep
    obtain ⟨operations, hNext, rfl⟩ := Option.map_eq_some_iff.mp hStep
    exact h.queue hNext (fun _ _ _ _ hName => absurd hName (by simp)) _
  | cancelOperation id =>
    rw [CancellableSession.step] at hStep
    split at hStep
    · obtain rfl := Option.some.inj hStep
      refine ⟨h.consistent, h.labelled, h.running, fun queued phase hBusy hMay hKept hTripped => ?_⟩
      exact List.mem_append_left _ (h.tripped queued phase hBusy hMay hKept hTripped)
    · obtain ⟨operations, hNext, rfl⟩ := Option.map_eq_some_iff.mp hStep
      have hQueue := h.queue hNext (fun _ _ _ _ hName => absurd hName (by simp)) s.inFlight
      refine ⟨hQueue.consistent, hQueue.labelled, fun other hOther => ?_, hQueue.tripped⟩
      dsimp only at hOther
      split at hOther
      · rename_i hCopied
        rcases List.mem_append.mp hOther with hOld | hOwn
        · exact hQueue.running other hOld
        · obtain ⟨operation, hKnown, hMay⟩ := killable_of_copied h.labelled hCopied
          rw [List.mem_singleton.mp hOwn]
          exact ⟨operation, submissions_of_step hNext hKnown, hMay⟩
      · exact hQueue.running other hOther
  | cancelTarget id =>
    rw [CancellableSession.step] at hStep
    split at hStep
    · rename_i hTarget
      obtain ⟨operations, hNext, rfl⟩ := Option.map_eq_some_iff.mp hStep
      refine h.queue hNext (fun queued _ _ _ hName => ?_) _
      injection hName with hName
      exact hName ▸ hTarget
    · cases hStep
  | cancelRunning id =>
    rw [CancellableSession.step] at hStep
    split at hStep
    · rename_i hRunning
      obtain ⟨operations, hNext, rfl⟩ := Option.map_eq_some_iff.mp hStep
      refine h.queue hNext (fun queued phase hBusy hKept hName => ?_) _
      injection hName with hName
      subst hName
      obtain ⟨operation, hKnown, hMay⟩ := h.running _ hRunning
      rw [h.consistent.unique hKnown (h.labelled.known queued phase hBusy), hKept] at hMay
      cases hMay
    · cases hStep
  | prepareForShutdown =>
    rw [CancellableSession.step] at hStep
    obtain ⟨operations, hNext, rfl⟩ := Option.map_eq_some_iff.mp hStep
    exact h.queue hNext (fun _ _ _ _ hName => absurd hName (by simp)) _
  | stop =>
    rw [CancellableSession.step] at hStep
    obtain ⟨operations, hNext, rfl⟩ := Option.map_eq_some_iff.mp hStep
    exact h.queue hNext (fun _ _ _ _ hName => absurd hName (by simp)) _
  | worker action =>
    obtain ⟨operations, hNext, rfl⟩ := Option.map_eq_some_iff.mp hStep
    exact h.queue hNext (fun _ _ _ _ hName => absurd hName (by simp)) _

/-- The sources that cancelling everything copies out are those registered then. -/
theorem targets_of_step {s s' : CancellableSession} {event : CancellableEvent} (hStep : s.step event = some s')
    {id : Nat} (hBefore : id ∉ s.targets) (hAfter : id ∈ s'.targets) :
    event = .cancelOperation 0 ∧ id ∈ s.inFlight := by
  cases event with
  | cancelOperation other =>
    rw [CancellableSession.step] at hStep
    split at hStep
    · rename_i hAll
      obtain rfl := Option.some.inj hStep
      exact ⟨congrArg _ hAll, (List.mem_append.mp hAfter).resolve_left hBefore⟩
    · obtain ⟨operations, -, rfl⟩ := Option.map_eq_some_iff.mp hStep
      exact absurd hAfter hBefore
  | cancelTarget _ | cancelRunning _ =>
    rw [CancellableSession.step] at hStep
    split at hStep
    · obtain ⟨operations, -, rfl⟩ := Option.map_eq_some_iff.mp hStep
      exact absurd hAfter hBefore
    · cases hStep
  | submitOperation _ | submit _ | otherId | prepareForShutdown | stop | worker _ =>
    rw [CancellableSession.step] at hStep
    obtain ⟨operations, -, rfl⟩ := Option.map_eq_some_iff.mp hStep
    exact absurd hAfter hBefore

/-- Cancelling everything copied the source out while the session still waited for the operation. -/
theorem interrupted_by_cancel_all {first : Nat} {events : List CancellableEvent} {s : CancellableSession}
    (hRun : Run step (fun _ _ => True) { operations := { nextId := first } } events s) {queued : QueuedOperation}
    {retries : Nat} (hRunning : s.operations.worker = .busy queued (.running retries))
    (hKept : queued.operation.killableMidFlight = false) (hTripped : queued.id ∈ s.operations.tripped) :
    ∃ before after m, events = before ++ .cancelOperation 0 :: after ∧
      Run step (fun _ _ => True) { operations := { nextId := first } } before m ∧ queued.id ∈ m.inFlight := by
  have hSpared : s.Spared := hRun.invariant (spared_start first) fun _ _ _ h _ hStep => h.step hStep
  have hTarget := hSpared.tripped queued _ hRunning rfl hKept hTripped
  obtain ⟨before, event, after, m, m', rfl, hBefore, hStep, hNot, hIs⟩ :=
    hRun.exists_turn (P := fun m => queued.id ∈ m.targets) List.not_mem_nil hTarget
  obtain ⟨rfl, hRegistered⟩ := targets_of_step hStep hNot hIs
  exact ⟨before, after, m, rfl, hBefore, hRegistered⟩

/-- A merge that runs, and a session that is closed. -/
def mergeThenClose : List CancellableEvent :=
  [.submitOperation { describe := ascii "Merge main" }, .worker .pop, .worker .mark, .worker .check,
    .worker (.preflight {}), .worker .begin, .prepareForShutdown, .cancelOperation 0, .cancelTarget 1]

def interruptedMerge : CancellableSession where
  operations :=
    { worker := .busy { id := 1, operation := { describe := ascii "Merge main" } } (.running kLockRetries)
      runningId := 1
      runningDescription := ascii "Merge main"
      preparingForShutdown := true
      nextId := 2
      tripped := [1]
      log := [.submitted 1 { describe := ascii "Merge main" }, .began 1] }
  inFlight := [1]
  targets := [1]

theorem run_mergeThenClose : mergeThenClose.foldlM step {} = some interruptedMerge := by decide

theorem interrupted_by_cancel_all_mergeThenClose : ∃ before after m,
    mergeThenClose = before ++ .cancelOperation 0 :: after ∧
      Run step (fun _ _ => True) { operations := { nextId := 1 } } before m ∧ 1 ∈ m.inFlight :=
  @interrupted_by_cancel_all 1 mergeThenClose interruptedMerge (.of_foldlM run_mergeThenClose)
    { id := 1, operation := { describe := ascii "Merge main" } } kLockRetries rfl rfl (by decide)

theorem running_merge_interrupted : ¬ ∀ (events : List CancellableEvent) (s : CancellableSession),
    Run step (fun _ _ => True) {} events s → ∀ queued retries,
      s.operations.worker = .busy queued (.running retries) → queued.operation.killableMidFlight = false →
      queued.id ∉ s.operations.tripped := by
  intro h
  exact h mergeThenClose interruptedMerge (.of_foldlM run_mergeThenClose)
    { id := 1, operation := { describe := ascii "Merge main" } } kLockRetries rfl rfl (by decide)

end CancellableSession

end GitBranchManager
