import GitBranchManager.Operations.WorkerSteps

/-! # Every operation is completed exactly once, in order -/

namespace GitBranchManager

open Library

/-- How many steps the worker can still make for the operation it holds. -/
def Phase.stepsLeft : Phase → Nat
  | .popped => 12
  | .marked => 11
  | .preflight => 10
  | .cleared => 9
  | .running retries => 4 + 2 * retries
  | .waiting retries => 5 + 2 * retries
  | .finished _ => 3
  | .thrown => 2
  | .delivered => 1

namespace OperationRunner

def workerStepsLeft : Worker → Nat
  | .busy _ phase => phase.stepsLeft
  | _ => 0

/-- The place of an operation in the queue, from 1; 0 when it is not queued. -/
def place (queue : List QueuedOperation) (id : Nat) : Nat :=
  if id ∈ queue.map QueuedOperation.id then (queue.map QueuedOperation.id).idxOf id + 1 else 0

/-- A bound on the worker's steps until the operation is completed. -/
def stepsUntil (s : OperationRunner) (id : Nat) : Nat :=
  workerStepsLeft s.worker + 13 * place s.queue id

theorem place_append {queue : List QueuedOperation} {id : Nat} (new : QueuedOperation)
    (hNew : new.id ≠ id) : place (queue ++ [new]) id = place queue id := by
  rw [place, place, List.map_append]
  by_cases hMem : id ∈ queue.map QueuedOperation.id
  · rw [if_pos (List.mem_append_left _ hMem), if_pos hMem, List.idxOf_append_of_mem hMem]
  · rw [if_neg hMem, if_neg]
    rw [List.mem_append, not_or]
    exact ⟨hMem, by simpa using hNew.symm⟩

theorem place_cons_self {queued : QueuedOperation} {queue : List QueuedOperation} {id : Nat}
    (hId : queued.id = id) : place (queued :: queue) id = 1 := by
  rw [place, List.map_cons, hId, if_pos List.mem_cons_self, List.idxOf_cons_self]

theorem place_cons_ne {queued : QueuedOperation} {queue : List QueuedOperation} {id : Nat}
    (hId : queued.id ≠ id) (hMem : id ∈ queue.map QueuedOperation.id) :
    place (queued :: queue) id = place queue id + 1 := by
  rw [place, place, List.map_cons, if_pos (List.mem_cons_of_mem _ hMem), if_pos hMem,
    List.idxOf_cons_ne _ hId]

theorem Moves.stepsLeft {s : OperationRunner} {queued : QueuedOperation} {phase next : Phase}
    (h : Moves s queued phase next) : next.stepsLeft < phase.stepsLeft := by
  cases h <;> simp only [Phase.stepsLeft] <;> omega

/-- An operation that is submitted and not completed is in the worker's hands or queued. -/
def Outstanding (s : OperationRunner) (id : Nat) : Prop :=
  id ∈ (inFlight s.worker ++ s.queue.map QueuedOperation.entry).map Prod.fst

theorem mem_queue_ids {queue : List QueuedOperation} {id : Nat} :
    id ∈ (queue.map QueuedOperation.entry).map Prod.fst ↔ id ∈ queue.map QueuedOperation.id := by
  rw [List.map_map]
  rfl

theorem Consistent.nodup {s : OperationRunner} (h : s.Consistent) :
    ((submissions s.log).map Prod.fst).Nodup :=
  h.ids.imp fun hLt => hLt.ne

theorem Consistent.nodup_queue {s : OperationRunner} (h : s.Consistent) :
    (s.queue.map QueuedOperation.id).Nodup := by
  have hAll := h.nodup
  rw [h.order, List.map_append, List.map_append, List.map_map] at hAll
  exact (hAll.of_append_right).of_append_right

/-- Every step of the worker brings an outstanding operation nearer to its completion. -/
theorem stepsUntil_work {s s' : OperationRunner} (h : s.Consistent) (hWorks : Works s s') {id : Nat}
    (hOut : s'.Outstanding id) : s'.stepsUntil id < s.stepsUntil id := by
  cases hWorks with
  | pop queued queue hIdle hQueue =>
    have hDone : queued.onDone = true := h.queued queued (hQueue ▸ List.mem_cons_self)
    rw [stepsUntil, stepsUntil, hIdle, hQueue]
    simp only [workerStepsLeft, Phase.stepsLeft]
    by_cases hId : queued.id = id
    · have hGone : place queue id = 0 := if_neg fun hMem => by
        have hNodup := h.nodup_queue
        rw [hQueue, List.map_cons, hId] at hNodup
        exact (List.nodup_cons.mp hNodup).1 hMem
      rw [place_cons_self hId, hGone]
      omega
    · have hMem : id ∈ queue.map QueuedOperation.id := by
        rw [Outstanding, List.map_append, List.mem_append, mem_queue_ids, inFlight, hDone, if_pos rfl,
          List.map_singleton, List.mem_singleton] at hOut
        exact hOut.resolve_left fun he => hId he.symm
      rw [place_cons_ne hId hMem]
      omega
  | move queued phase next killable description hBusy hMove =>
    have hLess := hMove.stepsLeft
    rw [stepsUntil, stepsUntil, hBusy]
    simp only [workerStepsLeft]
    omega
  | began queued phase retries hBusy hPhase =>
    rw [stepsUntil, stepsUntil, hBusy]
    rcases hPhase with ⟨rfl, rfl⟩ | rfl
    · simp only [workerStepsLeft, Phase.stepsLeft, kLockRetries]
      omega
    · simp only [workerStepsLeft, Phase.stepsLeft]
      omega
  | ended queued retries next hBusy hNext =>
    rw [stepsUntil, stepsUntil, hBusy]
    rcases hNext with ⟨left, rfl, rfl⟩ | ⟨outcome, rfl⟩
    · simp only [workerStepsLeft, Phase.stepsLeft]
      omega
    · simp only [workerStepsLeft, Phase.stepsLeft]
      omega
  | delivered queued phase next outcome hBusy hPhase =>
    rw [stepsUntil, stepsUntil, hBusy, deliver]
    rcases hPhase with ⟨⟨o, rfl⟩, rfl | rfl⟩ | ⟨rfl, -, rfl⟩
    · simp only [workerStepsLeft, Phase.stepsLeft]
      omega
    · simp only [workerStepsLeft, Phase.stepsLeft]
      omega
    · simp only [workerStepsLeft, Phase.stepsLeft]
      omega
  | skipped queued hBusy hDone =>
    rw [stepsUntil, stepsUntil, hBusy]
    simp only [workerStepsLeft, Phase.stepsLeft]
    omega
  | released queued hBusy =>
    rw [stepsUntil, stepsUntil, hBusy]
    simp only [workerStepsLeft, Phase.stepsLeft]
    omega
  | exited hIdle hQueue hStop =>
    rw [Outstanding, hQueue] at hOut
    exact absurd hOut List.not_mem_nil

theorem Works.log {s s' : OperationRunner} (h : Works s s') : s.log <+: s'.log := by
  cases h with
  | began | ended | delivered => exact List.prefix_append _ _
  | pop | move | skipped | released | exited => exact List.prefix_refl _

theorem log_step {s s' : OperationRunner} {event : RunnerEvent} (h : s.step event = some s') :
    s.log <+: s'.log := by
  cases event with
  | submit operation =>
    rw [step] at h
    split at h
    · cases h
    · exact Option.some.inj h ▸ List.prefix_append _ _
  | otherId => exact Option.some.inj h ▸ List.prefix_refl _
  | cancel id =>
    obtain rfl := Option.some.inj h
    rcases cancel_cases s id with hEq | hEq
    · rw [hEq]
    · rw [hEq]
      exact List.prefix_refl _
  | trip id => exact Option.some.inj h ▸ List.prefix_refl _
  | prepareForShutdown => exact Option.some.inj h ▸ List.prefix_refl _
  | stop => exact Option.some.inj h ▸ List.prefix_refl _
  | worker action => exact (works_of_work h).log

theorem stepsUntil_other {s s' : OperationRunner} {event : RunnerEvent}
    (hStep : s.step event = some s') (hEvent : isWorker event = false) {id : Nat}
    (hId : id < s.nextId) : s'.stepsUntil id = s.stepsUntil id := by
  cases event with
  | submit operation =>
    rw [step] at hStep
    split at hStep
    · cases hStep
    · obtain rfl := Option.some.inj hStep
      have hPlace : place (s.submit operation).2.queue id = place s.queue id := place_append _ hId.ne'
      rw [stepsUntil, hPlace]
      rfl
  | otherId => exact Option.some.inj hStep ▸ rfl
  | cancel id =>
    obtain rfl := Option.some.inj hStep
    rcases cancel_cases s id with hEq | hEq
    · rw [hEq]
    · rw [hEq]
      rfl
  | trip id => exact Option.some.inj hStep ▸ rfl
  | prepareForShutdown => exact Option.some.inj hStep ▸ rfl
  | stop => exact Option.some.inj hStep ▸ rfl
  | worker action => cases hEvent

theorem Consistent.outstanding {s : OperationRunner} (h : s.Consistent) {entry : Nat × Operation}
    (hEntry : entry ∈ submissions s.log) (hNot : entry ∉ completions s.log) : s.Outstanding entry.1 := by
  rw [h.order, List.mem_append] at hEntry
  exact List.mem_map_of_mem (hEntry.resolve_left hNot)

/-- What holds all along a run that started consistent. -/
theorem Consistent.run {s s' : OperationRunner} {events : List RunnerEvent} (h : s.Consistent)
    (hRun : Run OperationRunner.step (fun _ _ => True) s events s') : s'.Consistent ∧ s.log <+: s'.log :=
  hRun.invariant (P := fun m => m.Consistent ∧ s.log <+: m.log) ⟨h, List.prefix_refl _⟩
    fun _ _ _ hm _ hStep => ⟨hm.1.step hStep, hm.2.trans (log_step hStep)⟩

/-- Whatever the callers do in between, the worker's steps use the bound up. -/
theorem stepsUntil_run {s s' : OperationRunner} {events : List RunnerEvent} (h : s.Consistent)
    (hRun : Run step (fun _ _ => True) s events s') {entry : Nat × Operation}
    (hEntry : entry ∈ submissions s.log) (hNot : entry ∉ completions s'.log) :
    s'.stepsUntil entry.1 + events.countP isWorker ≤ s.stepsUntil entry.1 := by
  induction hRun with
  | start => simp
  | @next m s' events event hBefore _ hStep ih =>
    obtain ⟨hMiddle, hLog⟩ := h.run hBefore
    have hSubmitted := (hLog.filterMap _).subset hEntry
    have hNotBefore := fun hMem => hNot (((log_step hStep).filterMap _).subset hMem)
    have hBound := ih hNotBefore
    rw [List.countP_append, List.countP_singleton]
    cases hEvent : isWorker event with
    | false =>
      rw [stepsUntil_other hStep hEvent (hMiddle.bound entry hSubmitted)]
      simpa using hBound
    | true =>
      obtain ⟨action, rfl⟩ : ∃ action, event = .worker action := by
        cases event with
        | worker action => exact ⟨action, rfl⟩
        | _ => cases hEvent
      have hAfter := hMiddle.step hStep
      have hOut := hAfter.outstanding (((log_step hStep).filterMap _).subset hSubmitted) hNot
      have hLess := stepsUntil_work hMiddle (works_of_work hStep) hOut
      simp only [if_true]
      omega

/-- While an operation is outstanding the worker can make a step. -/
theorem Consistent.progress {s : OperationRunner} (h : s.Consistent) {id : Nat}
    (hOut : s.Outstanding id) : ∃ action, (s.step (.worker action)).isSome = true := by
  cases hWorker : s.worker with
  | idle =>
    cases hQueue : s.queue with
    | nil =>
      rw [Outstanding, hWorker, hQueue] at hOut
      exact absurd hOut List.not_mem_nil
    | cons queued queue => exact ⟨.pop, by simp [OperationRunner.step, OperationRunner.work, hWorker, hQueue]⟩
  | exited =>
    rw [Outstanding, hWorker, (h.exited hWorker).2] at hOut
    exact absurd hOut List.not_mem_nil
  | busy queued phase =>
    cases phase with
    | popped => exact ⟨.mark, by simp [OperationRunner.step, OperationRunner.work, hWorker]⟩
    | marked => exact ⟨.check, by simp [OperationRunner.step, OperationRunner.work, hWorker]⟩
    | preflight => exact ⟨.preflight {}, by simp [OperationRunner.step, OperationRunner.work, hWorker]⟩
    | cleared => exact ⟨.begin, by simp [OperationRunner.step, OperationRunner.work, hWorker]⟩
    | running retries => exact ⟨.finishRun none, by simp [OperationRunner.step, OperationRunner.work, hWorker]⟩
    | waiting retries => exact ⟨.rerun, by simp [OperationRunner.step, OperationRunner.work, hWorker]⟩
    | finished outcome => exact ⟨.deliver false, by simp [OperationRunner.step, OperationRunner.work, hWorker]⟩
    | thrown =>
      refine ⟨.failUndelivered false false, ?_⟩
      simp only [OperationRunner.step, OperationRunner.work, hWorker]
      split
      · rfl
      · rfl
    | delivered => exact ⟨.release, by simp [OperationRunner.step, OperationRunner.work, hWorker]⟩

theorem length_runningIds (worker : Worker) : (runningIds worker).length ≤ 1 := by
  unfold runningIds
  split
  · exact Nat.le_refl 1
  · exact Nat.zero_le 1

def isForeground (entry : Nat × Operation) : Bool := !entry.2.isBackground

/-- In every state of every interleaving: the completions are those of the first submissions, in
their order and each once; an operation that is not completed gets its turn within a number of
the worker's steps, which the worker can always make; and at most one `run` is active. -/
theorem completed_exactly_once_in_order {first : Nat} {events : List RunnerEvent} {s : OperationRunner}
    (hRun : Run step (fun _ _ => True) { nextId := first } events s) :
    ((submissions s.log).map Prod.fst).Nodup ∧
    completions s.log <+: submissions s.log ∧
    (completions s.log).filter isForeground <+: (submissions s.log).filter isForeground ∧
    (∀ entry ∈ submissions s.log, entry ∉ completions s.log →
      ∃ action, (s.step (.worker action)).isSome = true) ∧
    (∀ entry ∈ submissions s.log, ∀ events' s', Run step (fun _ _ => True) s events' s' →
      s.stepsUntil entry.1 < events'.countP isWorker → entry ∈ completions s'.log) ∧
    (activeRuns s.log).length ≤ 1 := by
  have h := consistent_run hRun
  have hPrefix : completions s.log <+: submissions s.log := by
    rw [h.order]
    exact List.prefix_append _ _
  refine ⟨h.nodup, hPrefix, hPrefix.filter _, ?_, ?_, ?_⟩
  · exact fun entry hEntry hNot => h.progress (h.outstanding hEntry hNot)
  · intro entry hEntry events' s' hRun' hSteps
    refine Decidable.byContradiction fun hNot => ?_
    have hBound := stepsUntil_run h hRun' hEntry hNot
    omega
  · rw [h.active]
    exact length_runningIds s.worker

/-- A background fetch and a commit are submitted; the commit trips the fetch and then fails. -/
def fetchThenCommit : List RunnerEvent :=
  [.submit { describe := ascii "Fetch", isBackground := true },
    .submit { describe := ascii "Commit", kind := ascii "commit" },
    .worker .pop, .worker .mark, .worker .check, .worker (.deliver false), .worker .release,
    .worker .pop, .worker .mark, .worker .check, .worker (.preflight {}), .worker .begin,
    .worker (.finishRun none)]

theorem completed_exactly_once_in_order_fetch : ∃ s, fetchThenCommit.foldlM step {} = some s ∧
    completions s.log <+: submissions s.log ∧ (activeRuns s.log).length ≤ 1 := by
  obtain ⟨s, hs⟩ : ∃ s, fetchThenCommit.foldlM step {} = some s :=
    Option.isSome_iff_exists.mp (by decide +kernel)
  have h := @completed_exactly_once_in_order 1 fetchThenCommit s (.of_foldlM hs)
  exact ⟨s, hs, h.2.1, h.2.2.2.2.2⟩

end OperationRunner

end GitBranchManager
