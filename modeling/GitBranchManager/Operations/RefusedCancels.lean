import GitBranchManager.Operations.CancelRoutes
import GitBranchManager.Operations.ExactlyOnce

/-! # What a refused cancel says

The worker names the operation it popped in one critical section, and records whether it may be
killed and what it does in a later one. A cancel that comes between the two is answered from
what an earlier operation left.
-/

namespace GitBranchManager

open Library

namespace OperationRunner

def nowRecorded (known : Bool) : RunnerEvent → Bool
  | .worker .pop => false
  | .worker .mark => true
  | _ => known

/-- Whether the operation that was popped last has had its killability and its description
recorded. -/
def recorded (events : List RunnerEvent) : Bool := events.foldl nowRecorded true

/-- A cancel of `id` that is refused is refused for what the operation is, and names it. -/
def RefusedRightly (s : OperationRunner) (id : Nat) : Prop :=
  (s.cancel id).1 = .notCancellable →
    ∃ queued phase, s.worker = .busy queued phase ∧ queued.id = id ∧
      queued.operation.killableMidFlight = false ∧ (s.cancel id).2.1 = some queued.operation.describe

/-- What was left from before is true of the operation `id` in the worker's hands. -/
def LeftRight (s : OperationRunner) (id : Nat) : Prop :=
  ∀ queued phase, s.worker = .busy queued phase → queued.id = id → s.runningKillable = false →
    queued.operation.killableMidFlight = false ∧ s.runningDescription = queued.operation.describe

/-- Once recorded, the killability and the description are those of the operation in the worker's
hands, which came before every operation that is queued. -/
structure Recorded (known : Bool) (s : OperationRunner) : Prop where
  label : known = true → ∀ queued phase, s.worker = .busy queued phase →
    phase ≠ .popped ∧ s.runningKillable = queued.operation.killableMidFlight ∧
      s.runningDescription = queued.operation.describe
  free : (∀ queued phase, s.worker ≠ .busy queued phase) → s.runningId = 0
  ahead : ∀ queued phase, s.worker = .busy queued phase → ∀ waiting ∈ s.queue, queued.id < waiting.id
  positive : ∀ entry ∈ submissions s.log, 0 < entry.1
  next : 0 < s.nextId

theorem recorded_append (events : List RunnerEvent) (event : RunnerEvent) :
    recorded (events ++ [event]) = nowRecorded (recorded events) event := by
  rw [recorded, List.foldl_append]
  rfl

theorem recorded_start {first : Nat} (hFirst : 0 < first) : Recorded true { nextId := first } where
  label _ _ _ hBusy := absurd hBusy (by simp)
  free _ := rfl
  ahead _ _ hBusy := absurd hBusy (by simp)
  positive _ hEntry := absurd hEntry List.not_mem_nil
  next := hFirst

/-- Only the head of the queue gets into the worker's hands. -/
theorem queue_of_works {s s' : OperationRunner} (h : Works s s') {queued : QueuedOperation} {phase : Phase}
    (hBusy : s'.worker = .busy queued phase) :
    s.queue = queued :: s'.queue ∨
      s'.queue = s.queue ∧ ∃ held before, s.worker = .busy held before ∧ held.id = queued.id := by
  cases h with
  | pop head queue hIdle hQueue =>
    injection hBusy with hHead
    exact .inl (hHead ▸ hQueue)
  | move held before next killable description hHeld hMove =>
    injection hBusy with hHead
    exact .inr ⟨rfl, held, before, hHeld, hHead ▸ rfl⟩
  | began held before retries hHeld hPhase =>
    injection hBusy with hHead
    exact .inr ⟨rfl, held, before, hHeld, hHead ▸ rfl⟩
  | ended held retries next hHeld hNext =>
    injection hBusy with hHead
    exact .inr ⟨rfl, held, _, hHeld, hHead ▸ rfl⟩
  | delivered held before next outcome hHeld hPhase =>
    injection hBusy with hHead
    exact .inr ⟨rfl, held, before, hHeld, hHead ▸ rfl⟩
  | skipped held hHeld hDone =>
    injection hBusy with hHead
    exact .inr ⟨rfl, held, _, hHeld, hHead ▸ rfl⟩
  | released held hHeld => cases hBusy
  | exited hIdle hQueue hStop => cases hBusy

/-- A worker with nothing in hand gets something by popping it. -/
theorem pop_of_idle {s s' : OperationRunner} {action : WorkerAction} (h : s.work action = some s')
    (hIdle : s.worker = .idle) {queued : QueuedOperation} {phase : Phase} (hBusy : s'.worker = .busy queued phase) :
    action = .pop := by
  cases action with
  | pop => rfl
  | exit =>
    rw [work] at h
    split at h
    · split at h
      · obtain rfl := Option.some.inj h
        cases hBusy
      · cases h
    · cases h
  | _ => simp [work, hIdle] at h

/-- A step of the worker other than a pop leaves what was recorded as it was, unless it meets an
operation that is popped and not marked. -/
theorem label_of_work {s s' : OperationRunner} {action : WorkerAction} (h : s.work action = some s')
    (hPop : action ≠ .pop) {queued : QueuedOperation} {phase : Phase} (hBusy : s'.worker = .busy queued phase) :
    ∃ held before, s.worker = .busy held before ∧ held.operation = queued.operation ∧
      (before = .popped ∨
        phase ≠ .popped ∧ s'.runningKillable = s.runningKillable ∧
          s'.runningDescription = s.runningDescription) := by
  have hFlags : ∀ held before, s.worker = .busy held before → before = .popped ∨
      s'.runningKillable = s.runningKillable ∧ s'.runningDescription = s.runningDescription := by
    intro held before hHeld
    obtain hSame | ⟨hIdle, -⟩ | ⟨marked, hPopped, -⟩ := flags_of_work h
    · exact .inr hSame
    · cases hIdle.symm.trans hBusy
    · rw [hHeld] at hPopped
      injection hPopped with _ hBefore
      exact .inl hBefore
  cases works_of_work h with
  | pop head queue hIdle hQueue => exact absurd (pop_of_idle h hIdle hBusy) hPop
  | move held before next killable description hHeld hMove =>
    injection hBusy with hSame hPhase
    subst hSame hPhase
    have hNext : next ≠ .popped := by cases hMove <;> exact Phase.noConfusion
    exact ⟨held, before, hHeld, rfl, (hFlags held before hHeld).imp_right fun hKept => ⟨hNext, hKept⟩⟩
  | began held before retries hHeld hPhase =>
    injection hBusy with hSame hPhase
    subst hSame hPhase
    exact ⟨held, before, hHeld, rfl, .inr ⟨Phase.noConfusion, rfl, rfl⟩⟩
  | ended held retries next hHeld hNext =>
    injection hBusy with hSame hPhase
    subst hSame hPhase
    obtain ⟨left, -, rfl⟩ | ⟨outcome, rfl⟩ := hNext
    · exact ⟨held, _, hHeld, rfl, .inr ⟨Phase.noConfusion, rfl, rfl⟩⟩
    · exact ⟨held, _, hHeld, rfl, .inr ⟨Phase.noConfusion, rfl, rfl⟩⟩
  | delivered held before next outcome hHeld hPhase =>
    injection hBusy with hSame hNext
    subst hSame hNext
    obtain ⟨-, rfl | rfl⟩ | ⟨-, -, rfl⟩ := hPhase
    · exact ⟨held, before, hHeld, rfl, .inr ⟨Phase.noConfusion, rfl, rfl⟩⟩
    · exact ⟨held, before, hHeld, rfl, .inr ⟨Phase.noConfusion, rfl, rfl⟩⟩
    · exact ⟨held, before, hHeld, rfl, .inr ⟨Phase.noConfusion, rfl, rfl⟩⟩
  | skipped held hHeld hDone =>
    injection hBusy with hSame hPhase
    subst hSame hPhase
    exact ⟨held, _, hHeld, rfl, .inr ⟨Phase.noConfusion, rfl, rfl⟩⟩
  | released | exited => cases hBusy

theorem Consistent.head_ahead {s : OperationRunner} (h : s.Consistent) {queued : QueuedOperation}
    {queue : List QueuedOperation} (hQueue : s.queue = queued :: queue) :
    ∀ waiting ∈ queue, queued.id < waiting.id := by
  have hIds := h.ids
  rw [h.order, hQueue, List.map_append, List.map_append, List.map_map] at hIds
  have hTail := (List.pairwise_append.mp (List.pairwise_append.mp hIds).2.1).2.1
  rw [List.map_cons] at hTail
  intro waiting hWaiting
  exact (List.pairwise_cons.mp hTail).1 _ (List.mem_map_of_mem hWaiting)

theorem Recorded.work {known : Bool} {s s' : OperationRunner} {action : WorkerAction} (h : Recorded known s)
    (hConsistent : s.Consistent) (hWork : s.work action = some s') :
    Recorded (nowRecorded known (.worker action)) s' := by
  have hWorks := works_of_work hWork
  constructor
  · intro hKnown queued phase hBusy
    by_cases hMark : action = .mark
    · subst hMark
      rw [OperationRunner.work] at hWork
      split at hWork
      next held hHeld =>
        obtain rfl := Option.some.inj hWork
        injection hBusy with hSame hPhase
        subst hSame hPhase
        exact ⟨Phase.noConfusion, rfl, rfl⟩
      next => cases hWork
    · have hPop : action ≠ .pop := by
        rintro rfl
        cases hKnown
      have hBefore : known = true := by
        cases action <;> first | exact hKnown | contradiction
      obtain ⟨held, before, hHeld, hOperation, hSame⟩ := label_of_work hWork hPop hBusy
      obtain ⟨hMarked, hKillable, hDescription⟩ := h.label hBefore held before hHeld
      obtain ⟨hPhase, hKill, hDescribe⟩ := hSame.resolve_left hMarked
      rw [hKill, hDescribe, ← hOperation]
      exact ⟨hPhase, hKillable, hDescription⟩
  · intro hFree
    cases hWorks with
    | released held hHeld => rfl
    | exited hIdle hQueue hStop => exact h.free fun _ _ hBusy => absurd (hIdle.symm.trans hBusy) (by simp)
    | pop | move | began | ended | delivered | skipped => exact absurd rfl (hFree _ _)
  · intro queued phase hBusy
    rcases queue_of_works hWorks hBusy with hQueue | ⟨hQueue, held, before, hHeld, hId⟩
    · exact hConsistent.head_ahead hQueue
    · rw [hQueue, ← hId]
      exact h.ahead held before hHeld
  · rw [submissions_of_works hWorks]
    exact h.positive
  · have hNext : s.nextId ≤ s'.nextId := @nextId_of_step s s' (.worker action) hWork
    exact h.next.trans_le hNext

theorem Recorded.step {known : Bool} {s s' : OperationRunner} {event : RunnerEvent} (h : Recorded known s)
    (hConsistent : s.Consistent) (hLabelled : s.Labelled) (hStep : s.step event = some s') :
    Recorded (nowRecorded known event) s' := by
  cases event with
  | submit operation =>
    obtain rfl := submit_of_step hStep
    refine ⟨h.label, h.free, fun queued phase hBusy waiting hWaiting => ?_, ?_, Nat.succ_pos _⟩
    · rcases List.mem_append.mp hWaiting with hOld | hNew
      · exact h.ahead queued phase hBusy waiting hOld
      · rw [List.mem_singleton.mp hNew]
        exact hConsistent.bound _ (hLabelled.known queued phase hBusy)
    · rw [submit, submissions_append]
      intro entry hEntry
      rcases List.mem_append.mp hEntry with hOld | hNew
      · exact h.positive entry hOld
      · rw [List.mem_singleton.mp hNew]
        exact h.next
  | otherId =>
    obtain rfl := Option.some.inj hStep
    exact ⟨h.label, h.free, h.ahead, h.positive, Nat.succ_pos _⟩
  | cancel id =>
    obtain rfl := Option.some.inj hStep
    rcases cancel_cases s id with hEq | hEq
    · rw [hEq]
      exact h
    · rw [hEq]
      exact ⟨h.label, h.free, h.ahead, h.positive, h.next⟩
  | trip _ | prepareForShutdown | stop =>
    obtain rfl := Option.some.inj hStep
    exact ⟨h.label, h.free, h.ahead, h.positive, h.next⟩
  | worker action => exact h.work hConsistent hStep

theorem recorded_run {first : Nat} {events : List RunnerEvent} {s : OperationRunner} (hFirst : 0 < first)
    (hRun : Run step (fun _ _ => True) { nextId := first } events s) :
    Recorded (recorded events) s ∧ s.Labelled := by
  induction hRun with
  | start => exact ⟨recorded_start hFirst, labelled_start first⟩
  | next hBefore _ hStep ih =>
    obtain ⟨hRecorded, hLabelled⟩ := ih
    rw [recorded_append]
    exact ⟨hRecorded.step (consistent_run hBefore) hLabelled hStep, hLabelled.step (consistent_run hBefore) hStep⟩

/-- The operation in the worker's hands is not found in the queue, so its own flags answer. -/
theorem cancel_held {known : Bool} {s : OperationRunner} (h : Recorded known s) (hLabelled : s.Labelled)
    {queued : QueuedOperation} {phase : Phase} (hBusy : s.worker = .busy queued phase) :
    s.cancel queued.id =
      if !s.runningKillable then (.notCancellable, some s.runningDescription, s) else (.cancelled, none, s) := by
  have hApart : ¬ (s.queue.any fun waiting => waiting.id == queued.id) = true := by
    intro hAny
    obtain ⟨waiting, hWaiting, hId⟩ := List.any_eq_true.mp hAny
    have hLess := h.ahead queued phase hBusy waiting hWaiting
    rw [eq_of_beq hId] at hLess
    exact lt_irrefl _ hLess
  have hOwn : ¬ (queued.id = 0 ∨ queued.id ≠ s.runningId) := by
    rw [hLabelled.id queued phase hBusy]
    rintro (hZero | hOther)
    · have hPositive : 0 < queued.id := h.positive _ (hLabelled.known queued phase hBusy)
      omega
    · exact hOther rfl
  rw [cancel, if_neg hApart, if_neg hOwn]

/-- Only an operation in the worker's hands is refused a cancel. -/
theorem held_of_refused {known : Bool} {s : OperationRunner} (h : Recorded known s) (hLabelled : s.Labelled) {id : Nat}
    (hRefused : (s.cancel id).1 = .notCancellable) :
    ∃ queued phase, s.worker = .busy queued phase ∧ queued.id = id := by
  rw [cancel] at hRefused
  split at hRefused
  · cases hRefused
  · split at hRefused
    · cases hRefused
    · rename_i hOwn
      obtain ⟨hId, hRunning⟩ := not_or.mp hOwn
      have hBusy : ∃ queued phase, s.worker = .busy queued phase := by
        by_contra hNone
        refine hId ?_
        rw [not_not.mp hRunning]
        exact h.free fun queued phase hBusy => hNone ⟨queued, phase, hBusy⟩
      obtain ⟨queued, phase, hBusy⟩ := hBusy
      exact ⟨queued, phase, hBusy, (hLabelled.id queued phase hBusy).symm.trans (not_not.mp hRunning).symm⟩

/-- A refused cancel is right whenever the operation in the worker's hands has been recorded; before
that it is right only when what an earlier operation left happens to be true of it. -/
theorem refused_rightly_iff {first : Nat} {events : List RunnerEvent} {s : OperationRunner} (hFirst : 0 < first)
    (hRun : Run step (fun _ _ => True) { nextId := first } events s) (id : Nat) :
    s.RefusedRightly id ↔ recorded events = true ∨ s.LeftRight id := by
  obtain ⟨h, hLabelled⟩ := recorded_run hFirst hRun
  constructor
  · intro hRightly
    refine or_iff_not_imp_left.mpr fun _ queued phase hBusy hId hKillable => ?_
    subst hId
    have hCancel := cancel_held h hLabelled hBusy
    rw [hKillable] at hCancel
    obtain ⟨held, before, hHeld, -, hKept, hDescription⟩ := hRightly (congrArg Prod.fst hCancel)
    obtain ⟨rfl, -⟩ := Worker.busy.inj (hBusy.symm.trans hHeld)
    refine ⟨hKept, ?_⟩
    rw [hCancel] at hDescription
    exact Option.some.inj hDescription
  · intro hTold hRefused
    obtain ⟨queued, phase, hBusy, rfl⟩ := held_of_refused h hLabelled hRefused
    have hCancel := cancel_held h hLabelled hBusy
    have hKillable : s.runningKillable = false := by
      cases hFlag : s.runningKillable with
      | false => rfl
      | true =>
        rw [hCancel, hFlag] at hRefused
        cases hRefused
    have hTrue : queued.operation.killableMidFlight = false ∧ s.runningDescription = queued.operation.describe := by
      rcases hTold with hKnown | hLeft
      · obtain ⟨-, hSame, hDescription⟩ := h.label hKnown queued phase hBusy
        exact ⟨hSame.symm.trans hKillable, hDescription⟩
      · exact hLeft queued phase hBusy rfl hKillable
    rw [hKillable] at hCancel
    rw [hCancel]
    exact ⟨queued, phase, hBusy, rfl, hTrue.1, congrArg some hTrue.2⟩

/-- A merge has run to its end; a fetch that may be killed has been popped. -/
def mergeThenFetch : List RunnerEvent :=
  [.submit { describe := ascii "Merge main" }, .worker .pop, .worker .mark, .worker .check,
    .worker (.preflight {}), .worker .begin, .worker (.finishRun (some { succeeded := true })),
    .worker (.deliver false), .worker .release,
    .submit { describe := ascii "Fetch", killableMidFlight := true }, .worker .pop]

theorem refused_rightly_iff_mergeThenFetch : ∃ s, (mergeThenFetch.take 3).foldlM step {} = some s ∧
    (s.RefusedRightly 1 ↔ recorded (mergeThenFetch.take 3) = true ∨ s.LeftRight 1) := by
  have h (s : OperationRunner) (hs : (mergeThenFetch.take 3).foldlM step {} = some s) :
      Run step (fun _ _ => True) { nextId := 1 } (mergeThenFetch.take 3) s := .of_foldlM hs
  exact ⟨_, rfl, refused_rightly_iff Nat.one_pos (h _ rfl) 1⟩

theorem fetch_refused_as_merge : ¬ ∀ (events : List RunnerEvent) (s : OperationRunner),
    Run step (fun _ _ => True) {} events s → ∀ id, s.RefusedRightly id := by
  intro h
  obtain ⟨s, hs, hCancel, hWorker⟩ : ∃ s, mergeThenFetch.foldlM step {} = some s ∧
      s.cancel 2 = (.notCancellable, some (ascii "Merge main"), s) ∧
      s.worker = .busy { id := 2, operation := { describe := ascii "Fetch", killableMidFlight := true } } .popped :=
    ⟨_, rfl, rfl, rfl⟩
  obtain ⟨queued, phase, hBusy, -, hKept, -⟩ := h mergeThenFetch s (.of_foldlM hs) 2 (congrArg Prod.fst hCancel)
  obtain ⟨rfl, -⟩ := Worker.busy.inj (hBusy.symm.trans hWorker)
  cases hKept

end OperationRunner

end GitBranchManager
