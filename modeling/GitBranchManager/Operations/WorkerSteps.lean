import GitBranchManager.Library.Runs
import GitBranchManager.Operations.OperationRunner
import Mathlib.Data.List.Nodup

/-! # What a step of the operation queue does

What was submitted is, in order, what was completed, then what the worker holds, then what is
queued.
-/

namespace GitBranchManager

open Library

def QueuedOperation.entry (queued : QueuedOperation) : Nat × Operation := (queued.id, queued.operation)

/-- The phases before the completion callback is taken. -/
def Phase.isOpen : Phase → Bool
  | .thrown => false
  | .delivered => false
  | _ => true

namespace OperationRunner

/-- The steps of the worker that call nothing: only an operation that is not cancelled gets
past the two checks. -/
inductive Moves (s : OperationRunner) (queued : QueuedOperation) : Phase → Phase → Prop
  | marked : Moves s queued .popped .marked
  | markThrows : Moves s queued .popped .thrown
  | admitted (hLive : queued.id ∉ s.tripped) : Moves s queued .marked .preflight
  | refused (outcome : OperationOutcome) : Moves s queued .marked (.finished outcome)
  | allowed (hLive : queued.id ∉ s.tripped) : Moves s queued .preflight .cleared
  | blocked (outcome : OperationOutcome) : Moves s queued .preflight (.finished outcome)
  | preflightThrows : Moves s queued .preflight .thrown
  | beginThrows (outcome : OperationOutcome) : Moves s queued .cleared (.finished outcome)
  | rerunThrows (retries : Nat) (outcome : OperationOutcome) :
      Moves s queued (.waiting retries) (.finished outcome)
  | kindThrows (outcome : OperationOutcome) : Moves s queued (.finished outcome) .thrown

inductive Works (s : OperationRunner) : OperationRunner → Prop
  | pop (queued : QueuedOperation) (queue : List QueuedOperation) (hIdle : s.worker = .idle)
      (hQueue : s.queue = queued :: queue) :
      Works s { s with queue, worker := .busy queued .popped, runningId := queued.id }
  | move (queued : QueuedOperation) (phase next : Phase) (killable : Bool) (description : Bytes)
      (hBusy : s.worker = .busy queued phase) (hMove : Moves s queued phase next) :
      Works s
        { s with
          worker := .busy queued next
          runningKillable := killable
          runningDescription := description }
  | began (queued : QueuedOperation) (phase : Phase) (retries : Nat)
      (hBusy : s.worker = .busy queued phase)
      (hPhase : phase = .cleared ∧ retries = kLockRetries ∨ phase = .waiting retries) :
      Works s
        { s with worker := .busy queued (.running retries), log := s.log ++ [.began queued.id] }
  | ended (queued : QueuedOperation) (retries : Nat) (next : Phase)
      (hBusy : s.worker = .busy queued (.running retries))
      (hNext : (∃ left, retries = left + 1 ∧ next = .waiting left) ∨ ∃ outcome, next = .finished outcome) :
      Works s { s with worker := .busy queued next, log := s.log ++ [.ended queued.id] }
  | delivered (queued : QueuedOperation) (phase next : Phase) (outcome : OperationOutcome)
      (hBusy : s.worker = .busy queued phase)
      (hPhase : (∃ o, phase = .finished o) ∧ (next = .thrown ∨ next = .delivered) ∨
        phase = .thrown ∧ queued.onDone = true ∧ next = .delivered) :
      Works s (s.deliver queued outcome next)
  | skipped (queued : QueuedOperation) (hBusy : s.worker = .busy queued .thrown)
      (hDone : queued.onDone = false) : Works s { s with worker := .busy queued .delivered }
  | released (queued : QueuedOperation) (hBusy : s.worker = .busy queued .delivered) :
      Works s { s with worker := .idle, runningId := 0, runningKillable := false }
  | exited (hIdle : s.worker = .idle) (hQueue : s.queue = []) (hStop : s.stopping = true) :
      Works s { s with worker := .exited }

theorem afterRun_next (s : OperationRunner) (queued : QueuedOperation) (retries : Nat)
    (result : Option OperationOutcome) :
    (∃ left, retries = left + 1 ∧ s.afterRun queued retries result = .waiting left) ∨
      ∃ outcome, s.afterRun queued retries result = .finished outcome := by
  cases result with
  | none => exact Or.inr ⟨_, rfl⟩
  | some outcome =>
    cases retries with
    | zero => exact Or.inr ⟨_, rfl⟩
    | succ left =>
      rw [afterRun]
      split
      · exact Or.inl ⟨left, rfl, rfl⟩
      · exact Or.inr ⟨_, rfl⟩

theorem afterPreflight_moves (s : OperationRunner) (queued : QueuedOperation) (current : RepoState) :
    Moves s queued .preflight (s.afterPreflight queued current) := by
  rw [afterPreflight]
  split
  · exact .blocked _
  next hNone =>
    refine .allowed fun hTripped => ?_
    rw [preflight, if_pos (List.contains_iff_mem.mpr hTripped)] at hNone
    cases hNone

theorem works_of_work {s s' : OperationRunner} {action : WorkerAction}
    (h : s.work action = some s') : Works s s' := by
  cases action with
  | pop =>
    rw [work] at h
    split at h
    next queued queue hIdle hQueue => exact Option.some.inj h ▸ .pop queued queue hIdle hQueue
    next => cases h
  | mark =>
    rw [work] at h
    split at h
    next queued hBusy => exact Option.some.inj h ▸ .move queued _ _ _ _ hBusy .marked
    next => cases h
  | markThrows killableRead =>
    rw [work] at h
    split at h
    next queued hBusy => exact Option.some.inj h ▸ .move queued _ _ _ _ hBusy .markThrows
    next => cases h
  | check =>
    rw [work] at h
    split at h
    next queued hBusy =>
      obtain rfl := Option.some.inj h
      split
      · exact .move queued _ _ _ _ hBusy (.refused _)
      next hLive =>
        exact .move queued _ _ _ _ hBusy (.admitted fun hMem => hLive (List.contains_iff_mem.mpr hMem))
    next => cases h
  | preflight current =>
    rw [work] at h
    split at h
    next queued hBusy =>
      exact Option.some.inj h ▸ .move queued _ _ _ _ hBusy (afterPreflight_moves s queued current)
    next => cases h
  | preflightThrows =>
    rw [work] at h
    split at h
    next queued hBusy => exact Option.some.inj h ▸ .move queued _ _ _ _ hBusy .preflightThrows
    next => cases h
  | begin =>
    rw [work] at h
    split at h
    next queued hBusy => exact Option.some.inj h ▸ .began queued _ _ hBusy (Or.inl ⟨rfl, rfl⟩)
    next => cases h
  | beginThrows =>
    rw [work] at h
    split at h
    next queued hBusy =>
      split at h
      · cases h
      · exact Option.some.inj h ▸ .move queued _ _ _ _ hBusy (.beginThrows _)
    next => cases h
  | finishRun result =>
    rw [work] at h
    split at h
    next queued retries hBusy =>
      exact Option.some.inj h ▸ .ended queued retries _ hBusy (afterRun_next s queued retries result)
    next => cases h
  | rerun =>
    rw [work] at h
    split at h
    next queued retries hBusy => exact Option.some.inj h ▸ .began queued _ _ hBusy (Or.inr rfl)
    next => cases h
  | rerunThrows =>
    rw [work] at h
    split at h
    next queued retries hBusy =>
      exact Option.some.inj h ▸ .move queued _ _ _ _ hBusy (.rerunThrows retries _)
    next => cases h
  | kindThrows =>
    rw [work] at h
    split at h
    next queued outcome hBusy => exact Option.some.inj h ▸ .move queued _ _ _ _ hBusy (.kindThrows outcome)
    next => cases h
  | deliver callbackThrows =>
    rw [work] at h
    split at h
    next queued outcome hBusy =>
      refine Option.some.inj h ▸ .delivered queued _ _ _ hBusy (Or.inl ⟨⟨outcome, rfl⟩, ?_⟩)
      cases callbackThrows with
      | true => exact Or.inl rfl
      | false => exact Or.inr rfl
    next => cases h
  | failUndelivered kindThrows callbackThrows =>
    rw [work] at h
    split at h
    next queued hBusy =>
      split at h
      next hDone => exact Option.some.inj h ▸ .delivered queued _ _ _ hBusy (Or.inr ⟨rfl, hDone, rfl⟩)
      next hDone => exact Option.some.inj h ▸ .skipped queued hBusy (Bool.eq_false_iff.mpr hDone)
    next => cases h
  | release =>
    rw [work] at h
    split at h
    next queued hBusy => exact Option.some.inj h ▸ .released queued hBusy
    next => cases h
  | exit =>
    rw [work] at h
    split at h
    next hIdle hQueue =>
      split at h
      next hStop => exact Option.some.inj h ▸ .exited hIdle hQueue hStop
      next => cases h
    next => cases h

section Log

variable (log : List RunnerRecord) (record : RunnerRecord)

theorem submissions_append :
    submissions (log ++ [record]) = submissions log ++ submissions [record] :=
  List.filterMap_append

theorem completions_append :
    completions (log ++ [record]) = completions log ++ completions [record] :=
  List.filterMap_append

theorem activeRuns_append : activeRuns (log ++ [record]) =
    match record with
    | .began id => activeRuns log ++ [id]
    | .ended id => (activeRuns log).erase id
    | _ => activeRuns log := by
  rw [activeRuns, List.foldl_append]
  rfl

end Log

/-- The operation the worker has taken from the queue and not completed. -/
def inFlight : Worker → List (Nat × Operation)
  | .busy queued _ => if queued.onDone then [queued.entry] else []
  | _ => []

def runningIds : Worker → List Nat
  | .busy queued (.running _) => [queued.id]
  | _ => []

/-- What was submitted is what was completed, then what the worker holds, then the queue. -/
structure Consistent (s : OperationRunner) : Prop where
  order : submissions s.log =
    completions s.log ++ (inFlight s.worker ++ s.queue.map QueuedOperation.entry)
  queued : ∀ queued ∈ s.queue, queued.onDone = true
  ids : ((submissions s.log).map Prod.fst).Pairwise (· < ·)
  bound : ∀ entry ∈ submissions s.log, entry.1 < s.nextId
  active : activeRuns s.log = runningIds s.worker
  opened : ∀ queued phase, s.worker = .busy queued phase → phase.isOpen = true → queued.onDone = true
  closed : ∀ queued, s.worker = .busy queued .delivered → queued.onDone = false
  exited : s.worker = .exited → s.stopping = true ∧ s.queue = []
  began : ∀ id, .began id ∈ s.log → id ∈ (completions s.log ++ inFlight s.worker).map Prod.fst

theorem consistent_start (first : Nat) : Consistent { nextId := first } where
  order := rfl
  queued := fun _ h => absurd h List.not_mem_nil
  ids := List.Pairwise.nil
  bound := fun _ h => absurd h List.not_mem_nil
  active := rfl
  opened := fun _ _ h => absurd h (by simp)
  closed := fun _ h => absurd h (by simp)
  exited := fun h => absurd h (by simp)
  began := fun _ h => absurd h List.not_mem_nil

/-- A step that leaves the queue, the worker and the log alone. -/
theorem Consistent.same {s s' : OperationRunner} (h : s.Consistent) (hQueue : s'.queue = s.queue)
    (hWorker : s'.worker = s.worker) (hLog : s'.log = s.log) (hNext : s.nextId ≤ s'.nextId)
    (hStop : s.stopping = true → s'.stopping = true) : s'.Consistent := by
  constructor
  · rw [hQueue, hWorker, hLog, h.order]
  · rw [hQueue]
    exact h.queued
  · rw [hLog]
    exact h.ids
  · rw [hLog]
    exact fun entry hEntry => Nat.lt_of_lt_of_le (h.bound entry hEntry) hNext
  · rw [hLog, hWorker, h.active]
  · rw [hWorker]
    exact h.opened
  · rw [hWorker]
    exact h.closed
  · rw [hWorker, hQueue]
    exact fun hExited => (h.exited hExited).imp_left hStop
  · rw [hLog, hWorker]
    exact h.began

theorem Consistent.submit {s : OperationRunner} (h : s.Consistent) (hRunning : s.stopping = false)
    (operation : Operation) : (s.submit operation).2.Consistent := by
  have hLog : (s.submit operation).2.log = s.log ++ [.submitted s.nextId operation] := rfl
  have hQueue : (s.submit operation).2.queue = s.queue ++ [{ id := s.nextId, operation }] := rfl
  have hSubmissions : submissions (s.submit operation).2.log =
      submissions s.log ++ [(s.nextId, operation)] := submissions_append _ _
  have hCompletions : completions (s.submit operation).2.log = completions s.log := by
    rw [hLog, completions_append]
    exact List.append_nil _
  constructor
  · rw [hSubmissions, hCompletions, hQueue, h.order, List.map_append]
    simp only [List.append_assoc]
    rfl
  · rw [hQueue]
    intro queued hMem
    rcases List.mem_append.mp hMem with hMem | hMem
    · exact h.queued queued hMem
    · rw [List.mem_singleton.mp hMem]
  · rw [hSubmissions, List.map_append, List.pairwise_append]
    refine ⟨h.ids, List.pairwise_singleton _ _, ?_⟩
    intro id hId new hNew
    obtain ⟨entry, hEntry, rfl⟩ := List.mem_map.mp hId
    rw [List.mem_singleton.mp hNew]
    exact h.bound entry hEntry
  · rw [hSubmissions]
    intro entry hEntry
    rcases List.mem_append.mp hEntry with hEntry | hEntry
    · exact Nat.lt_succ_of_lt (h.bound entry hEntry)
    · rw [List.mem_singleton.mp hEntry]
      exact Nat.lt_succ_self _
  · rw [hLog, activeRuns_append]
    exact h.active
  · exact h.opened
  · exact h.closed
  · intro hExited
    rw [(h.exited hExited).1] at hRunning
    cases hRunning
  · rw [hCompletions, hLog]
    intro id hBegan
    rcases List.mem_append.mp hBegan with hBegan | hBegan
    · exact h.began id hBegan
    · exact absurd (List.mem_singleton.mp hBegan) (by simp)

/-- The phase changes while the operation stays in the worker's hands. -/
theorem Consistent.rephase {s : OperationRunner} (h : s.Consistent) {queued : QueuedOperation}
    {phase next : Phase} {records : List RunnerRecord} (hBusy : s.worker = .busy queued phase)
    (hOpen : phase.isOpen = true) (hNext : next ≠ .delivered)
    (hRecords : records = [] ∨ records = [.began queued.id] ∨ records = [.ended queued.id])
    (hActive : activeRuns (s.log ++ records) = runningIds (.busy queued next))
    (killable : Bool) (description : Bytes) :
    Consistent
      { s with
        worker := .busy queued next
        runningKillable := killable
        runningDescription := description
        log := s.log ++ records } := by
  have hDone := h.opened queued phase hBusy hOpen
  have hFlight : inFlight (.busy queued next) = inFlight s.worker := by rw [hBusy]; rfl
  have hSubmissions : submissions (s.log ++ records) = submissions s.log := by
    rcases hRecords with rfl | rfl | rfl
    · rw [List.append_nil]
    · rw [submissions_append]
      exact List.append_nil _
    · rw [submissions_append]
      exact List.append_nil _
  have hCompletions : completions (s.log ++ records) = completions s.log := by
    rcases hRecords with rfl | rfl | rfl
    · rw [List.append_nil]
    · rw [completions_append]
      exact List.append_nil _
    · rw [completions_append]
      exact List.append_nil _
  constructor
  · dsimp only
    rw [hSubmissions, hCompletions, hFlight, h.order]
  · exact h.queued
  · dsimp only
    rw [hSubmissions]
    exact h.ids
  · dsimp only
    rw [hSubmissions]
    exact h.bound
  · exact hActive
  · intro q p hq _
    injection hq with hq
    rw [← hq]
    exact hDone
  · intro q hq
    injection hq with _ hq
    exact absurd hq hNext
  · intro hExited
    exact absurd hExited (by simp)
  · dsimp only
    rw [hCompletions, hFlight]
    intro id hBegan
    rcases List.mem_append.mp hBegan with hBegan | hBegan
    · exact h.began id hBegan
    · rcases hRecords with rfl | rfl | rfl
      · exact absurd hBegan List.not_mem_nil
      · injection List.mem_singleton.mp hBegan with hId
        rw [hBusy, inFlight, hDone, if_pos rfl, hId]
        simp [QueuedOperation.entry]
      · exact absurd (List.mem_singleton.mp hBegan) (by simp)

/-- The worker holds and runs what it did, and only its own state changes. -/
theorem Consistent.holding {s : OperationRunner} (h : s.Consistent) {worker : Worker}
    (hFlight : inFlight worker = inFlight s.worker) (hRuns : runningIds worker = runningIds s.worker)
    (hOpened : ∀ queued phase, worker = .busy queued phase → phase.isOpen = true → queued.onDone = true)
    (hClosed : ∀ queued, worker = .busy queued .delivered → queued.onDone = false)
    (hExited : worker = .exited → s.stopping = true ∧ s.queue = []) (runningId : Nat) (killable : Bool) :
    Consistent { s with worker, runningId, runningKillable := killable } := by
  refine ⟨?_, h.queued, h.ids, h.bound, ?_, hOpened, hClosed, hExited, ?_⟩
  · dsimp only
    rw [hFlight, h.order]
  · exact h.active.trans hRuns.symm
  · dsimp only
    rw [hFlight]
    exact h.began

theorem Moves.open {s : OperationRunner} {queued : QueuedOperation} {phase next : Phase}
    (h : Moves s queued phase next) : phase.isOpen = true ∧ next ≠ .delivered ∧
      runningIds (.busy queued phase) = [] ∧ runningIds (.busy queued next) = [] := by
  cases h <;> simp [Phase.isOpen, runningIds]

/-- The worker takes the first operation of the queue. -/
theorem Consistent.popped {s : OperationRunner} (h : s.Consistent) {queued : QueuedOperation}
    {queue : List QueuedOperation} (hIdle : s.worker = .idle) (hQueue : s.queue = queued :: queue) :
    Consistent { s with queue, worker := .busy queued .popped, runningId := queued.id } := by
  have hDone : queued.onDone = true := h.queued queued (hQueue ▸ List.mem_cons_self)
  have hFlight : inFlight (.busy queued .popped) = [queued.entry] := by rw [inFlight, hDone, if_pos rfl]
  constructor
  · dsimp only
    rw [h.order, hFlight, hQueue, hIdle]
    rfl
  · exact fun q hq => h.queued q (hQueue ▸ List.mem_cons_of_mem _ hq)
  · exact h.ids
  · exact h.bound
  · dsimp only
    rw [h.active, hIdle]
    rfl
  · intro q phase hq _
    injection hq with hq
    rw [← hq, hDone]
  · intro q hq
    injection hq with _ hq
    exact absurd hq (by simp)
  · intro hExited
    exact absurd hExited (by simp)
  · intro id hBegan
    have hNone : inFlight s.worker = [] := by rw [hIdle]; rfl
    have hOld := h.began id hBegan
    rw [hNone, List.append_nil] at hOld
    rw [List.map_append]
    exact List.mem_append_left _ hOld

/-- The outcome of an operation is handed out. -/
theorem Consistent.handedOut {s : OperationRunner} (h : s.Consistent) {queued : QueuedOperation}
    {phase next : Phase} (outcome : OperationOutcome) (hBusy : s.worker = .busy queued phase)
    (hPhase : (∃ o, phase = .finished o) ∧ (next = .thrown ∨ next = .delivered) ∨
      phase = .thrown ∧ queued.onDone = true ∧ next = .delivered) : Consistent (s.deliver queued outcome next) := by
  have hDone : queued.onDone = true := by
    rcases hPhase with ⟨⟨o, rfl⟩, -⟩ | ⟨-, hDone, -⟩
    · exact h.opened queued _ hBusy rfl
    · exact hDone
  have hNext : next = .thrown ∨ next = .delivered := by
    rcases hPhase with ⟨-, hNext⟩ | ⟨-, -, hNext⟩
    · exact hNext
    · exact Or.inr hNext
  have hIdleRuns : runningIds (.busy queued phase) = [] := by
    rcases hPhase with ⟨⟨o, rfl⟩, -⟩ | ⟨rfl, -, -⟩
    · rfl
    · rfl
  have hSubmissions : submissions (s.deliver queued outcome next).log = submissions s.log := by
    rw [deliver, submissions_append]
    exact List.append_nil _
  have hCompletions : completions (s.deliver queued outcome next).log =
      completions s.log ++ [queued.entry] := completions_append _ _
  have hFlight : inFlight s.worker = [queued.entry] := by rw [hBusy, inFlight, hDone, if_pos rfl]
  constructor
  · rw [hSubmissions, hCompletions, h.order, hFlight, List.append_assoc]
    rfl
  · exact h.queued
  · rw [hSubmissions]
    exact h.ids
  · rw [hSubmissions]
    exact h.bound
  · rw [deliver, activeRuns_append]
    dsimp only
    rw [h.active, hBusy, hIdleRuns]
    rcases hNext with rfl | rfl
    · rfl
    · rfl
  · intro q p hq hOpen
    injection hq with _ hq
    rcases hNext with rfl | rfl
    · rw [← hq] at hOpen
      exact absurd hOpen (by simp [Phase.isOpen])
    · rw [← hq] at hOpen
      exact absurd hOpen (by simp [Phase.isOpen])
  · intro q hq
    injection hq with hq
    rw [← hq]
  · intro hExited
    exact absurd hExited (by simp [deliver])
  · intro id hBegan
    rw [hCompletions, ← hFlight, List.map_append]
    rcases List.mem_append.mp hBegan with hBegan | hBegan
    · exact List.mem_append_left _ (h.began id hBegan)
    · exact absurd (List.mem_singleton.mp hBegan) (by simp)

theorem Consistent.work {s s' : OperationRunner} (h : s.Consistent) (hWorks : Works s s') :
    s'.Consistent := by
  cases hWorks with
  | pop queued queue hIdle hQueue => exact h.popped hIdle hQueue
  | move queued phase next killable description hBusy hMove =>
    obtain ⟨hOpen, hNext, hBefore, hAfter⟩ := hMove.open
    have hActive : activeRuns (s.log ++ []) = runningIds (.busy queued next) := by
      rw [List.append_nil, h.active, hBusy, hBefore, hAfter]
    have h' := h.rephase hBusy hOpen hNext (Or.inl rfl) hActive killable description
    rwa [List.append_nil] at h'
  | began queued phase retries hBusy hPhase =>
    have hBefore : phase.isOpen = true ∧ runningIds (.busy queued phase) = [] := by
      rcases hPhase with ⟨rfl, -⟩ | rfl
      · exact ⟨rfl, rfl⟩
      · exact ⟨rfl, rfl⟩
    refine h.rephase hBusy hBefore.1 (by simp) (Or.inr (Or.inl rfl)) ?_ _ _
    rw [activeRuns_append, h.active, hBusy, hBefore.2]
    rfl
  | ended queued retries next hBusy hNext =>
    have hAfter : next ≠ .delivered ∧ runningIds (.busy queued next) = [] := by
      rcases hNext with ⟨left, -, rfl⟩ | ⟨outcome, rfl⟩
      · exact ⟨by simp, rfl⟩
      · exact ⟨by simp, rfl⟩
    refine h.rephase hBusy rfl hAfter.1 (Or.inr (Or.inr rfl)) ?_ _ _
    rw [activeRuns_append, h.active, hBusy, hAfter.2]
    simp [runningIds]
  | delivered queued phase next outcome hBusy hPhase => exact h.handedOut outcome hBusy hPhase
  | skipped queued hBusy hDone =>
    have hFlight : inFlight (.busy queued .delivered) = inFlight s.worker := by rw [hBusy]; rfl
    have hRuns : runningIds (.busy queued .delivered) = runningIds s.worker := by rw [hBusy]; rfl
    refine h.holding hFlight hRuns (fun q p hq hOpen => ?_) (fun q hq => ?_) (fun hExited => ?_) _ _
    · injection hq with _ hq
      rw [← hq] at hOpen
      exact absurd hOpen (by simp [Phase.isOpen])
    · injection hq with hq
      rw [← hq, hDone]
    · exact absurd hExited (by simp)
  | released queued hBusy =>
    have hFlight : inFlight .idle = inFlight s.worker := by
      rw [hBusy, inFlight, h.closed queued hBusy]
      rfl
    have hRuns : runningIds .idle = runningIds s.worker := by rw [hBusy]; rfl
    refine h.holding hFlight hRuns (fun q p hq => ?_) (fun q hq => ?_) (fun hExited => ?_) _ _
    · exact absurd hq (by simp)
    · exact absurd hq (by simp)
    · exact absurd hExited (by simp)
  | exited hIdle hQueue hStop =>
    have hFlight : inFlight .exited = inFlight s.worker := by rw [hIdle]; rfl
    have hRuns : runningIds .exited = runningIds s.worker := by rw [hIdle]; rfl
    refine h.holding hFlight hRuns (fun q p hq => ?_) (fun q hq => ?_) (fun _ => ⟨hStop, hQueue⟩) _ _
    · exact absurd hq (by simp)
    · exact absurd hq (by simp)

theorem cancel_cases (s : OperationRunner) (id : Nat) :
    (s.cancel id).2.2 = s ∨ (s.cancel id).2.2 = s.trip id := by
  rw [cancel]
  split
  · exact Or.inr rfl
  · split
    · exact Or.inl rfl
    · split
      · exact Or.inl rfl
      · exact Or.inl rfl

theorem Consistent.step {s s' : OperationRunner} {event : RunnerEvent} (h : s.Consistent)
    (hStep : s.step event = some s') : s'.Consistent := by
  cases event with
  | submit operation =>
    rw [OperationRunner.step] at hStep
    split at hStep
    next => cases hStep
    next hRunning =>
      obtain rfl := Option.some.inj hStep
      exact h.submit (Bool.eq_false_iff.mpr hRunning) operation
  | otherId =>
    obtain rfl := Option.some.inj hStep
    exact h.same rfl rfl rfl (Nat.le_succ _) id
  | cancel id =>
    obtain rfl := Option.some.inj hStep
    rcases cancel_cases s id with hEq | hEq
    · rw [hEq]
      exact h
    · rw [hEq]
      exact h.same rfl rfl rfl (Nat.le_refl _) fun hStop => hStop
  | trip id =>
    obtain rfl := Option.some.inj hStep
    exact h.same rfl rfl rfl (Nat.le_refl _) fun hStop => hStop
  | prepareForShutdown =>
    obtain rfl := Option.some.inj hStep
    exact h.same rfl rfl rfl (Nat.le_refl _) fun hStop => hStop
  | stop =>
    obtain rfl := Option.some.inj hStep
    exact h.same rfl rfl rfl (Nat.le_refl _) fun _ => rfl
  | worker action => exact h.work (works_of_work hStep)

theorem submissions_of_works {s s' : OperationRunner} (h : Works s s') : submissions s'.log = submissions s.log := by
  cases h with
  | pop => rfl
  | move => rfl
  | began =>
    rw [submissions_append]
    exact List.append_nil _
  | ended =>
    rw [submissions_append]
    exact List.append_nil _
  | delivered =>
    rw [deliver, submissions_append]
    exact List.append_nil _
  | skipped => rfl
  | released => rfl
  | exited => rfl

theorem submissions_of_step {s s' : OperationRunner} {event : RunnerEvent} (h : s.step event = some s') :
    submissions s.log ⊆ submissions s'.log := by
  cases event with
  | submit operation =>
    rw [OperationRunner.step] at h
    split at h
    · cases h
    · obtain rfl := Option.some.inj h
      rw [submit, submissions_append]
      exact List.subset_append_left _ _
  | cancel id =>
    obtain rfl := Option.some.inj h
    rcases cancel_cases s id with hEq | hEq
    · rw [hEq]
      exact List.Subset.refl _
    · rw [hEq]
      exact List.Subset.refl _
  | worker action =>
    rw [submissions_of_works (works_of_work h)]
    exact List.Subset.refl _
  | otherId | trip _ | prepareForShutdown | stop =>
    obtain rfl := Option.some.inj h
    exact List.Subset.refl _

/-- What is submitted and not yet completed, the next to be completed first. -/
def outstanding (s : OperationRunner) : List (Nat × Operation) :=
  inFlight s.worker ++ s.queue.map QueuedOperation.entry

/-- A step of the worker completes nothing, or the first operation that is outstanding. -/
theorem outstanding_of_works {s s' : OperationRunner} (h : s.Consistent) (hWorks : Works s s') :
    completions s'.log = completions s.log ∧ s'.outstanding = s.outstanding ∨
      ∃ entry, completions s'.log = completions s.log ++ [entry] ∧ s.outstanding = entry :: s'.outstanding := by
  have hBefore := h.order
  have hAfter := (h.work hWorks).order
  rw [submissions_of_works hWorks, hBefore] at hAfter
  change completions s.log ++ s.outstanding = completions s'.log ++ s'.outstanding at hAfter
  have hSame : completions s'.log = completions s.log →
      completions s'.log = completions s.log ∧ s'.outstanding = s.outstanding := by
    intro hLog
    rw [hLog] at hAfter
    exact ⟨hLog, (List.append_cancel_left hAfter).symm⟩
  cases hWorks with
  | delivered queued phase next outcome hBusy hPhase =>
    have hLog : completions (s.deliver queued outcome next).log = completions s.log ++ [queued.entry] :=
      completions_append _ _
    rw [hLog, List.append_assoc] at hAfter
    exact .inr ⟨queued.entry, hLog, List.append_cancel_left hAfter⟩
  | began queued phase retries hBusy hPhase =>
    refine .inl (hSame ?_)
    rw [completions_append]
    exact List.append_nil _
  | ended queued retries next hBusy hNext =>
    refine .inl (hSame ?_)
    rw [completions_append]
    exact List.append_nil _
  | pop | move | skipped | released | exited => exact .inl (hSame rfl)

theorem nextId_of_step {s s' : OperationRunner} {event : RunnerEvent} (h : s.step event = some s') :
    s.nextId ≤ s'.nextId := by
  cases event with
  | submit operation =>
    rw [OperationRunner.step] at h
    split at h
    · cases h
    · obtain rfl := Option.some.inj h
      exact Nat.le_succ _
  | otherId =>
    obtain rfl := Option.some.inj h
    exact Nat.le_succ _
  | cancel id =>
    obtain rfl := Option.some.inj h
    rcases cancel_cases s id with hEq | hEq
    · rw [hEq]
    · rw [hEq]
      exact Nat.le_refl _
  | worker action =>
    have hWorks := works_of_work h
    cases hWorks with
    | pop | move | began | ended | delivered | skipped | released | exited => exact Nat.le_refl _
  | trip _ | prepareForShutdown | stop =>
    obtain rfl := Option.some.inj h
    exact Nat.le_refl _

theorem outstanding_submit (s : OperationRunner) (operation : Operation) :
    (s.submit operation).2.outstanding = s.outstanding ++ [(s.nextId, operation)] := by
  rw [outstanding, outstanding, List.append_assoc, submit, List.map_append]
  rfl

theorem submit_of_step {s s' : OperationRunner} {operation : Operation} (h : s.step (.submit operation) = some s') :
    s' = (s.submit operation).2 := by
  rw [OperationRunner.step] at h
  split at h
  · cases h
  · exact (Option.some.inj h).symm

/-- A step of the queue adds an operation with a new id, or completes the first of them, or does
neither. -/
theorem outstanding_of_step {s s' : OperationRunner} {event : RunnerEvent} (h : s.Consistent)
    (hStep : s.step event = some s') :
    (completions s'.log = completions s.log ∧
        ∃ more, s'.outstanding = s.outstanding ++ more ∧ ∀ entry ∈ more, entry.1 = s.nextId) ∨
      ∃ entry, completions s'.log = completions s.log ++ [entry] ∧ s.outstanding = entry :: s'.outstanding := by
  have hSame : ∀ s' : OperationRunner, s'.log = s.log → s'.worker = s.worker → s'.queue = s.queue →
      completions s'.log = completions s.log ∧
        ∃ more, s'.outstanding = s.outstanding ++ more ∧ ∀ entry ∈ more, entry.1 = s.nextId := by
    intro s' hLog hWorker hQueue
    refine ⟨by rw [hLog], [], ?_, fun entry hEntry => absurd hEntry List.not_mem_nil⟩
    rw [List.append_nil, outstanding, outstanding, hWorker, hQueue]
  cases event with
  | submit operation =>
    rw [OperationRunner.step] at hStep
    split at hStep
    · cases hStep
    · obtain rfl := Option.some.inj hStep
      refine .inl ⟨?_, [(s.nextId, operation)], outstanding_submit s operation, fun entry hEntry => ?_⟩
      · rw [submit, completions_append]
        exact List.append_nil _
      · rw [List.mem_singleton.mp hEntry]
  | cancel id =>
    obtain rfl := Option.some.inj hStep
    rcases cancel_cases s id with hEq | hEq
    · exact .inl (hSame _ (by rw [hEq]) (by rw [hEq]) (by rw [hEq]))
    · exact .inl (hSame _ (by rw [hEq]; rfl) (by rw [hEq]; rfl) (by rw [hEq]; rfl))
  | worker action =>
    rcases outstanding_of_works h (works_of_work hStep) with ⟨hLog, hOut⟩ | hDone
    · refine .inl ⟨hLog, [], ?_, fun entry hEntry => absurd hEntry List.not_mem_nil⟩
      rw [hOut, List.append_nil]
    · exact .inr hDone
  | otherId | trip _ | prepareForShutdown | stop =>
    obtain rfl := Option.some.inj hStep
    exact .inl (hSame _ rfl rfl rfl)

theorem consistent_run {first : Nat} {events : List RunnerEvent} {s : OperationRunner}
    (hRun : Run step (fun _ _ => True) { nextId := first } events s) : s.Consistent :=
  hRun.invariant (consistent_start first) fun _ _ _ h _ hStep => h.step hStep

end OperationRunner

end GitBranchManager
