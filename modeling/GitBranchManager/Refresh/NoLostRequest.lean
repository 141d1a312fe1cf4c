import GitBranchManager.Refresh.DriverSteps
import GitBranchManager.Refresh.WalkNumbers

/-! # No request is lost

A request waits for the timer or for the end of a walk until a walk is started that covers it.
-/

namespace GitBranchManager

open Library

namespace HistoryRefresh

/-- A load that begins later covers request `n`, or a walk that will begin one. -/
def Covered (s : HistoryRefresh) (later : List HistoryRecord) (n : Nat) : Prop :=
  (∃ generation covers, .loadBegan generation covers ∈ later ∧ n ≤ covers) ∨
    ∃ walk ∈ s.walks, isToBegin walk.stage = true ∧ n ≤ walk.coversRequest

/-- The quiet period of the last request is over. -/
def Quiet (s : HistoryRefresh) : Prop := s.refreshCoalescer.debouncer.lastEvent + kRefreshDelay ≤ s.clock

/-- A walk will be started: the timer is or will be armed for the end of the quiet period, or the
period is over and the timer is about to call back. -/
def Awaited (s : HistoryRefresh) : Prop :=
  0 < s.arms ∨ s.Quiet ∧ (0 < s.zeroArms ∨ s.fired = true) ∨
    ∃ deadline, s.deadline = some deadline ∧ s.refreshCoalescer.debouncer.lastEvent + kRefreshDelay ≤ deadline

/-- The requests up to `taken` were taken by a walk. -/
structure Served (s : HistoryRefresh) (taken : Nat) : Prop where
  delay : s.refreshCoalescer.debouncer.delay = kRefreshDelay
  past : s.refreshCoalescer.debouncer.lastEvent ≤ s.clock
  bound : taken ≤ s.refreshRequestSeq
  requests : ∀ n, .requested n ∈ s.log → n ≤ s.refreshRequestSeq
  covered : ∀ n later earlier, s.log = later ++ .requested n :: earlier → n ≤ taken → s.Covered later n
  running : s.refreshCoalescer.debouncer.running = true →
    kRefreshDelay ≤ s.clock ∧ 0 < s.refreshCoalescer.generation ∧
      s.refreshCoalescer.debouncer.pending = s.refreshCoalescer.debouncer.dirty ∧
      (∃ walk ∈ s.walks, walk.generation = s.refreshCoalescer.generation) ∧
      (taken < s.refreshRequestSeq → s.refreshCoalescer.debouncer.dirty = true)
  idle : s.refreshCoalescer.debouncer.running = false → s.refreshCoalescer.debouncer.dirty = false ∧
    (taken < s.refreshRequestSeq → s.refreshCoalescer.debouncer.pending = true ∧ s.Awaited)

variable {s : HistoryRefresh} {taken : Nat}

theorem Served.write (h : Served s taken) {record : HistoryRecord} (hRequest : ∀ n, record ≠ .requested n) :
    Served (s.write record) taken := by
  refine ⟨h.delay, h.past, h.bound, fun n hMem => ?_, fun n later earlier hLog hTaken => ?_, h.running, h.idle⟩
  · rcases List.mem_cons.mp hMem with hIs | hMem
    · exact absurd hIs.symm (hRequest n)
    · exact h.requests n hMem
  · cases later with
    | nil => exact absurd (List.cons.inj hLog).1 (hRequest n)
    | cons first later =>
      obtain ⟨rfl, hRest⟩ := List.cons.inj hLog
      rcases h.covered n later earlier hRest hTaken with ⟨generation, covers, hMem, hCovers⟩ | hWalk
      · exact .inl ⟨generation, covers, List.mem_cons_of_mem _ hMem, hCovers⟩
      · exact .inr hWalk

theorem exists_generation_move {walk : RefreshWalk} (stage : WalkStage) {generation : Nat}
    (h : ∃ other ∈ s.walks, other.generation = generation) :
    ∃ other ∈ (s.move walk stage).walks, other.generation = generation := by
  obtain ⟨other, hOther, rfl⟩ := h
  by_cases hIs : other = walk
  · exact ⟨{ walk with stage }, List.mem_cons_self, by rw [hIs]⟩
  · exact ⟨other, List.mem_cons_of_mem _ ((List.mem_erase_of_ne hIs).mpr hOther), rfl⟩

/-- A walk that has yet to begin its load keeps that ahead, or has just begun it. -/
theorem Served.move (h : Served s taken) {walk : RefreshWalk} {stage : WalkStage}
    (hBegin : isToBegin walk.stage = true → isToBegin stage = true ∨
      ∃ log, s.log = .loadBegan walk.generation walk.coversRequest :: log) : Served (s.move walk stage) taken := by
  refine ⟨h.delay, h.past, h.bound, h.requests, fun n later earlier hLog hTaken => ?_, fun hRunning => ?_, h.idle⟩
  · rcases h.covered n later earlier hLog hTaken with hBegan | ⟨other, hOther, hStage, hCovers⟩
    · exact .inl hBegan
    · by_cases hIs : other = walk
      · subst hIs
        rcases hBegin hStage with hAhead | ⟨log, hBegan⟩
        · exact .inr ⟨{ other with stage }, List.mem_cons_self, hAhead, hCovers⟩
        · left
          cases later with
          | nil => cases (List.cons.inj (hBegan.symm.trans hLog)).1
          | cons first later =>
            obtain ⟨rfl, -⟩ := List.cons.inj (hBegan.symm.trans hLog)
            exact ⟨_, _, List.mem_cons_self, hCovers⟩
      · exact .inr ⟨other, List.mem_cons_of_mem _ ((List.mem_erase_of_ne hIs).mpr hOther), hStage, hCovers⟩
  · obtain ⟨hClock, hPos, hDirty, hWalk, hWaits⟩ := h.running hRunning
    exact ⟨hClock, hPos, hDirty, exists_generation_move stage hWalk, hWaits⟩

theorem Covered.erase {walk : RefreshWalk} (hBegun : isToBegin walk.stage = false) {later : List HistoryRecord}
    {n : Nat} (h : s.Covered later n) : Covered { s with walks := s.walks.erase walk } later n := by
  refine h.imp_right fun hWalk => ?_
  obtain ⟨other, hOther, hStage, hCovers⟩ := hWalk
  have hNot : other ≠ walk := by
    rintro rfl
    exact Bool.false_ne_true (hBegun.symm.trans hStage)
  exact ⟨other, (List.mem_erase_of_ne hNot).mpr hOther, hStage, hCovers⟩

theorem Served.finishRefresh (h : Served s taken) {walk : RefreshWalk} (hBegun : isToBegin walk.stage = false) :
    Served (s.finishRefresh walk) taken := by
  have hCovered : ∀ n later earlier, s.log = later ++ .requested n :: earlier → n ≤ taken →
      Covered { s with walks := s.walks.erase walk } later n := fun n later earlier hLog hTaken =>
    (h.covered n later earlier hLog hTaken).erase hBegun
  rw [HistoryRefresh.finishRefresh]
  rcases s.refreshCoalescer.onFinished_cases walk.generation with
    ⟨hEq, hStale⟩ | ⟨hEq, -, hClean⟩ | ⟨hEq, -, hDirty⟩
  · rw [hEq]
    refine ⟨h.delay, h.past, h.bound, h.requests, hCovered, fun hRunning => ?_, h.idle⟩
    obtain ⟨hClock, hPos, hDirty, ⟨other, hOther, hGeneration⟩, hWaits⟩ := h.running hRunning
    have hNot : other ≠ walk := by
      rintro rfl
      rcases hStale with hZero | hOld
      · exact Nat.ne_of_gt hPos (hGeneration.symm.trans hZero)
      · exact hOld hGeneration
    exact ⟨hClock, hPos, hDirty, ⟨other, (List.mem_erase_of_ne hNot).mpr hOther, hGeneration⟩, hWaits⟩
  · rw [hEq]
    refine ⟨h.delay, h.past, h.bound, h.requests, hCovered, fun hRunning => absurd hRunning Bool.false_ne_true, fun _ =>
      ⟨hClean, fun hWaits => ?_⟩⟩
    cases hRunning : s.refreshCoalescer.debouncer.running with
    | true => exact absurd (hClean.symm.trans ((h.running hRunning).2.2.2.2 hWaits)) Bool.false_ne_true
    | false => exact (h.idle hRunning).2 hWaits
  · rw [hEq]
    have hRunning : s.refreshCoalescer.debouncer.running = true := by
      by_contra hIdle
      exact Bool.false_ne_true ((h.idle (Bool.eq_false_iff.mpr hIdle)).1.symm.trans hDirty)
    refine ⟨h.delay, Nat.zero_le _, h.bound, h.requests, hCovered,
      fun hAgain => absurd hAgain Bool.false_ne_true,
      fun _ => ⟨rfl, fun _ => ⟨rfl, .inr (.inl ⟨?_, .inl (Nat.succ_pos _)⟩)⟩⟩⟩
    rw [Quiet, Nat.zero_add]
    exact (h.running hRunning).1

theorem Served.proceeds (h : Served s taken) {walk : RefreshWalk} {s' : HistoryRefresh}
    (hProceeds : Proceeds s walk s') : Served s' taken := by
  have hMove (stage : WalkStage) (hBegun : isToBegin walk.stage = false) : Served (s.move walk stage) taken :=
    h.move fun hAhead => absurd (hBegun.symm.trans hAhead) Bool.false_ne_true
  cases hProceeds with
  | posted => exact (h.move fun _ => .inl rfl).write fun _ hIs => by cases hIs
  | began =>
    have hWritten : Served (s.write (.loadBegan walk.generation walk.coversRequest)) taken :=
      h.write fun _ hIs => by cases hIs
    exact hWritten.move fun _ => .inr ⟨s.log, rfl⟩
  | moved stage _ hBegun =>
    have hMoved : Served (s.move walk stage) taken := hMove stage hBegun
    exact ⟨hMoved.delay, hMoved.past, hMoved.bound, hMoved.requests, hMoved.covered, hMoved.running, hMoved.idle⟩
  | failed hBegun => exact (hMove .finishing hBegun).write fun _ hIs => by cases hIs
  | updated hBegun => exact (hMove .walking hBegun).write fun _ hIs => by cases hIs
  | finished hBegun => exact h.finishRefresh hBegun

/-- The walk that starts takes every request. -/
theorem served_start {generation : Nat} {c : RefreshCoalescer} (onTimer : Bool)
    (hRequests : ∀ n, .requested n ∈ s.log → n ≤ s.refreshRequestSeq) (hDelay : c.debouncer.delay = kRefreshDelay)
    (hPast : c.debouncer.lastEvent ≤ s.clock) (hGeneration : c.generation = generation) (hPos : 0 < generation)
    (hClean : c.debouncer.dirty = false)
    (hRunning : c.debouncer.running = true → kRefreshDelay ≤ s.clock ∧ c.debouncer.pending = false) :
    Served (s.start generation c onTimer) s.refreshRequestSeq := by
  refine ⟨hDelay, hPast, Nat.le_refl _, hRequests, fun n later earlier hLog hTaken => ?_, fun hRuns => ?_, fun _ =>
    ⟨hClean, fun hWaits => absurd hWaits (Nat.lt_irrefl _)⟩⟩
  · exact .inr ⟨_, List.mem_cons_self, rfl, hTaken⟩
  · obtain ⟨hClock, hPending⟩ := hRunning hRuns
    exact ⟨hClock, hGeneration ▸ hPos, hPending.trans hClean.symm, ⟨_, List.mem_cons_self, hGeneration.symm⟩,
      fun hWaits => absurd hWaits (Nat.lt_irrefl _)⟩

theorem Served.refreshHistory (h : Served s taken) : Served s.refreshHistory taken := by
  have hCovered : ∀ n later earlier, .requested (s.refreshRequestSeq + 1) :: s.log = later ++ .requested n :: earlier →
      n ≤ taken → s.Covered later n := by
    intro n later earlier hLog hTaken
    cases later with
    | nil =>
      obtain ⟨hIs, -⟩ := List.cons.inj hLog
      have hNumber := HistoryRecord.requested.inj hIs
      have hBound := h.bound
      omega
    | cons first later =>
      obtain ⟨rfl, hRest⟩ := List.cons.inj hLog
      rcases h.covered n later earlier hRest hTaken with ⟨generation, covers, hMem, hCovers⟩ | hWalk
      · exact .inl ⟨generation, covers, List.mem_cons_of_mem _ hMem, hCovers⟩
      · exact .inr hWalk
  have hRequests : ∀ n, .requested n ∈ HistoryRecord.requested (s.refreshRequestSeq + 1) :: s.log →
      n ≤ s.refreshRequestSeq + 1 := by
    intro n hMem
    rcases List.mem_cons.mp hMem with hIs | hMem
    · exact Nat.le_of_eq (HistoryRecord.requested.inj hIs)
    · exact Nat.le_succ_of_le (h.requests n hMem)
  rw [HistoryRefresh.refreshHistory]
  cases hRunning : s.refreshCoalescer.debouncer.running with
  | true =>
    obtain ⟨hClock, hPos, -, hWalk, -⟩ := h.running hRunning
    rw [RefreshCoalescer.request_running everything s.clock hRunning]
    exact ⟨h.delay, Nat.le_refl _, Nat.le_succ_of_le h.bound, hRequests, hCovered, fun _ =>
      ⟨hClock, hPos, rfl, hWalk, fun _ => rfl⟩, fun hIdle => absurd (hRunning.symm.trans hIdle) (by simp)⟩
  | false =>
    rw [RefreshCoalescer.request_idle everything s.clock hRunning (h.delay ▸ (by decide))]
    exact ⟨h.delay, Nat.le_refl _, Nat.le_succ_of_le h.bound, hRequests, hCovered, fun hRuns =>
      absurd (hRunning.symm.trans hRuns) (by simp), fun _ =>
      ⟨(h.idle hRunning).1, fun _ => ⟨rfl, .inl (Nat.succ_pos _)⟩⟩⟩

theorem Served.onRefreshTimerFired (h : Served s taken) : ∃ taken', Served s.onRefreshTimerFired taken' := by
  rw [HistoryRefresh.onRefreshTimerFired]
  cases hRunning : s.refreshCoalescer.debouncer.running with
  | true =>
    rw [RefreshCoalescer.onTimeout_running s.clock hRunning (h.running hRunning).2.2.1]
    exact ⟨taken, h.delay, h.past, h.bound, h.requests, h.covered, h.running, fun hIdle =>
      absurd (hRunning.symm.trans hIdle) (by simp)⟩
  | false =>
    obtain ⟨hClean, hWaits⟩ := h.idle hRunning
    by_cases hDue : s.refreshCoalescer.debouncer.pending = true ∧ s.Quiet
    · obtain ⟨hPending, hQuiet⟩ := hDue
      rw [RefreshCoalescer.onTimeout_due hRunning hPending (h.delay.symm ▸ hQuiet)]
      exact ⟨_, served_start true h.requests h.delay h.past rfl (Nat.succ_pos _) hClean fun _ =>
        ⟨Nat.le_trans (Nat.le_add_left _ _) hQuiet, rfl⟩⟩
    · have hEarly : s.refreshCoalescer.debouncer.pending = false ∨
          s.clock < s.refreshCoalescer.debouncer.lastEvent + s.refreshCoalescer.debouncer.delay := by
        rw [h.delay, ← Nat.not_le]
        rw [not_and_or, Bool.not_eq_true] at hDue
        exact hDue
      rw [RefreshCoalescer.onTimeout_early hRunning (h.delay ▸ (by decide)) hEarly]
      refine ⟨taken, h.delay, h.past, h.bound, h.requests, h.covered, h.running, fun _ => ⟨hClean, fun hLess => ?_⟩⟩
      obtain ⟨hPending, hAwaited⟩ := hWaits hLess
      rcases hAwaited with hArms | ⟨hQuiet, -⟩ | hDeadline
      · exact ⟨hPending, .inl hArms⟩
      · exact absurd ⟨hPending, hQuiet⟩ hDue
      · exact ⟨hPending, .inr (.inr hDeadline)⟩

theorem Served.setHistoryFilter (h : Served s taken) : Served s.setHistoryFilter s.refreshRequestSeq := by
  rw [HistoryRefresh.setHistoryFilter]
  dsimp only
  rw [RefreshCoalescer.fireNow_eq]
  refine served_start (s := { s with historyCancel := s.historyCancel + 1 }) false h.requests rfl (Nat.zero_le _) rfl
    (Nat.succ_pos _) rfl fun hRuns => ?_
  have hClock := of_decide_eq_true hRuns
  exact ⟨hClock, by simp [hClock]⟩

/-- An `arm` at once never replaces the only deadline of a request whose quiet period is not over. -/
def KeepsDeadline (s : HistoryRefresh) : HistoryEvent → Prop
  | .armAtOnce => s.refreshCoalescer.debouncer.running = false → s.refreshCoalescer.debouncer.pending = true →
      s.arms = 0 → s.deadline ≠ none → s.Quiet
  | _ => True

theorem Served.retimed (h : Served s taken) {clock arms zeroArms : Nat} {deadline : Option Nat} {fired : Bool}
    (hClock : s.clock ≤ clock)
    (hAwaited : s.refreshCoalescer.debouncer.running = false → s.refreshCoalescer.debouncer.pending = true →
      s.Awaited → Awaited { s with clock, deadline, fired, arms, zeroArms }) :
    Served { s with clock, deadline, fired, arms, zeroArms } taken := by
  refine ⟨h.delay, Nat.le_trans h.past hClock, h.bound, h.requests, h.covered, fun hRunning => ?_, fun hIdle => ?_⟩
  · obtain ⟨hDelay, hRest⟩ := h.running hRunning
    exact ⟨Nat.le_trans hDelay hClock, hRest⟩
  · obtain ⟨hClean, hWaits⟩ := h.idle hIdle
    refine ⟨hClean, fun hLess => ?_⟩
    obtain ⟨hPending, hBefore⟩ := hWaits hLess
    exact ⟨hPending, hAwaited hIdle hPending hBefore⟩

theorem Served.step (h : Served s taken) {event : HistoryEvent} (hOk : KeepsDeadline s event) {s' : HistoryRefresh}
    (hSteps : Steps s event s') : ∃ taken', Served s' taken' := by
  cases hSteps with
  | tick elapsed =>
    refine ⟨taken, h.retimed (Nat.le_add_right _ _) fun _ _ hAwaited => hAwaited.imp_right fun hAwaited => ?_⟩
    exact hAwaited.imp_left fun hDue => ⟨Nat.le_add_right_of_le hDue.1, hDue.2⟩
  | refreshHistory => exact ⟨taken, h.refreshHistory⟩
  | arm =>
    exact ⟨taken, h.retimed (Nat.le_refl _) fun _ _ _ =>
      .inr (.inr ⟨_, rfl, Nat.add_le_add_right h.past kRefreshDelay⟩)⟩
  | armAtOnce =>
    refine ⟨taken, h.retimed (Nat.le_refl _) fun hIdle hPending hAwaited => ?_⟩
    by_cases hQuiet : s.Quiet
    · exact .inr (.inr ⟨_, rfl, hQuiet⟩)
    · rcases hAwaited with hArms | ⟨hOver, -⟩ | ⟨deadline, hDeadline, -⟩
      · exact .inl hArms
      · exact absurd hOver hQuiet
      · refine .inl (Nat.pos_of_ne_zero fun hNone => hQuiet (hOk hIdle hPending hNone ?_))
        rw [hDeadline]
        exact Option.some_ne_none deadline
  | expire hDeadline hReached =>
    refine ⟨taken, h.retimed (Nat.le_refl _) fun _ _ hAwaited => ?_⟩
    rcases hAwaited with hArms | ⟨hQuiet, -⟩ | ⟨d, hArmed, hLate⟩
    · exact .inl hArms
    · exact .inr (.inl ⟨hQuiet, .inr rfl⟩)
    · obtain rfl := Option.some.inj (hArmed.symm.trans hDeadline)
      exact .inr (.inl ⟨Nat.le_trans hLate hReached, .inr rfl⟩)
  | onRefreshTimerFired => exact h.onRefreshTimerFired
  | setHistoryFilter => exact ⟨_, h.setHistoryFilter⟩
  | proceed _ hProceeds => exact ⟨taken, h.proceeds hProceeds⟩

theorem served_new (first : Nat) : Served { clock := first } 0 := by
  refine ⟨rfl, Nat.zero_le _, Nat.le_refl _, fun _ hNone => absurd hNone List.not_mem_nil, fun _ later _ hLog _ => ?_,
    fun hRuns => absurd hRuns Bool.false_ne_true, fun _ => ⟨rfl, fun hLess => absurd hLess (Nat.lt_irrefl 0)⟩⟩
  cases later <;> cases hLog

theorem served_run {first : Nat} {events : List HistoryEvent}
    (hRun : Run HistoryRefresh.step KeepsDeadline { clock := first } events s) : ∃ taken, Served s taken := by
  refine hRun.invariant (P := fun m => ∃ taken, Served m taken) ⟨0, served_new first⟩ ?_
  intro m event m' hServed hOk hStep
  obtain ⟨taken, h⟩ := hServed
  exact h.step hOk (steps_of_step hStep)

/-- At rest every request has been taken. -/
theorem Served.atRest (h : Served s taken) (hRest : s.AtRest) : taken = s.refreshRequestSeq := by
  refine Nat.le_antisymm h.bound (Nat.le_of_not_lt fun hLess => ?_)
  cases hRunning : s.refreshCoalescer.debouncer.running with
  | true =>
    obtain ⟨walk, hWalk, -⟩ := (h.running hRunning).2.2.2.1
    rw [hRest.walks] at hWalk
    cases hWalk
  | false =>
    rcases ((h.idle hRunning).2 hLess).2 with hArms | ⟨-, hZero | hFired⟩ | ⟨deadline, hDeadline, -⟩
    · exact Nat.ne_of_gt hArms hRest.arms
    · exact Nat.ne_of_gt hZero hRest.zeroArms
    · exact Bool.false_ne_true (hRest.fired.symm.trans hFired)
    · cases hRest.deadline.symm.trans hDeadline

/-- A load that began after the request covers it, whenever nothing is under way; and a
`coversRequest` is never that of a request made after its load was dispatched. -/
theorem no_request_lost {first : Nat} {events : List HistoryEvent}
    (hRun : Run HistoryRefresh.step KeepsDeadline { clock := first } events s) :
    (s.AtRest → ∀ n later earlier, s.log = later ++ .requested n :: earlier →
      ∃ generation covers, .loadBegan generation covers ∈ later ∧ n ≤ covers) ∧
    ∀ generation covers later earlier, s.log = later ++ .refsUpdated generation covers :: earlier →
      ∃ since before, earlier = since ++ .dispatched generation covers :: before ∧
        ∀ n, .requested n ∈ later ++ since → covers < n := by
  constructor
  · intro hRest n later earlier hLog
    obtain ⟨taken, hServed⟩ := served_run hRun
    have hMade : n ≤ s.refreshRequestSeq :=
      hServed.requests n (hLog ▸ List.mem_append_right _ List.mem_cons_self)
    rcases hServed.covered n later earlier hLog (hServed.atRest hRest ▸ hMade) with hBegan | ⟨walk, hWalk, -⟩
    · exact hBegan
    · rw [hRest.walks] at hWalk
      cases hWalk
  · intro generation covers later earlier hLog
    have hNumbered := hRun.invariant (numbered_new first) fun _ _ _ h _ hStep =>
      h.step (steps_of_step hStep)
    exact (hNumbered.updated generation covers later earlier hLog).2

def sampleWalk (generation coversRequest : Nat) (stage : WalkStage) : RefreshWalk :=
  { generation, coversRequest, token := 0, stage }

/-- What becomes of a walk of which nothing fails. -/
def wholeWalk (generation coversRequest : Nat) : List HistoryEvent :=
  [.dispatching true, .queued, .loading, .publishing, .walking, .finishing].map fun stage =>
    .proceed (sampleWalk generation coversRequest stage) true

def asked : List HistoryEvent :=
  [.refreshHistory, .arm, .tick kRefreshDelay, .expire, .onRefreshTimerFired]

/-- A second request is folded into the walk of the first. The walk ends, and before the timer is
armed at once for the second, a third request arms it for the delay. -/
def lateArmAtOnce : List HistoryEvent :=
  asked ++ .refreshHistory :: wholeWalk 1 1 ++ [.refreshHistory, .arm, .armAtOnce, .expire, .onRefreshTimerFired]

theorem lateArmAtOnce_lost : ¬ ∀ (first : Nat) (events : List HistoryEvent) (s : HistoryRefresh),
    Run HistoryRefresh.step (fun _ _ => True) { clock := first } events s → s.AtRest →
      ∀ n later earlier, s.log = later ++ .requested n :: earlier →
        ∃ generation covers, .loadBegan generation covers ∈ later ∧ n ≤ covers := by
  intro h
  obtain ⟨s, hs, hRest, earlier, hLog⟩ : ∃ s, lateArmAtOnce.foldlM HistoryRefresh.step { clock := 0 } = some s ∧
      s.AtRest ∧ ∃ earlier, s.log = [] ++ .requested 3 :: earlier := ⟨_, rfl, ⟨rfl, rfl, rfl, rfl, rfl⟩, _, rfl⟩
  obtain ⟨_, _, hNone, -⟩ := h 0 lateArmAtOnce s (.of_foldlM hs) hRest 3 [] earlier hLog
  cases hNone

theorem no_request_lost_asked : ∃ s : HistoryRefresh,
    s.AtRest ∧ s.refreshRequestSeq = 1 ∧ ∀ n later earlier, s.log = later ++ .requested n :: earlier →
      ∃ generation covers, .loadBegan generation covers ∈ later ∧ n ≤ covers := by
  obtain ⟨s, hs, hRest, hSeq⟩ : ∃ s, (asked ++ wholeWalk 1 1).foldlM HistoryRefresh.step { clock := 0 } = some s ∧
      s.AtRest ∧ s.refreshRequestSeq = 1 := ⟨_, rfl, ⟨rfl, rfl, rfl, rfl, rfl⟩, rfl⟩
  have hNever : ∀ event ∈ asked ++ wholeWalk 1 1, event ≠ .armAtOnce := by decide
  have hRun : Run HistoryRefresh.step KeepsDeadline { clock := 0 } (asked ++ wholeWalk 1 1) s := by
    refine (Run.of_foldlM hs).admitted fun event hEvent m => ?_
    cases event with
    | armAtOnce => exact absurd rfl (hNever _ hEvent)
    | _ => trivial
  exact ⟨s, hRest, hSeq, (no_request_lost hRun).1 hRest⟩

end HistoryRefresh

end GitBranchManager
