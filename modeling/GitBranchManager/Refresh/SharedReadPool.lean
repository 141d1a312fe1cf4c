import GitBranchManager.Library.Runs
import GitBranchManager.Refresh.DriverSteps
import GitBranchManager.Refresh.WalkNumbers

/-! # The sessions of one read pool

Every session posts its walks to the one pool of the process, and a session that closes discards
what is queued there, whoever posted it. A walk is posted in the step that starts it, any number
of walks run at once, and the tasks that are no walks are left out.
-/

namespace GitBranchManager

open Library

/-- How far `~Session` is: `stopped` says that its operations have ended and its timer is gone,
`draining` that it waits for the pool. -/
inductive SessionStatus
  | opened
  | stopped
  | draining
  | closed
  deriving DecidableEq, Repr

/-- A timer that was stopped is not armed and does not fire, and nobody calls a session that closes. -/
def SessionStatus.accepts : SessionStatus → HistoryEvent → Bool
  | .opened, .tick _ => false
  | .opened, _ => true
  | .stopped, .proceed _ _ => true
  | .draining, .proceed _ _ => true
  | _, _ => false

structure PoolSession where
  refresh : HistoryRefresh
  status : SessionStatus := .opened
  deriving DecidableEq, Repr

structure SharedReadPool where
  clock : Nat
  sessions : List PoolSession := []
  deriving DecidableEq, Repr

inductive PoolEvent
  | tick (elapsed : Nat)
  | openSession
  | session (i : Nat) (event : HistoryEvent)
  | stopTimer (i : Nat)
  | cancelQueuedAndDrain (i : Nat)
  | drained (i : Nat)
  deriving DecidableEq, Repr

namespace HistoryRefresh

/-- The rest of `dispatchRefresh`: the walk that was started is posted. -/
def post (s : HistoryRefresh) : HistoryRefresh :=
  match s.walks with
  | walk :: _ => if isPosted walk.stage then s else s.proceed walk true
  | [] => s

def discardQueued (s : HistoryRefresh) : HistoryRefresh :=
  { s with walks := s.walks.filter fun walk => walk.stage != .queued }

end HistoryRefresh

namespace PoolSession

def tick (elapsed : Nat) (session : PoolSession) : PoolSession :=
  { session with refresh := { session.refresh with clock := session.refresh.clock + elapsed } }

def act (event : HistoryEvent) (session : PoolSession) : Option PoolSession :=
  if session.status.accepts event then
    (session.refresh.step event).map fun refresh => { session with refresh := refresh.post }
  else none

/-- The thread of the timer is joined, and an armed deadline is dropped. -/
def stopTimer (session : PoolSession) : Option PoolSession :=
  if session.status = .opened ∧ !session.refresh.timerBusy then
    some { refresh := { session.refresh with deadline := none }, status := .stopped }
  else none

/-- The walks of the session are cancelled, as by a change of the filter. -/
def cancelWalks (session : PoolSession) : Option PoolSession :=
  if session.status = .stopped then
    some { refresh := { session.refresh with historyCancel := session.refresh.historyCancel + 1 }, status := .draining }
  else none

def discardQueued (session : PoolSession) : PoolSession :=
  { session with refresh := session.refresh.discardQueued }

def close (session : PoolSession) : Option PoolSession :=
  if session.status = .draining then some { session with status := .closed } else none

end PoolSession

namespace SharedReadPool

def change (pool : SharedReadPool) (i : Nat) (f : PoolSession → Option PoolSession) : Option SharedReadPool :=
  (pool.sessions[i]?).bind fun session =>
    (f session).map fun session' => { pool with sessions := pool.sessions.set i session' }

/-- `activeTasks_` is 0: the walks there are were not taken by a worker. -/
def noneActive (pool : SharedReadPool) : Bool :=
  pool.sessions.all fun session => session.refresh.walks.all fun walk => HistoryRefresh.isToBegin walk.stage

def step (pool : SharedReadPool) : PoolEvent → Option SharedReadPool
  | .tick elapsed =>
    some { clock := pool.clock + elapsed, sessions := pool.sessions.map (PoolSession.tick elapsed) }
  | .openSession => some { pool with sessions := pool.sessions ++ [{ refresh := { clock := pool.clock } }] }
  | .session i event => pool.change i (PoolSession.act event)
  | .stopTimer i => pool.change i PoolSession.stopTimer
  | .cancelQueuedAndDrain i =>
    (pool.change i PoolSession.cancelWalks).map fun pool =>
      { pool with sessions := pool.sessions.map PoolSession.discardQueued }
  | .drained i => if pool.noneActive then pool.change i PoolSession.close else none

/-- The pool is idle and has no queued task. -/
def Idle (pool : SharedReadPool) : Prop :=
  ∀ session ∈ pool.sessions, ∀ walk ∈ session.refresh.walks, HistoryRefresh.isPosted walk.stage = false

instance (pool : SharedReadPool) : Decidable pool.Idle :=
  inferInstanceAs (Decidable (∀ session ∈ pool.sessions, ∀ walk ∈ session.refresh.walks,
    HistoryRefresh.isPosted walk.stage = false))

end SharedReadPool

/-! ## Sessions that wait for a walk

A coalescer that runs waits for the walk of its generation. The walk ends unless a session that
closes discards it while it is queued.
-/

theorem Debouncer.shouldFire_cases (d : Debouncer) (now : Nat) :
    (∃ d', d.shouldFire now = (false, d') ∧ d'.running = d.running ∧ d'.delay = d.delay) ∨
    d.shouldFire now = (true, { d with pending := false, running := true }) := by
  rw [shouldFire]
  split
  · refine .inl ⟨_, rfl, ?_⟩
    split <;> exact ⟨rfl, rfl⟩
  · split
    · exact .inl ⟨_, rfl, rfl, rfl⟩
    · split
      · exact .inl ⟨_, rfl, rfl, rfl⟩
      · exact .inr rfl

namespace RefreshCoalescer

theorem request_waits (c : RefreshCoalescer) (asked : PendingRefresh) (now : Nat) (hDelay : 0 < c.debouncer.delay) :
    (c.request asked now).2.debouncer.running = c.debouncer.running ∧
      (c.request asked now).2.debouncer.delay = c.debouncer.delay := by
  cases hRunning : c.debouncer.running with
  | true =>
    rw [request_running asked now hRunning]
    exact ⟨hRunning, rfl⟩
  | false =>
    rw [request_idle asked now hRunning hDelay]
    exact ⟨hRunning, rfl⟩

/-- The timeout starts nothing, or the next run. -/
theorem onTimeout_cases (c : RefreshCoalescer) (now : Nat) :
    (∃ debouncer : Debouncer, c.onTimeout now = (0, { c with debouncer }) ∧
      debouncer.running = c.debouncer.running ∧ debouncer.delay = c.debouncer.delay) ∨
    c.onTimeout now = (c.generation + 1,
      { c with
        debouncer := { c.debouncer with pending := false, running := true }
        generation := c.generation + 1 }) := by
  rw [onTimeout]
  rcases c.debouncer.shouldFire_cases now with ⟨debouncer, hNot, hSame⟩ | hFires
  · rw [hNot]
    exact .inl ⟨debouncer, rfl, hSame⟩
  · rw [hFires]
    exact .inr rfl

end RefreshCoalescer

namespace HistoryRefresh

variable {s s' : HistoryRefresh}

/-- The run that the coalescer waits for has a walk. -/
structure Attended (s : HistoryRefresh) : Prop where
  delay : 0 < s.refreshCoalescer.debouncer.delay
  running : s.refreshCoalescer.debouncer.running = true →
    0 < s.refreshCoalescer.generation ∧ ∃ walk ∈ s.walks, walk.generation = s.refreshCoalescer.generation

theorem attended_new (first : Nat) : Attended { clock := first } where
  delay := (by decide : 0 < kRefreshDelay)
  running hRunning := by cases hRunning

/-- The same walks, and a coalescer that waits for the same run. -/
theorem Attended.same (h : Attended s) (hWalks : s'.walks = s.walks)
    (hDelay : s'.refreshCoalescer.debouncer.delay = s.refreshCoalescer.debouncer.delay)
    (hRunning : s'.refreshCoalescer.debouncer.running = s.refreshCoalescer.debouncer.running)
    (hGeneration : s'.refreshCoalescer.generation = s.refreshCoalescer.generation) : Attended s' where
  delay := by
    rw [hDelay]
    exact h.delay
  running hRuns := by
    rw [hWalks, hGeneration]
    exact h.running (hRunning ▸ hRuns)

theorem attended_start (s : HistoryRefresh) {c : RefreshCoalescer} {generation : Nat} (onTimer : Bool)
    (hDelay : 0 < c.debouncer.delay) (hGeneration : c.generation = generation + 1) :
    Attended (s.start (generation + 1) c onTimer) where
  delay := hDelay
  running _ := by
    refine ⟨?_, _, List.mem_cons_self, hGeneration.symm⟩
    have hPos : 0 < c.generation := by
      rw [hGeneration]
      exact Nat.succ_pos generation
    exact hPos

theorem Attended.refreshHistory (h : Attended s) : Attended s.refreshHistory := by
  obtain ⟨hRunning, hDelay⟩ := s.refreshCoalescer.request_waits everything s.clock h.delay
  exact h.same rfl hDelay hRunning rfl

theorem Attended.onRefreshTimerFired (h : Attended s) : Attended s.onRefreshTimerFired := by
  rw [HistoryRefresh.onRefreshTimerFired]
  rcases s.refreshCoalescer.onTimeout_cases s.clock with ⟨debouncer, hNone, hRunning, hDelay⟩ | hStarts
  · rw [hNone]
    exact h.same rfl hDelay hRunning rfl
  · rw [hStarts]
    exact attended_start _ true h.delay rfl

theorem attended_setHistoryFilter (s : HistoryRefresh) : Attended s.setHistoryFilter := by
  rw [HistoryRefresh.setHistoryFilter, RefreshCoalescer.fireNow_eq]
  exact attended_start _ false (by decide : 0 < kRefreshDelay) rfl

theorem Attended.move (h : Attended s) {walk : RefreshWalk} (stage : WalkStage) : Attended (s.move walk stage) where
  delay := h.delay
  running hRunning := by
    obtain ⟨hPos, other, hOther, hGeneration⟩ := h.running hRunning
    refine ⟨hPos, ?_⟩
    by_cases hIs : other = walk
    · exact ⟨{ walk with stage }, List.mem_cons_self, hIs ▸ hGeneration⟩
    · exact ⟨other, List.mem_cons_of_mem _ ((List.mem_erase_of_ne hIs).mpr hOther), hGeneration⟩

theorem Attended.finishRefresh (h : Attended s) (walk : RefreshWalk) : Attended (s.finishRefresh walk) := by
  rw [HistoryRefresh.finishRefresh]
  rcases s.refreshCoalescer.onFinished_cases walk.generation with
    ⟨hStale, hOther⟩ | ⟨hEnded, -⟩ | ⟨hAgain, -⟩
  · rw [hStale]
    refine ⟨h.delay, fun hRunning => ?_⟩
    obtain ⟨hPos, other, hMem, hGeneration⟩ := h.running hRunning
    have hNot : other ≠ walk := by
      rintro rfl
      rcases hOther with hZero | hNot
      · rw [← hGeneration, hZero] at hPos
        exact Nat.lt_irrefl 0 hPos
      · exact hNot hGeneration
    exact ⟨hPos, other, (List.mem_erase_of_ne hNot).mpr hMem, hGeneration⟩
  · rw [hEnded]
    exact ⟨h.delay, fun hRunning => by cases hRunning⟩
  · rw [hAgain]
    exact ⟨h.delay, fun hRunning => by cases hRunning⟩

theorem Attended.proceeds (h : Attended s) {walk : RefreshWalk} (hProceeds : Proceeds s walk s') : Attended s' := by
  cases hProceeds with
  | posted => exact (h.move .queued).same rfl rfl rfl rfl
  | began => exact (h.move .loading).same rfl rfl rfl rfl
  | moved stage => exact (h.move stage).same rfl rfl rfl rfl
  | failed => exact (h.move .finishing).same rfl rfl rfl rfl
  | updated => exact (h.move .walking).same rfl rfl rfl rfl
  | finished => exact h.finishRefresh walk

theorem Attended.step (h : Attended s) {event : HistoryEvent} (hSteps : Steps s event s') : Attended s' := by
  cases hSteps with
  | tick | arm | armAtOnce | expire => exact h.same rfl rfl rfl rfl
  | refreshHistory => exact h.refreshHistory
  | onRefreshTimerFired => exact h.onRefreshTimerFired
  | setHistoryFilter => exact attended_setHistoryFilter s
  | proceed _ hProceeds => exact h.proceeds hProceeds

theorem Attended.post (h : Attended s) : Attended s.post := by
  rw [HistoryRefresh.post]
  split
  · split
    · exact h
    · exact h.proceeds (proceeds_proceed s _ true)
  · exact h

/-- A step starts one walk at most, or moves one. -/
theorem tail_subset_of_steps {event : HistoryEvent} (hSteps : Steps s event s') : s'.walks.tail ⊆ s.walks := by
  cases hSteps with
  | tick | refreshHistory | arm | armAtOnce | expire => exact (List.tail_sublist _).subset
  | onRefreshTimerFired =>
    rw [onRefreshTimerFired]
    split
    · exact (List.tail_sublist _).subset
    · exact List.Subset.refl _
  | setHistoryFilter => exact List.Subset.refl _
  | proceed _ hProceeds =>
    cases hProceeds with
    | posted | began | moved | failed | updated => exact List.erase_subset
    | finished => exact List.Subset.trans (List.tail_sublist _).subset List.erase_subset

theorem posted_post (h : ∀ walk ∈ s.walks.tail, isPosted walk.stage = true) :
    ∀ walk ∈ s.post.walks, isPosted walk.stage = true := by
  rw [post]
  split
  · rename_i first rest hWalks
    rw [hWalks] at h
    split
    · rename_i hFirst
      rw [hWalks]
      exact List.forall_mem_cons.mpr ⟨hFirst, h⟩
    · rename_i hFirst
      obtain ⟨onTimer, hStage⟩ : ∃ onTimer, first.stage = .dispatching onTimer := by
        cases hStage : first.stage with
        | dispatching onTimer => exact ⟨onTimer, rfl⟩
        | _ => exact absurd (hStage ▸ rfl) hFirst
      have hMoved : (s.proceed first true).walks = { first with stage := .queued } :: rest := by
        simp [proceed, hStage, write, move, hWalks]
      rw [hMoved]
      exact List.forall_mem_cons.mpr ⟨rfl, h⟩
  · rename_i hWalks
    rw [hWalks]
    exact fun _ hNone => absurd hNone List.not_mem_nil

/-- The coalescer waits for a walk that no worker has taken. -/
def WaitsForQueued (s : HistoryRefresh) : Prop :=
  s.refreshCoalescer.debouncer.running = true ∧
    ∃ walk ∈ s.walks, walk.stage = .queued ∧ walk.generation = s.refreshCoalescer.generation

instance (s : HistoryRefresh) : Decidable s.WaitsForQueued :=
  inferInstanceAs (Decidable (_ ∧ _))

theorem Attended.discardQueued (h : Attended s) (hSpared : ¬ s.WaitsForQueued) : Attended s.discardQueued where
  delay := h.delay
  running hRunning := by
    obtain ⟨hPos, walk, hWalk, hGeneration⟩ := h.running hRunning
    have hTaken : walk.stage ≠ .queued := fun hQueued => hSpared ⟨hRunning, walk, hWalk, hQueued, hGeneration⟩
    exact ⟨hPos, walk, List.mem_filter.mpr ⟨hWalk, bne_iff_ne.mpr hTaken⟩, hGeneration⟩

end HistoryRefresh

/-- What the pool keeps of a session while it is open. -/
structure PoolSession.Served (session : PoolSession) : Prop where
  attended : session.refresh.Attended
  posted : ∀ walk ∈ session.refresh.walks, HistoryRefresh.isPosted walk.stage = true

namespace PoolSession

variable {session session' : PoolSession}

theorem Served.tick (h : session.Served) (elapsed : Nat) : (session.tick elapsed).Served :=
  ⟨h.attended.same rfl rfl rfl rfl, h.posted⟩

theorem Served.act (h : session.Served) {event : HistoryEvent} (hStep : session.act event = some session') :
    session'.Served := by
  obtain ⟨-, hNext⟩ := Option.ite_none_right_eq_some.mp hStep
  obtain ⟨refresh, hRefresh, rfl⟩ := Option.map_eq_some_iff.mp hNext
  have hSteps := HistoryRefresh.steps_of_step hRefresh
  refine ⟨(h.attended.step hSteps).post, HistoryRefresh.posted_post fun walk hWalk => ?_⟩
  exact h.posted walk (HistoryRefresh.tail_subset_of_steps hSteps hWalk)

theorem Served.discardQueued (h : session.Served) (hSpared : ¬ session.refresh.WaitsForQueued) :
    session.discardQueued.Served :=
  ⟨h.attended.discardQueued hSpared, fun walk hWalk => h.posted walk (List.mem_filter.mp hWalk).1⟩

theorem status_act {event : HistoryEvent} (h : session.act event = some session') :
    session'.status = session.status := by
  obtain ⟨-, hNext⟩ := Option.ite_none_right_eq_some.mp h
  obtain ⟨refresh, -, rfl⟩ := Option.map_eq_some_iff.mp hNext
  rfl

theorem status_stopTimer (h : session.stopTimer = some session') : session'.status = .stopped := by
  obtain ⟨-, hNext⟩ := Option.ite_none_right_eq_some.mp h
  obtain rfl := Option.some.inj hNext
  rfl

theorem status_cancelWalks (h : session.cancelWalks = some session') : session'.status = .draining := by
  obtain ⟨-, hNext⟩ := Option.ite_none_right_eq_some.mp h
  obtain rfl := Option.some.inj hNext
  rfl

theorem status_close (h : session.close = some session') : session'.status = .closed := by
  obtain ⟨-, hNext⟩ := Option.ite_none_right_eq_some.mp h
  obtain rfl := Option.some.inj hNext
  rfl

end PoolSession

namespace SharedReadPool

variable {pool pool' : SharedReadPool} {i : Nat} {f : PoolSession → Option PoolSession}

def EveryOpened (P : PoolSession → Prop) (pool : SharedReadPool) : Prop :=
  ∀ session ∈ pool.sessions, session.status = .opened → P session

instance (P : PoolSession → Prop) [DecidablePred P] (pool : SharedReadPool) : Decidable (pool.EveryOpened P) :=
  inferInstanceAs (Decidable (∀ session ∈ pool.sessions, session.status = .opened → P session))

theorem EveryOpened.change {P : PoolSession → Prop} (h : pool.EveryOpened P) (hStep : pool.change i f = some pool')
    (hKeep : ∀ session session', f session = some session' → session'.status = .opened →
      session.status = .opened ∧ (P session → P session')) : pool'.EveryOpened P := by
  obtain ⟨session, hAt, hChanged⟩ := Option.bind_eq_some_iff.mp hStep
  obtain ⟨session', hNext, rfl⟩ := Option.map_eq_some_iff.mp hChanged
  intro other hOther hOpened
  rcases List.mem_or_eq_of_mem_set hOther with hOld | rfl
  · exact h other hOld hOpened
  · obtain ⟨hBefore, hTo⟩ := hKeep session other hNext hOpened
    exact hTo (h session (List.mem_of_getElem? hAt) hBefore)

/-- A session that closes a stage further is none of the open ones. -/
theorem EveryOpened.closing {P : PoolSession → Prop} (h : pool.EveryOpened P) (hStep : pool.change i f = some pool')
    {status : SessionStatus} (hStatus : ∀ session session', f session = some session' → session'.status = status)
    (hNot : status ≠ .opened) : pool'.EveryOpened P :=
  h.change hStep fun session session' hNext hOpened =>
    absurd ((hStatus session session' hNext).symm.trans hOpened) hNot

/-- What is discarded is no walk that another open session waits for. -/
def Admits (pool : SharedReadPool) : PoolEvent → Prop
  | .cancelQueuedAndDrain _ => pool.EveryOpened fun session => ¬ session.refresh.WaitsForQueued
  | _ => True

/-- No open session folds its next request into a run that never ends. -/
def NoneStalled (pool : SharedReadPool) : Prop :=
  pool.EveryOpened fun session => session.refresh.refreshCoalescer.debouncer.running = false

instance (pool : SharedReadPool) : Decidable pool.NoneStalled :=
  inferInstanceAs (Decidable (pool.EveryOpened _))

theorem everyOpened_step {event : PoolEvent} (h : pool.EveryOpened PoolSession.Served) (hAdmits : pool.Admits event)
    (hStep : pool.step event = some pool') : pool'.EveryOpened PoolSession.Served := by
  cases event with
  | tick elapsed =>
    obtain rfl := Option.some.inj hStep
    intro session hSession hOpened
    obtain ⟨before, hBefore, rfl⟩ := List.mem_map.mp hSession
    exact (h before hBefore hOpened).tick elapsed
  | openSession =>
    obtain rfl := Option.some.inj hStep
    intro session hSession hOpened
    rcases List.mem_append.mp hSession with hOld | hNew
    · exact h session hOld hOpened
    · obtain rfl := List.mem_singleton.mp hNew
      exact ⟨HistoryRefresh.attended_new pool.clock, fun _ hNone => absurd hNone List.not_mem_nil⟩
  | session i event =>
    refine h.change hStep fun session session' hNext hOpened => ?_
    exact ⟨PoolSession.status_act hNext ▸ hOpened, fun hServed => hServed.act hNext⟩
  | stopTimer i => exact h.closing hStep (fun _ _ => PoolSession.status_stopTimer) (by decide)
  | drained i =>
    obtain ⟨-, hClosed⟩ := Option.ite_none_right_eq_some.mp hStep
    exact h.closing hClosed (fun _ _ => PoolSession.status_close) (by decide)
  | cancelQueuedAndDrain i =>
    obtain ⟨cancelled, hCancelled, rfl⟩ := Option.map_eq_some_iff.mp hStep
    have hServed := h.closing hCancelled (fun _ _ => PoolSession.status_cancelWalks) (by decide)
    have hSpared := hAdmits.closing hCancelled (fun _ _ => PoolSession.status_cancelWalks) (by decide)
    intro session hSession hOpened
    obtain ⟨before, hBefore, rfl⟩ := List.mem_map.mp hSession
    exact (hServed before hBefore hOpened).discardQueued (hSpared before hBefore hOpened)

/-- In a run whose closing sessions discard no walk that another one waits for. -/
theorem none_stalled_when_idle {first : Nat} {events : List PoolEvent}
    (hRun : Run step Admits { clock := first } events pool) (hIdle : pool.Idle) : pool.NoneStalled := by
  have hServed : pool.EveryOpened PoolSession.Served :=
    hRun.invariant (fun _ hNone => absurd hNone List.not_mem_nil) fun _ _ _ h hAdmits hStep =>
      everyOpened_step h hAdmits hStep
  intro session hSession hOpened
  refine Bool.eq_false_iff.mpr fun hRunning => ?_
  obtain ⟨-, walk, hWalk, -⟩ := (hServed session hSession hOpened).attended.running hRunning
  have hPosted := (hServed session hSession hOpened).posted walk hWalk
  rw [hIdle session hSession walk hWalk] at hPosted
  cases hPosted

section Sample

/-- Two sessions are open, and the walk of the second one is queued. -/
def queuedWalk : List PoolEvent :=
  [.openSession, .openSession, .session 1 .refreshHistory, .session 1 .arm, .tick kRefreshDelay,
    .session 1 .expire, .session 1 .onRefreshTimerFired]

def walk (stage : WalkStage) : RefreshWalk := { generation := 1, coversRequest := 1, token := 0, stage }

def closeFirst : List PoolEvent := [.stopTimer 0, .cancelQueuedAndDrain 0, .drained 0]

def proceeds : List WalkStage → List PoolEvent :=
  List.map fun stage => .session 1 (.proceed (walk stage) true)

/-- The walk is loading, and the first session is about to discard what is queued. -/
def beforeDiscard : SharedReadPool where
  clock := kRefreshDelay
  sessions :=
    [{ refresh := { clock := kRefreshDelay }, status := .stopped },
      { refresh :=
          { refreshRequestSeq := 1
            refreshCoalescer := { debouncer := { delay := kRefreshDelay, running := true }, generation := 1 }
            clock := kRefreshDelay
            walks := [walk .loading]
            log := [.loadBegan 1 1, .dispatched 1 1, .requested 1] } }]

theorem runs_admitted {events : List PoolEvent} (h : events.foldlM step pool = some pool')
    (hNone : ∀ event ∈ events, ∀ i, event ≠ .cancelQueuedAndDrain i) : Run step Admits pool events pool' := by
  refine (Run.of_foldlM h).admitted fun event hEvent m => ?_
  cases event with
  | cancelQueuedAndDrain i => exact absurd rfl (hNone _ hEvent i)
  | _ => trivial

theorem run_beforeDiscard :
    Run step Admits { clock := 0 } (queuedWalk ++ proceeds [.queued] ++ [PoolEvent.stopTimer 0]) beforeDiscard :=
  runs_admitted (by decide) (by simp [queuedWalk, proceeds])

/-- The second session ends its walk while the first one is closed. -/
def afterDiscard : SharedReadPool where
  clock := kRefreshDelay
  sessions :=
    [{ refresh := { clock := kRefreshDelay, historyCancel := 1 }, status := .draining },
      { refresh :=
          { refreshRequestSeq := 1
            refreshCoalescer := { generation := 1 }
            publishedGeneration := 1
            clock := kRefreshDelay
            log := [.refsUpdated 1 1, .loadBegan 1 1, .dispatched 1 1, .requested 1] } }]

theorem run_afterDiscard :
    Run step Admits { clock := 0 }
      (queuedWalk ++ proceeds [.queued] ++ [PoolEvent.stopTimer 0] ++ [.cancelQueuedAndDrain 0] ++
        proceeds [.loading, .publishing, .walking, .finishing]) afterDiscard := by
  have hSpared : beforeDiscard.Admits (.cancelQueuedAndDrain 0) := by
    change beforeDiscard.EveryOpened fun session => ¬ session.refresh.WaitsForQueued
    decide
  refine (run_beforeDiscard.next hSpared rfl).append (runs_admitted ?_ ?_)
  · decide
  · simp [proceeds]

theorem none_stalled_when_idle_afterDiscard : afterDiscard.NoneStalled :=
  none_stalled_when_idle run_afterDiscard (by decide)

/-- The walk of the second session is discarded with the first one. -/
theorem queued_walk_discarded : ¬ ∀ (events : List PoolEvent) (pool : SharedReadPool),
    Run step (fun _ _ => True) { clock := 0 } events pool → pool.Idle → pool.NoneStalled := by
  intro h
  obtain ⟨pool, hRuns⟩ : ∃ pool, (queuedWalk ++ closeFirst).foldlM step { clock := 0 } = some pool := ⟨_, rfl⟩
  have hStalled := h _ pool (.of_foldlM hRuns)
  obtain rfl := Option.some.inj hRuns
  exact absurd (hStalled (by decide)) (by decide)

end Sample

end SharedReadPool

end GitBranchManager
