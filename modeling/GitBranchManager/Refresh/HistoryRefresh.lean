import GitBranchManager.Refresh.RefreshCoalescer

/-! # The history refresh of a session

Several threads ask for refreshes; one timer and a pool of workers carry them out. Each critical
section and each `arm` is a step of its own, and time passes in between. A token is the number of
the filter changes before it, and is cancelled by the next one. No session is closed.
-/

namespace GitBranchManager

/-- How far a started refresh is. `onTimer` says that the timer's thread posts it, `publishing` that
its refs were claimed, `finishing` that its guard has yet to run. -/
inductive WalkStage
  | dispatching (onTimer : Bool)
  | queued
  | loading
  | publishing
  | walking
  | finishing
  deriving DecidableEq, Repr

structure RefreshWalk where
  generation : Nat
  coversRequest : Nat
  token : Nat
  stage : WalkStage
  deriving DecidableEq, Repr

inductive HistoryRecord
  | requested (request : Nat)
  | dispatched (generation coversRequest : Nat)
  | loadBegan (generation coversRequest : Nat)
  | refsUpdated (generation coversRequest : Nat)
  | errorOccurred
  deriving DecidableEq, Repr

/-- `deadline` is the armed timer's, `fired` says that it ran out and its callback is still to come;
`arms` and `zeroArms` count the threads that have yet to arm it, for the delay and at once. `log`
records the calls, the newest first, and no step reads it. -/
structure HistoryRefresh where
  refreshRequestSeq : Nat := 0
  refreshCoalescer : RefreshCoalescer := {}
  historyCancel : Nat := 0
  publishedGeneration : Nat := 0
  clock : Nat
  deadline : Option Nat := none
  fired : Bool := false
  arms : Nat := 0
  zeroArms : Nat := 0
  walks : List RefreshWalk := []
  log : List HistoryRecord := []
  deriving DecidableEq, Repr

namespace HistoryRefresh

variable (s : HistoryRefresh)

def everything : PendingRefresh := { wantsRefs := true, wantsHistory := true, origin := .explicit }

/-- The critical section of `refreshHistory`. -/
def refreshHistory : HistoryRefresh :=
  let (action, refreshCoalescer) := s.refreshCoalescer.request everything s.clock
  { s with
    refreshRequestSeq := s.refreshRequestSeq + 1
    refreshCoalescer
    arms := if action = .arm then s.arms + 1 else s.arms
    log := .requested (s.refreshRequestSeq + 1) :: s.log }

def arm (delay : Nat) : HistoryRefresh := { s with deadline := some (s.clock + delay) }

/-- The batch is taken, and every request made so far is covered. -/
def start (generation : Nat) (refreshCoalescer : RefreshCoalescer) (onTimer : Bool) : HistoryRefresh :=
  { s with
    refreshCoalescer := refreshCoalescer.takePending.2
    walks :=
      { generation, coversRequest := s.refreshRequestSeq, token := s.historyCancel, stage := .dispatching onTimer }
        :: s.walks }

def onRefreshTimerFired : HistoryRefresh :=
  match s.refreshCoalescer.onTimeout s.clock with
  | (0, refreshCoalescer) => { s with refreshCoalescer, fired := false }
  | (generation + 1, refreshCoalescer) => start { s with fired := false } (generation + 1) refreshCoalescer true

def setHistoryFilter : HistoryRefresh :=
  let s := { s with historyCancel := s.historyCancel + 1 }
  let (generation, refreshCoalescer) := s.refreshCoalescer.fireNow everything s.clock
  s.start generation refreshCoalescer false

def move (walk : RefreshWalk) (stage : WalkStage) : HistoryRefresh :=
  { s with walks := { walk with stage } :: s.walks.erase walk }

def write (record : HistoryRecord) : HistoryRefresh := { s with log := record :: s.log }

def isCancelled (token : Nat) : Bool := decide (token < s.historyCancel)

/-- A failure of a walk that was cancelled goes unreported. -/
def fail (walk : RefreshWalk) : HistoryRefresh :=
  if s.isCancelled walk.token then s.move walk .finishing else (s.move walk .finishing).write .errorOccurred

def claimPublish (walk : RefreshWalk) : HistoryRefresh :=
  if walk.generation < s.publishedGeneration then s.move walk .finishing
  else { s.move walk .publishing with publishedGeneration := walk.generation }

/-- The critical section of `finishRefresh`. -/
def finishRefresh (walk : RefreshWalk) : HistoryRefresh :=
  let (again, refreshCoalescer) := s.refreshCoalescer.onFinished walk.generation
  { s with
    refreshCoalescer
    zeroArms := if again then s.zeroArms + 1 else s.zeroArms
    walks := s.walks.erase walk }

/-- What a thread does next with the walk that it has; `ok` is git's answer. -/
def proceed (walk : RefreshWalk) (ok : Bool) : HistoryRefresh :=
  match walk.stage with
  | .dispatching _ => (s.move walk .queued).write (.dispatched walk.generation walk.coversRequest)
  | .queued => (s.move walk .loading).write (.loadBegan walk.generation walk.coversRequest)
  | .loading => if ok then s.claimPublish walk else s.fail walk
  | .publishing => (s.move walk .walking).write (.refsUpdated walk.generation walk.coversRequest)
  | .walking => if ok then s.move walk .finishing else s.fail walk
  | .finishing => s.finishRefresh walk

end HistoryRefresh

inductive HistoryEvent
  | tick (elapsed : Nat)
  | refreshHistory
  | arm
  | armAtOnce
  | expire
  | onRefreshTimerFired
  | setHistoryFilter
  | proceed (walk : RefreshWalk) (ok : Bool)
  deriving DecidableEq, Repr

namespace HistoryRefresh

/-- The timer's thread posts the walk before it waits again. -/
def timerBusy (s : HistoryRefresh) : Bool :=
  s.fired || s.walks.any fun walk => walk.stage == .dispatching true

def step (s : HistoryRefresh) : HistoryEvent → Option HistoryRefresh
  | .tick elapsed => some { s with clock := s.clock + elapsed }
  | .refreshHistory => some s.refreshHistory
  | .arm => if 0 < s.arms then some (arm { s with arms := s.arms - 1 } kRefreshDelay) else none
  | .armAtOnce => if 0 < s.zeroArms then some (arm { s with zeroArms := s.zeroArms - 1 } 0) else none
  | .expire =>
    match s.deadline with
    | some deadline =>
      if !s.timerBusy && deadline ≤ s.clock then some { s with deadline := none, fired := true } else none
    | none => none
  | .onRefreshTimerFired => if s.fired then some s.onRefreshTimerFired else none
  | .setHistoryFilter => some s.setHistoryFilter
  | .proceed walk ok => if walk ∈ s.walks then some (s.proceed walk ok) else none

/-- No walk is queued or runs, the timer is not armed, and no thread is on its way to arm it, to
post a walk or to call back. -/
structure AtRest (s : HistoryRefresh) : Prop where
  walks : s.walks = []
  deadline : s.deadline = none
  fired : s.fired = false
  arms : s.arms = 0
  zeroArms : s.zeroArms = 0

end HistoryRefresh

end GitBranchManager
