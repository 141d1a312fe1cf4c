/-! # Coalescing of refresh requests

The debouncer decides when a refresh starts, the coalescer what it covers, and the driver is
the one the coalescer asks for: one restartable single-shot timer, on one thread. Times count
nanoseconds since the epoch of the steady clock.
-/

namespace GitBranchManager

structure Debouncer where
  delay : Nat
  lastEvent : Nat := 0
  pending : Bool := false
  running : Bool := false
  dirty : Bool := false
  deriving DecidableEq, Repr

namespace Debouncer

def notifyEvent (d : Debouncer) (now : Nat) : Debouncer := { d with lastEvent := now, pending := true }

def shouldFire (d : Debouncer) (now : Nat) : Bool × Debouncer :=
  if d.running then (false, if d.pending then { d with dirty := true } else d)
  else if !d.pending then (false, d)
  else if now - d.lastEvent < d.delay then (false, d)
  else (true, { d with pending := false, running := true })

def finish (d : Debouncer) : Bool × Debouncer :=
  if d.dirty then (true, { d with running := false, dirty := false, pending := true, lastEvent := 0 })
  else (false, { d with running := false })

end Debouncer

inductive GraphUpdateOrigin
  | explicit
  | autoFetchResync
  deriving DecidableEq, Repr

structure PendingRefresh where
  wantsRefs : Bool := false
  wantsHistory : Bool := false
  origin : GraphUpdateOrigin := .explicit
  deriving DecidableEq, Repr

inductive RefreshAction
  | arm
  | fold
  deriving DecidableEq, Repr

/-- `kDelay` of the source: 150 ms. -/
def kRefreshDelay : Nat := 150 * 1000000

structure RefreshCoalescer where
  debouncer : Debouncer := { delay := kRefreshDelay }
  generation : Nat := 0
  pendingWantsRefs : Bool := false
  pendingWantsHistory : Bool := false
  pendingHasExplicit : Bool := false
  deriving DecidableEq, Repr

namespace RefreshCoalescer

def mergeIntoPending (c : RefreshCoalescer) (asked : PendingRefresh) : RefreshCoalescer :=
  { c with
    pendingWantsRefs := c.pendingWantsRefs || asked.wantsRefs
    pendingWantsHistory := c.pendingWantsHistory || asked.wantsHistory
    pendingHasExplicit := c.pendingHasExplicit || asked.origin == .explicit }

def request (c : RefreshCoalescer) (asked : PendingRefresh) (now : Nat) :
    RefreshAction × RefreshCoalescer :=
  (if c.debouncer.running then .fold else .arm,
    { c.mergeIntoPending asked with
      debouncer := ((c.debouncer.notifyEvent now).shouldFire now).2 })

/-- The generation of the run that starts, or 0. -/
def onTimeout (c : RefreshCoalescer) (now : Nat) : Nat × RefreshCoalescer :=
  match c.debouncer.shouldFire now with
  | (false, debouncer) => (0, { c with debouncer })
  | (true, debouncer) => (c.generation + 1, { c with debouncer, generation := c.generation + 1 })

def fireNow (c : RefreshCoalescer) (asked : PendingRefresh) (now : Nat) : Nat × RefreshCoalescer :=
  let debouncer : Debouncer := { delay := kRefreshDelay }
  (c.generation + 1,
    { c.mergeIntoPending asked with
      debouncer := ((debouncer.notifyEvent 0).shouldFire now).2
      generation := c.generation + 1 })

def onFinished (c : RefreshCoalescer) (generation : Nat) : Bool × RefreshCoalescer :=
  if generation = 0 ∨ generation ≠ c.generation then (false, c)
  else (c.debouncer.finish.1, { c with debouncer := c.debouncer.finish.2 })

def takePending (c : RefreshCoalescer) : PendingRefresh × RefreshCoalescer :=
  ({ wantsRefs := c.pendingWantsRefs
     wantsHistory := c.pendingWantsHistory
     origin := if c.pendingHasExplicit then .explicit else .autoFetchResync },
    { c with pendingWantsRefs := false, pendingWantsHistory := false, pendingHasExplicit := false })

def reset (c : RefreshCoalescer) : RefreshCoalescer :=
  { c with
    debouncer := { delay := kRefreshDelay }
    pendingWantsRefs := false
    pendingWantsHistory := false
    pendingHasExplicit := false }

end RefreshCoalescer

inductive RefreshRecord
  | requested (asked : PendingRefresh) (folded : Bool)
  | started (generation : Nat) (batch : PendingRefresh)
  | dropped
  deriving DecidableEq, Repr

/-- `deadline` is the armed timer's, `fired` says that it ran out and its callback is still to
come, `runs` are the runs that have not reported; `log` records the calls, which no call reads. -/
structure RefreshDriver where
  coalescer : RefreshCoalescer := {}
  clock : Nat := 0
  deadline : Option Nat := none
  fired : Bool := false
  runs : List Nat := []
  log : List RefreshRecord := []
  deriving DecidableEq, Repr

inductive RefreshEvent
  | tick (elapsed : Nat)
  | request (asked : PendingRefresh)
  | expire
  | onTimeout
  | fireNow (asked : PendingRefresh)
  | onFinished (generation : Nat)
  | reset
  deriving DecidableEq, Repr

namespace RefreshDriver

def start (s : RefreshDriver) (generation : Nat) (coalescer : RefreshCoalescer) : RefreshDriver :=
  { s with
    coalescer := coalescer.takePending.2
    runs := s.runs ++ [generation]
    log := s.log ++ [.started generation coalescer.takePending.1] }

/-- A run may report any number of times, under any generation. -/
def step (s : RefreshDriver) : RefreshEvent → Option RefreshDriver
  | .tick elapsed => some { s with clock := s.clock + elapsed }
  | .request asked =>
    match s.coalescer.request asked s.clock with
    | (.arm, coalescer) =>
      some { s with
        coalescer
        deadline := some (s.clock + kRefreshDelay)
        log := s.log ++ [.requested asked false] }
    | (.fold, coalescer) => some { s with coalescer, log := s.log ++ [.requested asked true] }
  | .expire =>
    match s.deadline with
    | some deadline => if deadline ≤ s.clock then some { s with deadline := none, fired := true } else none
    | none => none
  | .onTimeout =>
    if s.fired then
      match s.coalescer.onTimeout s.clock with
      | (0, coalescer) => some { s with coalescer, fired := false }
      | (generation + 1, coalescer) => some (start { s with fired := false } (generation + 1) coalescer)
    else none
  | .fireNow asked =>
    let (generation, coalescer) := s.coalescer.fireNow asked s.clock
    some (start { s with log := s.log ++ [.requested asked false] } generation coalescer)
  | .onFinished generation =>
    let (again, coalescer) := s.coalescer.onFinished generation
    some { s with
      coalescer
      deadline := if again then some s.clock else s.deadline
      runs := s.runs.filter (· ≠ generation) }
  | .reset => some { s with coalescer := s.coalescer.reset, log := s.log ++ [.dropped] }

end RefreshDriver

end GitBranchManager
