import Mathlib.Data.List.Count
import Mathlib.Data.List.Induction
import Mathlib.Logic.Function.Basic
import Mathlib.Order.Lattice
import Mathlib.Data.Int.Order.Basic

/-! # The fetch that runs by itself

The repository that is open is fetched at once and then at an interval. A rejected credential stops this until a fetch
of the user's own succeeds. Each repository that is opened gets a scheduler of its own, also one that was open before.
-/

namespace GitBranchManager

namespace AutoFetch

inductive AutoFetchSkipReason
  | pausedAfterAuthFailure
  | autoFetchInFlight
  | dialogOpen
  | credentialPromptPending
  | conflictActive
  | foregroundOperationActive
  deriving DecidableEq, Repr

structure AutoFetchConditions where
  pausedAfterAuthFailure : Bool := false
  autoFetchInFlight : Bool := false
  dialogOpen : Bool := false
  credentialPromptPending : Bool := false
  conflictActive : Bool := false
  foregroundOperationActive : Bool := false
  deriving DecidableEq, Repr

inductive AutoFetchDecision
  | run
  | skip (reason : AutoFetchSkipReason)
  deriving DecidableEq, Repr

def decideAutoFetch (c : AutoFetchConditions) : AutoFetchDecision :=
  if c.pausedAfterAuthFailure then .skip .pausedAfterAuthFailure
  else if c.autoFetchInFlight then .skip .autoFetchInFlight
  else if c.dialogOpen then .skip .dialogOpen
  else if c.credentialPromptPending then .skip .credentialPromptPending
  else if c.conflictActive then .skip .conflictActive
  else if c.foregroundOperationActive then .skip .foregroundOperationActive
  else .run

/-- The periodic timers that are not cancelled, each with its minutes. -/
structure Timers where
  next : ℕ := 0
  live : List (ℕ × ℤ) := []
  deriving DecidableEq, Repr

namespace Timers

def periodic (t : Timers) (minutes : ℤ) : Timers := { next := t.next + 1, live := t.live ++ [(t.next, minutes)] }

def cancel (t : Timers) (timer : Option ℕ) : Timers :=
  { t with live := t.live.filter fun entry => some entry.1 ≠ timer }

end Timers

inductive Effect
  | fetch
  | paused (codeName : String)
  deriving DecidableEq, Repr

structure AutoFetchScheduler where
  timer : Option ℕ := none
  enabled : Option Bool := none
  interval : Option ℤ := none
  inFlight : Bool := false
  paused : Bool := false
  disposed : Bool := false
  deriving DecidableEq, Repr

def pausingErrorCodes : List String := ["Auth", "HostKey"]

namespace AutoFetchScheduler

variable (s : AutoFetchScheduler)

def tick (conditions : AutoFetchConditions) : AutoFetchScheduler × List Effect :=
  match decideAutoFetch { conditions with pausedAfterAuthFailure := s.paused, autoFetchInFlight := s.inFlight } with
  | .run => ({ s with inFlight := true }, [.fetch])
  | .skip _ => (s, [])

/-- Below one minute counts as one. -/
def configure (timers : Timers) (enabled : Bool) (minutes : ℤ) (conditions : AutoFetchConditions) :
    AutoFetchScheduler × Timers × List Effect :=
  if s.disposed then (s, timers, [])
  else
    let interval := max 1 minutes
    if some enabled = s.enabled ∧ (enabled = false ∨ some interval = s.interval) then (s, timers, [])
    else
      let turningOn := enabled && decide (s.enabled ≠ some true)
      let cancelled := timers.cancel s.timer
      let off := { s with enabled := some enabled, interval := some interval, timer := none }
      if !enabled then (off, cancelled, [])
      else
        let armed := { off with timer := some cancelled.next }
        let ticked := if turningOn then armed.tick conditions else (armed, [])
        (ticked.1, cancelled.periodic interval, ticked.2)

def onFetchFinished (background succeeded : Bool) (errorCodeName : Option String) : AutoFetchScheduler × List Effect :=
  if s.disposed then (s, [])
  else if background then
    let landed := { s with inFlight := false }
    match errorCodeName with
    | some codeName =>
      if !succeeded && pausingErrorCodes.contains codeName then ({ landed with paused := true }, [.paused codeName])
      else (landed, [])
    | none => (landed, [])
  else if succeeded then ({ s with paused := false }, [])
  else (s, [])

def dispose (timers : Timers) : AutoFetchScheduler × Timers :=
  ({ s with disposed := true, timer := none }, timers.cancel s.timer)

end AutoFetchScheduler

/-! ## What one call does -/

def AutoFetchConditions.Clear (c : AutoFetchConditions) : Prop :=
  c.dialogOpen = false ∧ c.credentialPromptPending = false ∧ c.conflictActive = false ∧
    c.foregroundOperationActive = false

theorem clear_of_run {c : AutoFetchConditions} (h : decideAutoFetch c = .run) :
    c.Clear ∧ c.pausedAfterAuthFailure = false ∧ c.autoFetchInFlight = false := by
  cases c with
  | mk paused inFlight dialog credential conflict foreground =>
    cases paused <;> cases inFlight <;> cases dialog <;> cases credential <;> cases conflict <;>
      cases foreground <;> simp_all [decideAutoFetch, AutoFetchConditions.Clear]

namespace AutoFetchScheduler

variable {s : AutoFetchScheduler} {timers : Timers} {enabled : Bool} {minutes : ℤ} {conditions : AutoFetchConditions}

/-- A tick does nothing, or fetches because nothing was in the way. -/
theorem tick_cases (s : AutoFetchScheduler) (conditions : AutoFetchConditions) :
    s.tick conditions = (s, []) ∨
      (conditions.Clear ∧ s.paused = false ∧ s.inFlight = false ∧
        s.tick conditions = ({ s with inFlight := true }, [.fetch])) := by
  unfold tick
  split
  next hRun =>
    obtain ⟨hClear, hPaused, hInFlight⟩ := clear_of_run hRun
    exact Or.inr ⟨hClear, hPaused, hInFlight, rfl⟩
  next => exact Or.inl rfl

/-- Whether a call fetched: only with a clear gate, unpaused, and when no fetch was running. -/
structure Fetches (s s' : AutoFetchScheduler) (effects : List Effect) (conditions : AutoFetchConditions) : Prop where
  paused : s'.paused = s.paused
  fetched : effects = [] ∧ s'.inFlight = s.inFlight ∨
    effects = [.fetch] ∧ conditions.Clear ∧ s.paused = false ∧ s.inFlight = false ∧ s'.inFlight = true

theorem fetches_tick (s : AutoFetchScheduler) (conditions : AutoFetchConditions) :
    s.Fetches (s.tick conditions).1 (s.tick conditions).2 conditions := by
  obtain hSame | ⟨hClear, hPaused, hInFlight, hTick⟩ := tick_cases s conditions
  · rw [hSame]
    exact ⟨rfl, Or.inl ⟨rfl, rfl⟩⟩
  · rw [hTick]
    exact ⟨rfl, Or.inr ⟨rfl, hClear, hPaused, hInFlight, rfl⟩⟩

/-- The timer that is armed is the scheduler's own and has its interval. -/
structure Owns (s : AutoFetchScheduler) (timers : Timers) : Prop where
  live : s.disposed = false
  armed : s.enabled = some true →
    ∃ timer minutes, s.timer = some timer ∧ s.interval = some minutes ∧ timers.live = [(timer, minutes)]
  unarmed : s.enabled ≠ some true → s.timer = none ∧ timers.live = []

theorem Owns.of_eq {s' : AutoFetchScheduler} (owns : s.Owns timers) (hDisposed : s'.disposed = s.disposed)
    (hEnabled : s'.enabled = s.enabled) (hTimer : s'.timer = s.timer) (hInterval : s'.interval = s.interval) :
    s'.Owns timers where
  live := hDisposed.trans owns.live
  armed := by
    rw [hEnabled, hTimer, hInterval]
    exact owns.armed
  unarmed := by
    rw [hEnabled, hTimer]
    exact owns.unarmed

theorem Owns.live_cancel (owns : s.Owns timers) : (timers.cancel s.timer).live = [] := by
  by_cases hEnabled : s.enabled = some true
  · obtain ⟨timer, minutes, hTimer, -, hLive⟩ := owns.armed hEnabled
    simp [Timers.cancel, hTimer, hLive]
  · obtain ⟨-, hLive⟩ := owns.unarmed hEnabled
    simp [Timers.cancel, hLive]

/-- Nothing new, the timer taken away, or a new timer in its place, perhaps with a tick. -/
theorem configure_cases (live : s.disposed = false) (timers : Timers) (enabled : Bool) (minutes : ℤ)
    (conditions : AutoFetchConditions) :
    (s.enabled = some enabled ∧ (enabled = true → s.interval = some (max 1 minutes)) ∧
      s.configure timers enabled minutes conditions = (s, timers, [])) ∨
    (enabled = false ∧ s.configure timers enabled minutes conditions =
      ({ s with enabled := some false, interval := some (max 1 minutes), timer := none }, timers.cancel s.timer, [])) ∨
    (enabled = true ∧ ∃ ticked : AutoFetchScheduler × List Effect,
      s.configure timers enabled minutes conditions =
        (ticked.1, (timers.cancel s.timer).periodic (max 1 minutes), ticked.2) ∧
      ∃ armed : AutoFetchScheduler,
        armed = { s with
          enabled := some true, interval := some (max 1 minutes), timer := some (timers.cancel s.timer).next } ∧
        (ticked = (armed, []) ∨ ticked = armed.tick conditions)) := by
  unfold configure
  rw [if_neg (by simp [live])]
  dsimp only
  split
  next hSame =>
    refine Or.inl ⟨hSame.1.symm, fun hEnabled => ?_, rfl⟩
    obtain hOff | hInterval := hSame.2
    · simp [hEnabled] at hOff
    · exact hInterval.symm
  next =>
    cases enabled with
    | false => exact Or.inr (Or.inl ⟨rfl, rfl⟩)
    | true =>
      refine Or.inr (Or.inr ⟨rfl, _, rfl, _, rfl, ?_⟩)
      split
      · exact Or.inr rfl
      · exact Or.inl rfl

/-- Set to these preferences, with its timer the only one. -/
structure Configured (s : AutoFetchScheduler) (timers : Timers) (enabled : Bool) (minutes : ℤ) : Prop where
  owns : s.Owns timers
  enabled_eq : s.enabled = some enabled
  interval_eq : enabled = true → s.interval = some (max 1 minutes)

theorem Configured.tick (configured : s.Configured timers enabled minutes) (conditions : AutoFetchConditions) :
    (s.tick conditions).1.Configured timers enabled minutes := by
  obtain hSame | ⟨-, -, -, hTick⟩ := tick_cases s conditions
  · rw [hSame]
    exact configured
  · rw [hTick]
    exact ⟨configured.owns.of_eq rfl rfl rfl rfl, configured.enabled_eq, configured.interval_eq⟩

theorem Configured.live_minutes (configured : s.Configured timers enabled minutes) :
    timers.live.map Prod.snd = if enabled then [max 1 minutes] else [] := by
  cases enabled with
  | false =>
    have hLive := (configured.owns.unarmed (by simp [configured.enabled_eq])).2
    simp [hLive]
  | true =>
    obtain ⟨timer, armed, -, hInterval, hLive⟩ := configured.owns.armed configured.enabled_eq
    have hArmed : armed = max 1 minutes := Option.some.inj (hInterval.symm.trans (configured.interval_eq rfl))
    simp [hLive, hArmed]

theorem configured_configure (owns : s.Owns timers) (enabled : Bool) (minutes : ℤ) (conditions : AutoFetchConditions) :
    let next := s.configure timers enabled minutes conditions
    next.1.Configured next.2.1 enabled minutes ∧ s.Fetches next.1 next.2.2 conditions ∧
      (enabled = false → next.2.2 = []) := by
  obtain ⟨hEnabled, hInterval, hSame⟩ | ⟨rfl, hOff⟩ | ⟨rfl, ticked, hOn, armed, hArmed, hTicked⟩ :=
    configure_cases owns.live timers enabled minutes conditions
  · rw [hSame]
    exact ⟨⟨owns, hEnabled, hInterval⟩, ⟨rfl, Or.inl ⟨rfl, rfl⟩⟩, fun _ => rfl⟩
  · rw [hOff]
    have hOwns : Owns { s with enabled := some false, interval := some (max 1 minutes), timer := none }
        (timers.cancel s.timer) :=
      ⟨owns.live, by simp, fun _ => ⟨rfl, owns.live_cancel⟩⟩
    exact ⟨⟨hOwns, rfl, by simp⟩, ⟨rfl, Or.inl ⟨rfl, rfl⟩⟩, fun _ => rfl⟩
  · rw [hOn]
    have hOwns : armed.Configured ((timers.cancel s.timer).periodic (max 1 minutes)) true minutes := by
      subst hArmed
      refine ⟨⟨owns.live, fun _ => ⟨_, _, rfl, rfl, ?_⟩, by simp⟩, rfl, fun _ => rfl⟩
      simp [Timers.periodic, owns.live_cancel]
    have hFetches : s.Fetches ticked.1 ticked.2 conditions := by
      obtain rfl | rfl := hTicked
      · exact ⟨by rw [hArmed], Or.inl ⟨rfl, by rw [hArmed]⟩⟩
      · have hTick := fetches_tick armed conditions
        rw [hArmed] at hTick ⊢
        exact ⟨hTick.paused, hTick.fetched⟩
    refine ⟨?_, hFetches, by simp⟩
    obtain rfl | rfl := hTicked
    · exact hOwns
    · exact hOwns.tick conditions

/-- What a finished fetch leaves: only the two flags can differ, and it is never a fetch. -/
theorem onFetchFinished_eq (live : s.disposed = false) (background succeeded : Bool) (errorCodeName : Option String) :
    ∃ effects : List Effect, Effect.fetch ∉ effects ∧
      s.onFetchFinished background succeeded errorCodeName =
        ({ s with
            inFlight := !background && s.inFlight
            paused := if background then
              s.paused || (!succeeded && errorCodeName.any pausingErrorCodes.contains)
            else !succeeded && s.paused }, effects) := by
  unfold onFetchFinished
  rw [if_neg (by simp [live])]
  cases background with
  | true =>
    cases errorCodeName with
    | none => exact ⟨[], by simp, by simp⟩
    | some codeName =>
      by_cases hPausing : !succeeded && pausingErrorCodes.contains codeName
      · refine ⟨[.paused codeName], by simp, ?_⟩
        simp only [if_true, hPausing, Option.any_some, Bool.or_true, Bool.not_true, Bool.false_and]
      · refine ⟨[], by simp, ?_⟩
        rw [Bool.not_eq_true] at hPausing
        simp only [if_true, hPausing, Option.any_some, Bool.or_false, Bool.not_true, Bool.false_and, Bool.false_eq_true,
          if_false]
  | false =>
    cases succeeded with
    | true => exact ⟨[], by simp, by simp⟩
    | false => exact ⟨[], by simp, by simp⟩

theorem Configured.onFetchFinished (configured : s.Configured timers enabled minutes) (background succeeded : Bool)
    (errorCodeName : Option String) :
    (s.onFetchFinished background succeeded errorCodeName).1.Configured timers enabled minutes := by
  obtain ⟨effects, -, hEq⟩ := onFetchFinished_eq configured.owns.live background succeeded errorCodeName
  rw [hEq]
  exact ⟨configured.owns.of_eq rfl rfl rfl rfl, configured.enabled_eq, configured.interval_eq⟩

end AutoFetchScheduler

/-- `unfinished` counts the fetches that were begun here and not reported, and `effects` is what the schedulers did. -/
structure AutoFetchHost (ι : Type) where
  scheduler : Option (ι × AutoFetchScheduler) := none
  enabled : Bool
  minutes : ℤ
  timers : Timers := {}
  unfinished : ι → ℕ := fun _ => 0
  effects : List (ι × Effect) := []

inductive Input (ι : Type)
  | opened (identity : ι) (conditions : AutoFetchConditions)
  | closed
  | preferences (enabled : Bool) (minutes : ℤ) (conditions : AutoFetchConditions)
  | fired (timer : ℕ) (conditions : AutoFetchConditions)
  | finished (identity : ι) (background succeeded : Bool) (errorCodeName : Option String)

namespace AutoFetchHost

variable {ι : Type}

def stop (h : AutoFetchHost ι) : AutoFetchHost ι :=
  match h.scheduler with
  | some (_, s) => { h with scheduler := none, timers := (s.dispose h.timers).2 }
  | none => h

variable [DecidableEq ι]

/-- What a scheduler did is put down under its repository. -/
def put (h : AutoFetchHost ι) (identity : ι) (s : AutoFetchScheduler) (effects : List Effect) : AutoFetchHost ι :=
  { h with
    scheduler := some (identity, s)
    unfinished := Function.update h.unfinished identity (h.unfinished identity + effects.count .fetch)
    effects := h.effects ++ effects.map (identity, ·) }

def configure (h : AutoFetchHost ι) (conditions : AutoFetchConditions) : AutoFetchHost ι :=
  match h.scheduler with
  | some (identity, s) =>
    let configured := s.configure h.timers h.enabled h.minutes conditions
    { h with timers := configured.2.1 }.put identity configured.1 configured.2.2
  | none => h

def step (h : AutoFetchHost ι) : Input ι → AutoFetchHost ι
  | .opened identity conditions => { h.stop with scheduler := some (identity, {}) }.configure conditions
  | .closed => h.stop
  | .preferences enabled minutes conditions => { h with enabled, minutes }.configure conditions
  | .fired timer conditions =>
    match h.scheduler with
    | some (identity, s) =>
      if timer ∈ h.timers.live.map Prod.fst ∧ s.timer = some timer then
        let ticked := s.tick conditions
        h.put identity ticked.1 ticked.2
      else h
    | none => h
  | .finished identity background succeeded errorCodeName =>
    let reported :=
      { h with unfinished :=
        Function.update h.unfinished identity (h.unfinished identity - if background then 1 else 0) }
    match h.scheduler with
    | some (current, s) =>
      if current = identity then
        let done := s.onFetchFinished background succeeded errorCodeName
        reported.put identity done.1 done.2
      else reported
    | none => reported

def run (enabled : Bool) (minutes : ℤ) (inputs : List (Input ι)) : AutoFetchHost ι :=
  inputs.foldl step { enabled, minutes }

end AutoFetchHost

/-! ## What is shown and what is preferred -/

namespace Input

variable {ι : Type}

def shown (current : Option ι) : Input ι → Option ι
  | .opened identity _ => some identity
  | .closed => none
  | _ => current

def preferred (current : Bool × ℤ) : Input ι → Bool × ℤ
  | .preferences enabled minutes _ => (enabled, minutes)
  | _ => current

/-- The conditions that are read when this input makes the scheduler tick. -/
def conditions? : Input ι → Option AutoFetchConditions
  | .opened _ conditions => some conditions
  | .preferences _ _ conditions => some conditions
  | .fired _ conditions => some conditions
  | _ => none

end Input

def shownAfter {ι : Type} (inputs : List (Input ι)) : Option ι := inputs.foldl Input.shown none

def preferredAfter {ι : Type} (current : Bool × ℤ) (inputs : List (Input ι)) : Bool × ℤ :=
  inputs.foldl Input.preferred current

namespace AutoFetchHost

variable {ι : Type}

/-- The scheduler that is there is set to the preferences, and without one no timer is left. -/
structure Armed (h : AutoFetchHost ι) : Prop where
  idle : h.scheduler = none → h.timers.live = []
  configured : ∀ identity s, h.scheduler = some (identity, s) → s.Configured h.timers h.enabled h.minutes

theorem Armed.live_stop {h : AutoFetchHost ι} (armed : h.Armed) : h.stop.timers.live = [] := by
  unfold stop
  split
  next identity s hScheduler => exact (armed.configured identity s hScheduler).owns.live_cancel
  next hNone => exact armed.idle hNone

@[simp]
theorem scheduler_stop (h : AutoFetchHost ι) : h.stop.scheduler = none := by
  unfold stop
  split
  next => rfl
  next hNone => exact hNone

@[simp]
theorem unfinished_stop (h : AutoFetchHost ι) : h.stop.unfinished = h.unfinished := by
  unfold stop
  split <;> rfl

@[simp]
theorem effects_stop (h : AutoFetchHost ι) : h.stop.effects = h.effects := by
  unfold stop
  split <;> rfl

@[simp]
theorem preferences_stop (h : AutoFetchHost ι) : (h.stop.enabled, h.stop.minutes) = (h.enabled, h.minutes) := by
  unfold stop
  split <;> rfl

theorem armed_init (enabled : Bool) (minutes : ℤ) : Armed ({ enabled, minutes } : AutoFetchHost ι) :=
  ⟨fun _ => rfl, by simp⟩

variable [DecidableEq ι]

/-- One call of the scheduler `s` of `identity`, which leaves `s'` and did these effects. -/
structure Called (h h' : AutoFetchHost ι) (identity : ι) (s s' : AutoFetchScheduler) (effects : List Effect)
    (conditions : AutoFetchConditions) : Prop where
  fetches : s.Fetches s' effects conditions
  configured : s'.Configured h'.timers h'.enabled h'.minutes
  off : h'.enabled = false → effects = []
  scheduler : h'.scheduler = some (identity, s')
  unfinished : h'.unfinished =
    Function.update h.unfinished identity (h.unfinished identity + effects.count .fetch)
  effects : h'.effects = h.effects ++ effects.map (identity, ·)

theorem Called.held_eq {h h' : AutoFetchHost ι} {identity current : ι} {s s' held : AutoFetchScheduler}
    {effects : List Effect} {conditions : AutoFetchConditions}
    (called : h.Called h' identity s s' effects conditions) (hHeld : h'.scheduler = some (current, held)) :
    current = identity ∧ held = s' := by
  rw [called.scheduler] at hHeld
  obtain ⟨rfl, rfl⟩ := Prod.mk.inj (Option.some.inj hHeld)
  exact ⟨rfl, rfl⟩

theorem called_configure {h : AutoFetchHost ι} {identity : ι} {s : AutoFetchScheduler}
    (hScheduler : h.scheduler = some (identity, s)) (owns : s.Owns h.timers) (conditions : AutoFetchConditions) :
    ∃ s' effects, h.Called (h.configure conditions) identity s s' effects conditions := by
  obtain ⟨hConfigured, hFetches, hOff⟩ := AutoFetchScheduler.configured_configure owns h.enabled h.minutes conditions
  refine ⟨(s.configure h.timers h.enabled h.minutes conditions).1,
    (s.configure h.timers h.enabled h.minutes conditions).2.2, ?_⟩
  have hEq : h.configure conditions =
      { h with timers := (s.configure h.timers h.enabled h.minutes conditions).2.1 }.put identity
        (s.configure h.timers h.enabled h.minutes conditions).1
        (s.configure h.timers h.enabled h.minutes conditions).2.2 := by
    simp only [configure, hScheduler]
  rw [hEq]
  exact ⟨hFetches, hConfigured, hOff, rfl, rfl, rfl⟩

theorem step_opened {h : AutoFetchHost ι} (armed : h.Armed) (identity : ι) (conditions : AutoFetchConditions) :
    ∃ s' effects, h.Called (h.step (.opened identity conditions)) identity {} s' effects conditions := by
  have owns : AutoFetchScheduler.Owns {} h.stop.timers :=
    ⟨rfl, by simp, fun _ => ⟨rfl, armed.live_stop⟩⟩
  obtain ⟨s', effects, called⟩ :=
    called_configure (h := { h.stop with scheduler := some (identity, {}) }) rfl owns conditions
  refine ⟨s', effects, called.fetches, called.configured, called.off, called.scheduler, ?_, ?_⟩
  · exact called.unfinished.trans (by rw [unfinished_stop])
  · exact called.effects.trans (by rw [effects_stop])

theorem step_preferences {h : AutoFetchHost ι} (armed : h.Armed) {identity : ι} {s : AutoFetchScheduler}
    (hScheduler : h.scheduler = some (identity, s)) (enabled : Bool) (minutes : ℤ) (conditions : AutoFetchConditions) :
    ∃ s' effects, h.Called (h.step (.preferences enabled minutes conditions)) identity s s' effects conditions := by
  have owns : s.Owns h.timers := (armed.configured identity s hScheduler).owns
  obtain ⟨s', effects, called⟩ := called_configure (h := { h with enabled, minutes }) hScheduler owns conditions
  exact ⟨s', effects, called.fetches, called.configured, called.off, called.scheduler, called.unfinished,
    called.effects⟩

theorem step_fired {h : AutoFetchHost ι} (armed : h.Armed) {identity : ι} {s : AutoFetchScheduler}
    (hScheduler : h.scheduler = some (identity, s)) (timer : ℕ) (conditions : AutoFetchConditions) :
    ∃ s' effects, h.Called (h.step (.fired timer conditions)) identity s s' effects conditions := by
  have configured := armed.configured identity s hScheduler
  simp only [step, hScheduler]
  split
  next hTimer =>
    refine ⟨_, _, s.fetches_tick conditions, configured.tick conditions, fun hOff => ?_, rfl, rfl, rfl⟩
    -- A scheduler that is off has no timer that could fire.
    have hNone := (configured.owns.unarmed (by simp [configured.enabled_eq, show h.enabled = false from hOff])).1
    simp [hNone] at hTimer
  next =>
    exact ⟨s, [], ⟨rfl, Or.inl ⟨rfl, rfl⟩⟩, configured, fun _ => rfl, hScheduler, by simp, by simp⟩

/-- A call of the scheduler that is there or of a new one, no scheduler, or a report of a finished fetch. -/
theorem step_cases {h : AutoFetchHost ι} (armed : h.Armed) (input : Input ι) :
    (∃ identity s s' effects conditions, input.conditions? = some conditions ∧
      h.Called (h.step input) identity s s' effects conditions ∧
      (s = {} ∧ input = .opened identity conditions ∨
        h.scheduler = some (identity, s) ∧ ∀ i c, input ≠ .opened i c)) ∨
    ((h.step input).scheduler = none ∧ (h.step input).timers.live = [] ∧ (∀ i c, input ≠ .opened i c) ∧
      (input = .closed ∨ h.scheduler = none) ∧
      (h.step input).unfinished = h.unfinished ∧ (h.step input).effects = h.effects) ∨
    ∃ identity background succeeded errorCodeName,
      input = .finished identity background succeeded errorCodeName := by
  cases input with
  | opened identity conditions =>
    obtain ⟨s', effects, called⟩ := step_opened armed identity conditions
    exact Or.inl ⟨identity, {}, s', effects, conditions, rfl, called, Or.inl ⟨rfl, rfl⟩⟩
  | closed =>
    exact Or.inr (Or.inl ⟨scheduler_stop h, armed.live_stop, by simp, Or.inl rfl, unfinished_stop h, effects_stop h⟩)
  | preferences enabled minutes conditions =>
    cases hScheduler : h.scheduler with
    | none =>
      refine Or.inr (Or.inl ⟨?_, ?_, by simp, Or.inr rfl, ?_, ?_⟩) <;>
        simp [step, configure, hScheduler, armed.idle hScheduler]
    | some shown =>
      obtain ⟨s', effects, called⟩ := step_preferences armed hScheduler enabled minutes conditions
      exact Or.inl ⟨_, _, s', effects, conditions, rfl, called, Or.inr ⟨rfl, by simp⟩⟩
  | fired timer conditions =>
    cases hScheduler : h.scheduler with
    | none =>
      refine Or.inr (Or.inl ⟨?_, ?_, by simp, Or.inr rfl, ?_, ?_⟩) <;>
        simp [step, hScheduler, armed.idle hScheduler]
    | some shown =>
      obtain ⟨s', effects, called⟩ := step_fired armed hScheduler timer conditions
      exact Or.inl ⟨_, _, s', effects, conditions, rfl, called, Or.inr ⟨rfl, by simp⟩⟩
  | finished identity background succeeded errorCodeName =>
    exact Or.inr (Or.inr ⟨identity, background, succeeded, errorCodeName, rfl⟩)

/-- The scheduler of another repository does not hear of it. -/
theorem step_finished {h : AutoFetchHost ι} (armed : h.Armed) (identity : ι) (background succeeded : Bool)
    (errorCodeName : Option String) :
    let next := h.step (.finished identity background succeeded errorCodeName)
    next.unfinished = Function.update h.unfinished identity (h.unfinished identity - if background then 1 else 0) ∧
    next.timers = h.timers ∧ next.enabled = h.enabled ∧ next.minutes = h.minutes ∧
    ((next.scheduler = h.scheduler ∧ next.effects = h.effects ∧ (∀ s, h.scheduler ≠ some (identity, s))) ∨
      ∃ (s : AutoFetchScheduler) (effects : List Effect), h.scheduler = some (identity, s) ∧
        next.scheduler = some (identity, (s.onFetchFinished background succeeded errorCodeName).1) ∧
        Effect.fetch ∉ effects ∧ next.effects = h.effects ++ effects.map (identity, ·)) := by
  simp only [step]
  split
  next current s hScheduler =>
    split
    next hCurrent =>
      subst hCurrent
      obtain ⟨effects, hNoFetch, hEq⟩ := AutoFetchScheduler.onFetchFinished_eq
        (armed.configured current s hScheduler).owns.live background succeeded errorCodeName
      have hCount : (s.onFetchFinished background succeeded errorCodeName).2.count .fetch = 0 :=
        List.count_eq_zero.mpr (by rw [hEq]; exact hNoFetch)
      refine ⟨?_, rfl, rfl, rfl, Or.inr ⟨s, effects, hScheduler, rfl, hNoFetch, ?_⟩⟩
      · simp [put, hCount]
      · simp [put, hEq]
    next hOther =>
      refine ⟨rfl, rfl, rfl, rfl, Or.inl ⟨hScheduler.symm ▸ rfl, rfl, fun s' hSome => hOther ?_⟩⟩
      rw [hScheduler] at hSome
      exact (Prod.mk.inj (Option.some.inj hSome)).1
  next hNone => exact ⟨rfl, rfl, rfl, rfl, Or.inl ⟨rfl, rfl, by simp [hNone]⟩⟩

theorem armed_step {h : AutoFetchHost ι} (armed : h.Armed) (input : Input ι) : (h.step input).Armed := by
  obtain ⟨identity, s, s', effects, conditions, -, called, -⟩ | ⟨hNone, hLive, -, -, -, -⟩ |
    ⟨identity, background, succeeded, errorCodeName, rfl⟩ := step_cases armed input
  · refine ⟨fun hNone => ?_, fun current held hHeld => ?_⟩
    · simp [called.scheduler] at hNone
    · obtain ⟨rfl, rfl⟩ := called.held_eq hHeld
      exact called.configured
  · exact ⟨fun _ => hLive, by simp [hNone]⟩
  · obtain ⟨-, hTimers, hEnabled, hMinutes, hScheduler⟩ :=
      step_finished armed identity background succeeded errorCodeName
    refine ⟨fun hNone => ?_, fun current held hHeld => ?_⟩
    · rw [hTimers]
      obtain ⟨hSame, -, -⟩ | ⟨s, effects, -, hSome, -⟩ := hScheduler
      · exact armed.idle (hSame.symm.trans hNone)
      · simp [hSome] at hNone
    · rw [hTimers, hEnabled, hMinutes]
      obtain ⟨hSame, -, -⟩ | ⟨s, effects, hBefore, hSome, -⟩ := hScheduler
      · exact armed.configured current held (hSame.symm.trans hHeld)
      · rw [hSome] at hHeld
        obtain ⟨rfl, rfl⟩ := Prod.mk.inj (Option.some.inj hHeld)
        exact (armed.configured identity s hBefore).onFetchFinished background succeeded errorCodeName

theorem run_append (enabled : Bool) (minutes : ℤ) (before after : List (Input ι)) :
    run enabled minutes (before ++ after) = after.foldl step (run enabled minutes before) :=
  List.foldl_append

theorem armed_run (enabled : Bool) (minutes : ℤ) (inputs : List (Input ι)) : (run enabled minutes inputs).Armed := by
  induction inputs using List.reverseRecOn with
  | nil => exact armed_init enabled minutes
  | append_singleton inputs input ih =>
    rw [run_append]
    exact armed_step ih input

theorem shown_step {h : AutoFetchHost ι} (armed : h.Armed) (input : Input ι) :
    (h.step input).scheduler.map Prod.fst = input.shown (h.scheduler.map Prod.fst) := by
  obtain ⟨identity, s, s', effects, conditions, hInput, called, hOf⟩ | ⟨hNone, -, hOpened, hBefore, -, -⟩ |
    ⟨identity, background, succeeded, errorCodeName, rfl⟩ := step_cases armed input
  · rw [called.scheduler]
    obtain ⟨-, rfl⟩ | ⟨hScheduler, hOpened⟩ := hOf
    · rfl
    · rw [hScheduler]
      cases input with
      | opened i c => exact absurd rfl (hOpened i c)
      | closed => simp [Input.conditions?] at hInput
      | preferences | fired | finished => rfl
  · rw [hNone]
    obtain rfl | hBefore := hBefore
    · rfl
    · rw [hBefore]
      cases input with
      | opened i c => exact absurd rfl (hOpened i c)
      | closed | preferences | fired | finished => rfl
  · obtain ⟨-, -, -, -, hScheduler⟩ := step_finished armed identity background succeeded errorCodeName
    obtain ⟨hSame, -, -⟩ | ⟨s, effects, hBefore, hSome, -⟩ := hScheduler
    · rw [hSame]
      rfl
    · rw [hSome, hBefore]
      rfl

@[simp]
theorem preferences_configure (h : AutoFetchHost ι) (conditions : AutoFetchConditions) :
    ((h.configure conditions).enabled, (h.configure conditions).minutes) = (h.enabled, h.minutes) := by
  unfold configure
  split <;> rfl

theorem preferred_step (h : AutoFetchHost ι) (input : Input ι) :
    ((h.step input).enabled, (h.step input).minutes) = input.preferred (h.enabled, h.minutes) := by
  cases input with
  | opened identity conditions => exact (preferences_configure _ conditions).trans (preferences_stop h)
  | closed => exact preferences_stop h
  | preferences enabled minutes conditions => exact preferences_configure _ conditions
  | fired timer conditions =>
    simp only [step]
    split
    · split <;> rfl
    · rfl
  | finished identity background succeeded errorCodeName =>
    simp only [step]
    split
    · split <;> rfl
    · rfl

theorem shown_run (enabled : Bool) (minutes : ℤ) (inputs : List (Input ι)) :
    (run enabled minutes inputs).scheduler.map Prod.fst = shownAfter inputs := by
  induction inputs using List.reverseRecOn with
  | nil => rfl
  | append_singleton inputs input ih =>
    rw [run_append, List.foldl_cons, List.foldl_nil, shown_step (armed_run enabled minutes inputs), ih]
    simp [shownAfter]

theorem preferred_run (enabled : Bool) (minutes : ℤ) (inputs : List (Input ι)) :
    ((run enabled minutes inputs).enabled, (run enabled minutes inputs).minutes) =
      preferredAfter (enabled, minutes) inputs := by
  induction inputs using List.reverseRecOn with
  | nil => rfl
  | append_singleton inputs input ih =>
    rw [run_append, List.foldl_cons, List.foldl_nil, preferred_step, ih]
    simp [preferredAfter]

/-- One timer while a repository is shown and the preference is on, with the minutes of the last preferences. -/
theorem live_minutes_run (enabled : Bool) (minutes : ℤ) (inputs : List (Input ι)) :
    (run enabled minutes inputs).timers.live.map Prod.snd =
      if (shownAfter inputs).isSome ∧ (preferredAfter (enabled, minutes) inputs).1 then
        [max 1 (preferredAfter (enabled, minutes) inputs).2]
      else [] := by
  have armed := armed_run enabled minutes inputs
  rw [← shown_run enabled minutes inputs, ← preferred_run enabled minutes inputs]
  cases hScheduler : (run enabled minutes inputs).scheduler with
  | none => simp [armed.idle hScheduler]
  | some shown =>
    rw [(armed.configured shown.1 shown.2 hScheduler).live_minutes]
    simp

/-! ## No more fetches than openings -/

/-- A repository that is shown was opened, and a cleared flag stands for an opening whose fetch is over. -/
structure Counted (h : AutoFetchHost ι) (opened : ι → ℕ) : Prop where
  clear : ∀ identity s, h.scheduler = some (identity, s) → s.inFlight = false →
    h.unfinished identity + 1 ≤ opened identity
  shown : ∀ identity s, h.scheduler = some (identity, s) → 1 ≤ opened identity
  unfinished : ∀ identity, h.unfinished identity ≤ opened identity

end AutoFetchHost

namespace Input

variable {ι : Type} [DecidableEq ι]

def opens (identity : ι) : Input ι → Bool
  | .opened current _ => decide (current = identity)
  | _ => false

/-- What can end a pause: a repository that is opened, or a fetch of the user's own that succeeded. -/
def resumes (identity : ι) : Input ι → Bool
  | .opened _ _ => true
  | .finished current false true _ => decide (current = identity)
  | _ => false

end Input

namespace AutoFetchHost

variable {ι : Type} [DecidableEq ι]

theorem Counted.call {h h' : AutoFetchHost ι} {opened : ι → ℕ} {current : ι} {s s' : AutoFetchScheduler}
    {effects : List Effect} {conditions : AutoFetchConditions}
    (called : h.Called h' current s s' effects conditions)
    (hUnfinished : ∀ identity, h.unfinished identity ≤ opened identity) (hShown : 1 ≤ opened current)
    (hClear : s.inFlight = false → h.unfinished current + 1 ≤ opened current) :
    h'.Counted opened := by
  have hCurrent : h'.unfinished current ≤ opened current ∧
      (s'.inFlight = false → h'.unfinished current + 1 ≤ opened current) := by
    rw [called.unfinished, Function.update_self]
    obtain ⟨rfl, hSame⟩ | ⟨rfl, -, -, hIdle, hBusy⟩ := called.fetches.fetched
    · exact ⟨hUnfinished current, fun hIdle => hClear (hSame ▸ hIdle)⟩
    · exact ⟨hClear hIdle, by simp [hBusy]⟩
  refine ⟨fun identity held hHeld hIdle => ?_, fun identity held hHeld => ?_, fun identity => ?_⟩
  · obtain ⟨rfl, rfl⟩ := called.held_eq hHeld
    exact hCurrent.2 hIdle
  · obtain ⟨rfl, rfl⟩ := called.held_eq hHeld
    exact hShown
  · by_cases hEq : identity = current
    · subst hEq
      exact hCurrent.1
    · rw [called.unfinished, Function.update_of_ne hEq]
      exact hUnfinished identity

theorem counted_step {h : AutoFetchHost ι} {opened : ι → ℕ} (armed : h.Armed) (counted : h.Counted opened)
    (input : Input ι) :
    (h.step input).Counted fun identity => opened identity + if input.opens identity then 1 else 0 := by
  obtain ⟨identity, s, s', effects, conditions, -, called, hOf⟩ | ⟨hNone, -, hOpened, -, hUnfinished, -⟩ |
    ⟨identity, background, succeeded, errorCodeName, rfl⟩ := step_cases armed input
  · have hLe (current : ι) : h.unfinished current ≤ opened current + if input.opens current then 1 else 0 :=
      (counted.unfinished current).trans (Nat.le_add_right _ _)
    obtain ⟨rfl, rfl⟩ | ⟨hScheduler, -⟩ := hOf
    · have hOpens : Input.opens identity (.opened identity conditions) = true := by simp [Input.opens]
      refine Counted.call called hLe (by simp [hOpens]) fun _ => ?_
      simpa [hOpens] using counted.unfinished identity
    · refine Counted.call called hLe ((counted.shown identity s hScheduler).trans (Nat.le_add_right _ _)) ?_
      exact fun hIdle => (counted.clear identity s hScheduler hIdle).trans (Nat.le_add_right _ _)
  · refine ⟨by simp [hNone], by simp [hNone], fun current => ?_⟩
    rw [hUnfinished]
    exact (counted.unfinished current).trans (Nat.le_add_right _ _)
  · obtain ⟨hUnfinished, -, -, -, hScheduler⟩ := step_finished armed identity background succeeded errorCodeName
    have hLe (current : ι) : (h.step (.finished identity background succeeded errorCodeName)).unfinished current ≤
        h.unfinished current := by
      rw [hUnfinished]
      by_cases hEq : current = identity
      · subst hEq
        simp
      · rw [Function.update_of_ne hEq]
    simp only [Input.opens, Bool.false_eq_true, if_false, Nat.add_zero]
    refine ⟨fun current held hHeld hIdle => ?_, fun current held hHeld => ?_,
      fun current => (hLe current).trans (counted.unfinished current)⟩
    · obtain ⟨hSame, -, -⟩ | ⟨s, effects, hBefore, hSome, -⟩ := hScheduler
      · have := counted.clear current held (hSame.symm.trans hHeld) hIdle
        have := hLe current
        omega
      · rw [hSome] at hHeld
        obtain ⟨rfl, rfl⟩ := Prod.mk.inj (Option.some.inj hHeld)
        obtain ⟨effects', -, hEq⟩ := AutoFetchScheduler.onFetchFinished_eq
          (armed.configured identity s hBefore).owns.live background succeeded errorCodeName
        have hOpened := counted.shown identity s hBefore
        have hCount := counted.unfinished identity
        rw [hUnfinished, Function.update_self]
        cases background with
        | true =>
          simp only [if_true]
          omega
        | false =>
          have hWas : s.inFlight = false := by simpa [hEq] using hIdle
          simpa using counted.clear identity s hBefore hWas
    · obtain ⟨hSame, -, -⟩ | ⟨s, effects, hBefore, hSome, -⟩ := hScheduler
      · exact counted.shown current held (hSame.symm.trans hHeld)
      · rw [hSome] at hHeld
        obtain ⟨rfl, rfl⟩ := Prod.mk.inj (Option.some.inj hHeld)
        exact counted.shown identity s hBefore

theorem counted_run (enabled : Bool) (minutes : ℤ) (inputs : List (Input ι)) :
    (run enabled minutes inputs).Counted fun identity => inputs.countP (Input.opens identity) := by
  induction inputs using List.reverseRecOn with
  | nil => exact ⟨by simp [run], by simp [run], fun _ => Nat.le_refl 0⟩
  | append_singleton inputs input ih =>
    rw [run_append]
    simpa [List.countP_append, List.countP_singleton] using
      counted_step (armed_run enabled minutes inputs) ih input

-- The report of the first fetch lets the second scheduler's timer begin a third while the second is still running.
example : 2 =
    (run true 5 [Input.opened 4 {}, .closed, .opened 4 {}, .finished 4 true true none, .fired 1 {}]).unfinished 4 := by
  decide

/-! ## When a fetch begins -/

theorem fetch_mem_step {h : AutoFetchHost ι} (armed : h.Armed) {input : Input ι} {identity : ι}
    (hMem : (identity, Effect.fetch) ∈ (h.step input).effects) :
    (identity, Effect.fetch) ∈ h.effects ∨
      ∃ conditions, input.conditions? = some conditions ∧ conditions.Clear ∧
        (h.step input).scheduler.map Prod.fst = some identity ∧ (h.step input).enabled = true := by
  obtain ⟨current, s, s', effects, conditions, hInput, called, -⟩ | ⟨-, -, -, -, -, hEffects⟩ |
    ⟨current, background, succeeded, errorCodeName, rfl⟩ := step_cases armed input
  · rw [called.effects, List.mem_append] at hMem
    refine hMem.imp_right fun hNew => ?_
    obtain ⟨effect, hEffect, hPair⟩ := List.mem_map.mp hNew
    obtain ⟨rfl, rfl⟩ := Prod.mk.inj hPair
    obtain ⟨rfl, -⟩ | ⟨rfl, hClear, -, -, -⟩ := called.fetches.fetched
    · simp at hEffect
    · refine ⟨conditions, hInput, hClear, by simp [called.scheduler], ?_⟩
      by_contra hOff
      simpa using called.off (Bool.eq_false_iff.mpr hOff)
  · exact Or.inl (hEffects ▸ hMem)
  · obtain ⟨-, -, -, -, ⟨-, hSame, -⟩ | ⟨s, effects, -, -, hNoFetch, hEffects⟩⟩ :=
      step_finished armed current background succeeded errorCodeName
    · exact Or.inl (hSame ▸ hMem)
    · rw [hEffects, List.mem_append] at hMem
      refine Or.inl (hMem.resolve_right fun hNew => ?_)
      obtain ⟨effect, hEffect, hPair⟩ := List.mem_map.mp hNew
      exact hNoFetch ((Prod.mk.inj hPair).2 ▸ hEffect)

def Pausing (h : AutoFetchHost ι) (identity : ι) : Prop :=
  ∀ current s, h.scheduler = some (current, s) → current = identity ∧ s.paused = true

def fetches (h : AutoFetchHost ι) : List (ι × Effect) := h.effects.filter fun entry => entry.2 = .fetch

theorem fetches_finished {h : AutoFetchHost ι} (armed : h.Armed) (identity : ι) (background succeeded : Bool)
    (errorCodeName : Option String) :
    (h.step (.finished identity background succeeded errorCodeName)).fetches = h.fetches := by
  obtain ⟨-, -, -, -, ⟨-, hEffects, -⟩ | ⟨s, effects, -, -, hNoFetch, hEffects⟩⟩ :=
    step_finished armed identity background succeeded errorCodeName
  · rw [fetches, hEffects, fetches]
  · have hNone : (effects.map (identity, ·)).filter (fun entry => entry.2 = .fetch) = [] := by
      refine List.filter_eq_nil_iff.mpr fun entry hEntry => ?_
      obtain ⟨effect, hEffect, rfl⟩ := List.mem_map.mp hEntry
      simpa using fun hFetch : effect = .fetch => hNoFetch (hFetch ▸ hEffect)
    rw [fetches, hEffects, List.filter_append, hNone, List.append_nil, fetches]

/-- The scheduler that hears of a finished fetch pauses on a rejected credential and resumes on the user's success. -/
theorem paused_finished {h : AutoFetchHost ι} (armed : h.Armed) {identity : ι} {s held : AutoFetchScheduler}
    (hScheduler : h.scheduler = some (identity, s)) {current : ι} {background succeeded : Bool}
    {errorCodeName : Option String}
    (hHeld : (h.step (.finished identity background succeeded errorCodeName)).scheduler = some (current, held)) :
    current = identity ∧ held.paused = if background then
      s.paused || (!succeeded && errorCodeName.any pausingErrorCodes.contains) else !succeeded && s.paused := by
  obtain ⟨-, -, -, -, ⟨-, -, hOther⟩ | ⟨before, effects, hBefore, hAfter, -, -⟩⟩ :=
    step_finished armed identity background succeeded errorCodeName
  · exact absurd hScheduler (hOther s)
  · rw [hScheduler] at hBefore
    obtain ⟨-, rfl⟩ := Prod.mk.inj (Option.some.inj hBefore)
    rw [hAfter] at hHeld
    obtain ⟨rfl, rfl⟩ := Prod.mk.inj (Option.some.inj hHeld)
    obtain ⟨_, _, hEq⟩ := AutoFetchScheduler.onFetchFinished_eq
      (armed.configured identity s hScheduler).owns.live background succeeded errorCodeName
    exact ⟨rfl, by rw [hEq]⟩

theorem pausing_step {h : AutoFetchHost ι} (armed : h.Armed) {identity : ι} (pausing : h.Pausing identity)
    {input : Input ι} (hInput : input.resumes identity = false) :
    (h.step input).Pausing identity ∧ (h.step input).fetches = h.fetches := by
  obtain ⟨current, s, s', effects, conditions, -, called, hOf⟩ | ⟨hNone, -, -, -, -, hEffects⟩ |
    ⟨current, background, succeeded, errorCodeName, rfl⟩ := step_cases armed input
  · obtain ⟨rfl, rfl⟩ | ⟨hScheduler, -⟩ := hOf
    · simp [Input.resumes] at hInput
    · obtain ⟨rfl, hPaused⟩ := pausing current s hScheduler
      have hNothing : effects = [] := by
        obtain ⟨hNothing, -⟩ | ⟨-, -, hUnpaused, -⟩ := called.fetches.fetched
        · exact hNothing
        · simp [hPaused] at hUnpaused
      refine ⟨fun held s'' hHeld => ?_, by simp [fetches, called.effects, hNothing]⟩
      obtain ⟨rfl, rfl⟩ := called.held_eq hHeld
      exact ⟨rfl, called.fetches.paused.trans hPaused⟩
  · exact ⟨fun held s hHeld => by simp [hNone] at hHeld, by simp [fetches, hEffects]⟩
  · refine ⟨fun held s'' hHeld => ?_, fetches_finished armed current background succeeded errorCodeName⟩
    obtain ⟨-, -, -, -, ⟨hScheduler, -, -⟩ | ⟨s, effects, hBefore, -, -, -⟩⟩ :=
      step_finished armed current background succeeded errorCodeName
    · exact pausing held s'' (hScheduler.symm.trans hHeld)
    · obtain ⟨rfl, hPaused⟩ := pausing current s hBefore
      obtain ⟨rfl, hEq⟩ := paused_finished armed hBefore hHeld
      refine ⟨rfl, hEq.trans ?_⟩
      cases background with
      | true => simp [hPaused]
      | false =>
        cases succeeded with
        | true => simp [Input.resumes] at hInput
        | false => simp [hPaused]

theorem pausing_foldl {h : AutoFetchHost ι} (armed : h.Armed) {identity : ι} (pausing : h.Pausing identity)
    {inputs : List (Input ι)} (hInputs : ∀ input ∈ inputs, input.resumes identity = false) :
    (inputs.foldl step h).fetches = h.fetches := by
  induction inputs generalizing h with
  | nil => rfl
  | cons input inputs ih =>
    obtain ⟨hPausing, hFetches⟩ := pausing_step armed pausing (hInputs input List.mem_cons_self)
    rw [List.foldl_cons, ih (armed_step armed input) hPausing fun later hLater =>
      hInputs later (List.mem_cons_of_mem input hLater), hFetches]

/-- After a rejected credential nothing is fetched until a repository is opened or the user fetches with success. -/
theorem fetches_run_of_rejected (enabled : Bool) (minutes : ℤ) {before after : List (Input ι)} {identity : ι}
    {codeName : String} (hShown : shownAfter before = some identity) (hCode : codeName ∈ pausingErrorCodes)
    (hAfter : ∀ input ∈ after, input.resumes identity = false) :
    (run enabled minutes (before ++ .finished identity true false (some codeName) :: after)).fetches =
      (run enabled minutes before).fetches := by
  have armed := armed_run enabled minutes before
  have hHere : (run enabled minutes before).scheduler.map Prod.fst = some identity :=
    (shown_run enabled minutes before).trans hShown
  obtain ⟨⟨current, s⟩, hScheduler, rfl⟩ := Option.map_eq_some_iff.mp hHere
  have hPausing :
      ((run enabled minutes before).step (.finished current true false (some codeName))).Pausing current := by
    intro held s' hHeld
    obtain ⟨rfl, hEq⟩ := paused_finished armed hScheduler hHeld
    exact ⟨rfl, hEq.trans (by simp [hCode])⟩
  rw [run_append, List.foldl_cons, pausing_foldl (armed_step armed _) hPausing hAfter,
    fetches_finished armed current true false (some codeName)]

theorem fetches_run_of_rejected_auth :
    (run true 5 [Input.opened 4 {}, .finished 4 true false (some "Auth"), .fired 0 {}, .preferences false 5 {},
        .preferences true 1 {}, .finished 4 false false none]).fetches =
      (run true 5 [Input.opened 4 {}]).fetches :=
  fetches_run_of_rejected true 5 (show shownAfter [Input.opened 4 {}] = some 4 by decide)
    (show "Auth" ∈ pausingErrorCodes by decide) (by decide)

end AutoFetchHost

end AutoFetch

end GitBranchManager
