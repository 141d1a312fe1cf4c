import GitBranchManager.Base.Bytes
import GitBranchManager.Library.Cuts
import Mathlib.Data.List.Forall2

/-! # Repeated native errors

A failing loop reports the same error again and again. The first report of a run goes out at once, the
others are counted, and two timers say when a count goes out. A timer that has been cancelled, or has
fired, does not fire.
-/

namespace GitBranchManager

namespace NativeErrors

structure NativeErrorReport (τ : Type) where
  when : τ
  «where» : Utf16
  summary : Utf16
  logPath : Utf16
  deriving DecidableEq, Repr

inductive Callback
  | endRun
  | onMaxWait
  deriving DecidableEq, Repr

/-- The clock: how many timers were started, and those of them that can still fire. -/
structure Timers where
  started : ℕ := 0
  active : List (ℕ × Callback) := []
  deriving DecidableEq, Repr

namespace Timers

def startTimer (t : Timers) (callback : Callback) : Timers :=
  { started := t.started + 1, active := t.active ++ [(t.started, callback)] }

def cancel (t : Timers) (timer : Option ℕ) : Timers :=
  { t with active := t.active.filter fun other => timer != some other.1 }

end Timers

structure NativeErrorCoalescer (τ : Type) where
  latest : Option (NativeErrorReport τ) := none
  repeats : ℕ := 0
  quietTimer : Option ℕ := none
  maxTimer : Option ℕ := none
  disposed : Bool := false
  timers : Timers := {}
  emitted : List (NativeErrorReport τ) := []

variable {τ : Type}

def countLine (latest : NativeErrorReport τ) (repeats : ℕ) : NativeErrorReport τ :=
  { latest with summary := latest.summary ++ utf16 (" (repeated x" ++ toString repeats ++ ")") }

def isRepeat (latest report : NativeErrorReport τ) : Bool :=
  latest.where == report.where && latest.summary == report.summary

namespace NativeErrorCoalescer

def emit (c : NativeErrorCoalescer τ) (report : NativeErrorReport τ) : NativeErrorCoalescer τ :=
  { c with emitted := c.emitted ++ [report] }

def flushCount (c : NativeErrorCoalescer τ) : NativeErrorCoalescer τ :=
  match c.latest with
  | none => c
  | some latest => if c.repeats = 0 then c else { c with repeats := 0 }.emit (countLine latest c.repeats)

def endRun (c : NativeErrorCoalescer τ) : NativeErrorCoalescer τ :=
  let c := { c with timers := c.timers.cancel c.quietTimer, quietTimer := none }
  let c := { c with timers := c.timers.cancel c.maxTimer, maxTimer := none }
  { c.flushCount with latest := none }

def onMaxWait (c : NativeErrorCoalescer τ) : NativeErrorCoalescer τ := { c with maxTimer := none }.flushCount

/-- `_maxTimer ??= _startTimer(maxWait, _onMaxWait)` -/
def startMaxTimer (c : NativeErrorCoalescer τ) : NativeErrorCoalescer τ :=
  match c.maxTimer with
  | some _ => c
  | none => { c with maxTimer := some c.timers.started, timers := c.timers.startTimer .onMaxWait }

def restartQuietTimer (c : NativeErrorCoalescer τ) : NativeErrorCoalescer τ :=
  { c with quietTimer := some c.timers.started
           timers := (c.timers.cancel c.quietTimer).startTimer .endRun }

def takeReport (c : NativeErrorCoalescer τ) (report : NativeErrorReport τ) : NativeErrorCoalescer τ :=
  if c.latest.any (isRepeat · report) then
    { c with latest := some report, repeats := c.repeats + 1 }.startMaxTimer
  else
    { c.endRun with latest := some report }.emit report

def add (c : NativeErrorCoalescer τ) (report : NativeErrorReport τ) : NativeErrorCoalescer τ :=
  if c.disposed then c else (c.takeReport report).restartQuietTimer

def dispose (c : NativeErrorCoalescer τ) : NativeErrorCoalescer τ :=
  if c.disposed then c else { c with disposed := true }.endRun

def call (c : NativeErrorCoalescer τ) : Callback → NativeErrorCoalescer τ
  | .endRun => c.endRun
  | .onMaxWait => c.onMaxWait

end NativeErrorCoalescer

inductive Event (τ : Type)
  | add (report : NativeErrorReport τ)
  | fire (timer : ℕ)

namespace NativeErrorCoalescer

/-- A timer can fire once, and only if nothing cancels it before. -/
def step (c : NativeErrorCoalescer τ) : Event τ → NativeErrorCoalescer τ
  | .add report => c.add report
  | .fire timer =>
    match c.timers.active.find? fun other => other.1 == timer with
    | none => c
    | some (_, callback) => { c with timers := c.timers.cancel (some timer) }.call callback

def run (c : NativeErrorCoalescer τ) (events : List (Event τ)) : NativeErrorCoalescer τ := events.foldl step c

end NativeErrorCoalescer

/-! ## What is heard -/

inductive Heard (τ : Type)
  | report (report : NativeErrorReport τ)
  | quiet
  deriving DecidableEq, Repr

namespace Heard

def continues : Heard τ → Heard τ → Bool
  | .report latest, .report next => isRepeat latest next
  | _, _ => false

def report? : Heard τ → Option (NativeErrorReport τ)
  | .report r => some r
  | .quiet => none

end Heard

/-- The reports of an error coming in, and the gaps between them that are long enough to count. -/
def heard (c : NativeErrorCoalescer τ) : List (Event τ) → List (Heard τ)
  | [] => []
  | .add report :: events => .report report :: heard (c.step (.add report)) events
  | .fire timer :: events =>
    if (timer, .endRun) ∈ c.timers.active then .quiet :: heard (c.step (.fire timer)) events
    else heard (c.step (.fire timer)) events

/-- The longest groups of equal reports with neither another report nor a gap between them. -/
def runs (sounds : List (Heard τ)) : List (List (NativeErrorReport τ)) :=
  ((sounds.splitBy Heard.continues).map (List.filterMap Heard.report?)).filter fun group => !group.isEmpty

/-- A line that says how many reports a part of a run has, with what is known of the last of them. -/
def Counts (part : List (NativeErrorReport τ)) (line : NativeErrorReport τ) : Prop :=
  ∃ latest, part.getLast? = some latest ∧ line = countLine latest part.length

/-- The first report of a run, and then lines for the others: each of them is counted once. -/
def Accounts (group out : List (NativeErrorReport τ)) : Prop :=
  ∃ first parts lines, group = first :: parts.flatten ∧ out = first :: lines ∧ List.Forall₂ Counts parts lines

/-! ## Runs -/

section Groups

variable {sounds : List (Heard τ)} {closed : List (List (NativeErrorReport τ))}
  {group : List (NativeErrorReport τ)} {latest report : NativeErrorReport τ}

theorem runs_concat_quiet (sounds : List (Heard τ)) : runs (sounds ++ [.quiet]) = runs sounds := by
  have hApart : ∀ last ∈ sounds.getLast?, Heard.continues last .quiet = false := fun last _ => by
    cases last <;> rfl
  have hQuiet : [(.quiet : Heard τ)].splitBy Heard.continues = [[.quiet]] := rfl
  rw [runs, List.splitBy_append_cons [] hApart, hQuiet, List.map_append, List.filter_append]
  exact List.append_nil _

theorem runs_concat_new (h : ∀ last ∈ sounds.getLast?, Heard.continues last (.report report) = false) :
    runs (sounds ++ [.report report]) = runs sounds ++ [[report]] := by
  have hOne : [Heard.report report].splitBy Heard.continues = [[.report report]] := rfl
  rw [runs, List.splitBy_append_cons [] h, hOne, List.map_append, List.filter_append]
  rfl

theorem runs_concat_repeat (hLast : sounds.getLast? = some (.report latest)) (hSame : isRepeat latest report = true)
    (h : runs sounds = closed ++ [group]) : runs (sounds ++ [.report report]) = closed ++ [group ++ [report]] := by
  have hFlat := List.flatten_splitBy Heard.continues sounds
  have hNil := List.nil_notMem_splitBy Heard.continues sounds
  rw [runs] at h
  obtain hNone | ⟨front, last, hGroups⟩ := List.eq_nil_or_concat (sounds.splitBy Heard.continues)
  · rw [List.splitBy_eq_nil.mp hNone] at hLast
    cases hLast
  · rw [List.concat_eq_append] at hGroups
    rw [hGroups] at hFlat hNil h
    have hSome : last ≠ [] := fun hEmpty => hNil (List.mem_append_right _ (List.mem_singleton.mpr hEmpty.symm))
    have hEnd : last.getLast? = some (.report latest) := by
      rw [← hLast, ← hFlat, List.flatten_append, List.flatten_singleton, List.getLast?_append_of_ne_nil _ hSome]
    have hMore : last.filterMap Heard.report? ++ [report] =
        (last ++ [Heard.report report]).filterMap Heard.report? := by
      rw [List.filterMap_append]
      rfl
    have hKept : last.filterMap Heard.report? ≠ [] :=
      List.ne_nil_of_mem (List.mem_filterMap.mpr ⟨_, List.mem_of_getLast? hEnd, rfl⟩)
    have hLastRun : ∀ group : List (NativeErrorReport τ), group ≠ [] →
        [group].filter (fun group => !group.isEmpty) = [group] := fun group hSome => by
      cases group with
      | nil => exact absurd rfl hSome
      | cons first rest => rfl
    have hJoins : Heard.continues (.report latest) (.report report) = true := hSame
    rw [List.map_append, List.filter_append, List.map_singleton, hLastRun _ hKept] at h
    obtain ⟨rfl, hGroup⟩ := List.append_inj' h rfl
    rw [runs, Library.Groups.splitBy_concat hGroups hEnd hJoins, List.map_append, List.filter_append,
      List.map_singleton, ← hMore, hLastRun _ (List.append_ne_nil_of_left_ne_nil hKept _), (List.cons.inj hGroup).1]

end Groups

/-! ## Timers -/

namespace NativeErrorCoalescer

variable {c : NativeErrorCoalescer τ} {timer : ℕ} {callback : Callback}

theorem mem_cancel {t : Timers} {cancelled : Option ℕ} :
    (timer, callback) ∈ (t.cancel cancelled).active ↔ (timer, callback) ∈ t.active ∧ cancelled ≠ some timer := by
  rw [Timers.cancel, List.mem_filter, bne_iff_ne]

theorem mem_startTimer {t : Timers} {started : Callback} :
    (timer, callback) ∈ (t.startTimer started).active ↔
      (timer, callback) ∈ t.active ∨ timer = t.started ∧ callback = started := by
  rw [Timers.startTimer, List.mem_append, List.mem_singleton, Prod.mk.injEq]

theorem flushCount_of_zero (h : c.repeats = 0) : c.flushCount = c := by
  rw [flushCount]
  split
  next => rfl
  next => exact if_pos h

theorem flushCount_of_latest {latest : NativeErrorReport τ} (h : c.latest = some latest) (hSome : c.repeats ≠ 0) :
    c.flushCount = { c with repeats := 0 }.emit (countLine latest c.repeats) := by
  obtain ⟨_, repeats, quietTimer, maxTimer, disposed, timers, emitted⟩ := c
  subst h
  exact if_neg hSome

/-- Counting says nothing to the clock. -/
theorem flushCount_eq (c : NativeErrorCoalescer τ) :
    ∃ repeats emitted, c.flushCount = { c with repeats := repeats, emitted := emitted } := by
  rw [flushCount]
  split
  next => exact ⟨c.repeats, c.emitted, rfl⟩
  next latest hLatest =>
    split
    next => exact ⟨c.repeats, c.emitted, rfl⟩
    next => exact ⟨0, c.emitted ++ [countLine latest c.repeats], by rw [emit]⟩

theorem endRun_eq (c : NativeErrorCoalescer τ) : ∃ repeats emitted, c.endRun =
    { c with repeats := repeats, emitted := emitted, latest := none, quietTimer := none, maxTimer := none
             timers := (c.timers.cancel c.quietTimer).cancel c.maxTimer } := by
  obtain ⟨repeats, emitted, hFlush⟩ := flushCount_eq
    { c with quietTimer := none, maxTimer := none, timers := (c.timers.cancel c.quietTimer).cancel c.maxTimer }
  refine ⟨repeats, emitted, ?_⟩
  rw [endRun]
  exact congrArg (fun c : NativeErrorCoalescer τ => { c with latest := none }) hFlush

/-- The timers that can fire are those that the coalescer holds. -/
structure Held (c : NativeErrorCoalescer τ) : Prop where
  quiet : ∀ timer, (timer, .endRun) ∈ c.timers.active ↔ c.quietTimer = some timer
  max : ∀ timer, (timer, .onMaxWait) ∈ c.timers.active ↔ c.maxTimer = some timer
  started : ∀ timer callback, (timer, callback) ∈ c.timers.active → timer < c.timers.started
  apart : ∀ timer, c.quietTimer = some timer → c.maxTimer ≠ some timer

namespace Held

theorem of_none (hActive : c.timers.active = []) (hQuiet : c.quietTimer = none) (hMax : c.maxTimer = none) :
    Held c := by
  refine ⟨fun timer => ?_, fun timer => ?_, fun timer callback hMem => ?_, fun timer hSome => ?_⟩
  · rw [hActive, hQuiet]
    exact iff_of_false List.not_mem_nil (Option.some_ne_none timer).symm
  · rw [hActive, hMax]
    exact iff_of_false List.not_mem_nil (Option.some_ne_none timer).symm
  · rw [hActive] at hMem
    cases hMem
  · rw [hQuiet] at hSome
    cases hSome

theorem congr {c' : NativeErrorCoalescer τ} (h : Held c) (hTimers : c'.timers = c.timers)
    (hQuiet : c'.quietTimer = c.quietTimer) (hMax : c'.maxTimer = c.maxTimer) : Held c' := by
  refine ⟨?_, ?_, ?_, ?_⟩
  · rw [hTimers, hQuiet]
    exact h.quiet
  · rw [hTimers, hMax]
    exact h.max
  · rw [hTimers]
    exact h.started
  · rw [hQuiet, hMax]
    exact h.apart

end Held

/-- The end of a run leaves no timer, also when one of the two has just fired. -/
theorem endRun_timers (h : ∀ timer callback, (timer, callback) ∈ c.timers.active →
    c.quietTimer = some timer ∨ c.maxTimer = some timer) :
    c.endRun.timers.active = [] ∧ c.endRun.quietTimer = none ∧ c.endRun.maxTimer = none := by
  obtain ⟨repeats, emitted, hEq⟩ := endRun_eq c
  rw [hEq]
  refine ⟨List.eq_nil_iff_forall_not_mem.mpr fun ⟨timer, callback⟩ hMem => ?_, rfl, rfl⟩
  obtain ⟨hMem, hMax⟩ := mem_cancel.mp hMem
  obtain ⟨hMem, hQuiet⟩ := mem_cancel.mp hMem
  exact (h timer callback hMem).elim hQuiet hMax

namespace Held

theorem owned (h : Held c) (hMem : (timer, callback) ∈ c.timers.active) :
    c.quietTimer = some timer ∨ c.maxTimer = some timer := by
  cases callback with
  | endRun => exact .inl ((h.quiet timer).mp hMem)
  | onMaxWait => exact .inr ((h.max timer).mp hMem)

theorem endRun (h : Held c) : Held c.endRun := by
  obtain ⟨hActive, hQuiet, hMax⟩ := endRun_timers fun timer callback => h.owned
  exact of_none hActive hQuiet hMax

theorem startMaxTimer (h : Held c) : Held c.startMaxTimer := by
  rw [NativeErrorCoalescer.startMaxTimer]
  split
  next => exact h
  next hNone =>
    refine ⟨fun timer => ?_, fun timer => ?_, fun timer callback hMem => ?_, fun timer hQuiet hMax => ?_⟩
    · rw [mem_startTimer, h.quiet]
      exact or_iff_left fun hOther => absurd hOther.2 Callback.noConfusion
    · rw [mem_startTimer, h.max, hNone, Option.some_inj]
      constructor
      · rintro (hSome | ⟨rfl, -⟩)
        · cases hSome
        · rfl
      · rintro rfl
        exact .inr ⟨rfl, rfl⟩
    · obtain hOld | ⟨rfl, -⟩ := mem_startTimer.mp hMem
      · exact Nat.lt_succ_of_lt (h.started timer callback hOld)
      · exact Nat.lt_succ_self _
    · have hLess := h.started timer .endRun ((h.quiet timer).mpr hQuiet)
      exact hLess.ne' (Option.some.inj hMax)

theorem restartQuietTimer (h : Held c) : Held c.restartQuietTimer := by
  rw [NativeErrorCoalescer.restartQuietTimer]
  refine ⟨fun timer => ?_, fun timer => ?_, fun timer callback hMem => ?_, fun timer hQuiet hMax => ?_⟩
  · rw [mem_startTimer, mem_cancel, h.quiet, Option.some_inj]
    constructor
    · rintro (⟨hSome, hOther⟩ | ⟨rfl, -⟩)
      · exact absurd hSome hOther
      · rfl
    · rintro rfl
      exact .inr ⟨rfl, rfl⟩
  · rw [mem_startTimer, mem_cancel, h.max]
    constructor
    · rintro (⟨hSome, -⟩ | ⟨-, hOther⟩)
      · exact hSome
      · cases hOther
    · exact fun hSome => .inl ⟨hSome, fun hQuiet => h.apart timer hQuiet hSome⟩
  · obtain hOld | ⟨rfl, -⟩ := mem_startTimer.mp hMem
    · exact Nat.lt_succ_of_lt (h.started timer callback (mem_cancel.mp hOld).1)
    · exact Nat.lt_succ_self _
  · have hLess := h.started timer .onMaxWait ((h.max timer).mpr hMax)
    exact hLess.ne' (Option.some.inj hQuiet)

theorem takeReport (h : Held c) (report : NativeErrorReport τ) : Held (c.takeReport report) := by
  rw [NativeErrorCoalescer.takeReport]
  split
  next => exact startMaxTimer (h.congr rfl rfl rfl)
  next => exact h.endRun.congr rfl rfl rfl

/-- A timer that fires is not held any more when its callback is done. -/
theorem fired (h : Held c) (hMem : (timer, callback) ∈ c.timers.active) :
    Held ({ c with timers := c.timers.cancel (some timer) }.call callback) := by
  cases callback with
  | endRun =>
    obtain ⟨hActive, hQuiet, hMax⟩ := endRun_timers (c := { c with timers := c.timers.cancel (some timer) })
      fun other callback hOther => h.owned (mem_cancel.mp hOther).1
    exact of_none hActive hQuiet hMax
  | onMaxWait =>
    have hTimer := (h.max timer).mp hMem
    obtain ⟨repeats, emitted, hEq⟩ := flushCount_eq
      { c with timers := c.timers.cancel (some timer), maxTimer := none }
    rw [call, onMaxWait, hEq]
    refine ⟨fun other => ?_, fun other => ?_, fun other callback hOther => ?_, fun other _ hNone => by cases hNone⟩
    · rw [mem_cancel, h.quiet]
      refine and_iff_left_of_imp fun hQuiet hSame => h.apart other hQuiet ?_
      rw [hTimer, hSame]
    · rw [mem_cancel, h.max, hTimer]
      exact iff_of_false (fun hBoth => hBoth.2 hBoth.1) (Option.some_ne_none other).symm
    · exact h.started other callback (mem_cancel.mp hOther).1

theorem step (h : Held c) (event : Event τ) : Held (c.step event) := by
  cases event with
  | add report =>
    rw [NativeErrorCoalescer.step, add]
    split
    next => exact h
    next => exact (h.takeReport report).restartQuietTimer
  | fire timer =>
    rw [NativeErrorCoalescer.step]
    split
    next => exact h
    next other callback hFound =>
      have hSame : other = timer := by simpa using List.find?_some hFound
      exact h.fired (hSame ▸ List.mem_of_find?_eq_some hFound)

end Held

/-! ## Counts -/

/-- Everything that was heard has gone out. -/
structure Done (sounds : List (Heard τ)) (c : NativeErrorCoalescer τ) : Prop where
  latest : c.latest = none
  repeats : c.repeats = 0
  outs : ∃ outs, List.Forall₂ Accounts (runs sounds) outs ∧ c.emitted = outs.flatten

/-- A run whose last reports have not gone out. -/
structure Going (sounds : List (Heard τ)) (c : NativeErrorCoalescer τ) (latest : NativeErrorReport τ) : Prop where
  latest_eq : c.latest = some latest
  last : sounds.getLast? = some (.report latest)
  outs : ∃ closed outs first parts lines pending,
    runs sounds = closed ++ [first :: (parts.flatten ++ pending)] ∧
    List.Forall₂ Accounts closed outs ∧ List.Forall₂ Counts parts lines ∧
    c.emitted = outs.flatten ++ first :: lines ∧
    pending.length = c.repeats ∧ (first :: (parts.flatten ++ pending)).getLast? = some latest

def Follows (sounds : List (Heard τ)) (c : NativeErrorCoalescer τ) : Prop :=
  (Done sounds c ∧ ∀ last ∈ sounds.getLast?, last = .quiet) ∨ ∃ latest, Going sounds c latest

section Counts

variable {sounds : List (Heard τ)} {c' : NativeErrorCoalescer τ} {latest report : NativeErrorReport τ}

theorem Done.congr (h : Done sounds c) (hLatest : c'.latest = c.latest) (hRepeats : c'.repeats = c.repeats)
    (hEmitted : c'.emitted = c.emitted) : Done sounds c' :=
  ⟨hLatest.trans h.latest, hRepeats.trans h.repeats, by rw [hEmitted]; exact h.outs⟩

theorem Going.congr (h : Going sounds c latest) (hLatest : c'.latest = c.latest) (hRepeats : c'.repeats = c.repeats)
    (hEmitted : c'.emitted = c.emitted) : Going sounds c' latest :=
  ⟨hLatest.trans h.latest_eq, h.last, by rw [hRepeats, hEmitted]; exact h.outs⟩

theorem Follows.congr (h : Follows sounds c) (hLatest : c'.latest = c.latest) (hRepeats : c'.repeats = c.repeats)
    (hEmitted : c'.emitted = c.emitted) : Follows sounds c' :=
  h.imp (fun hDone => ⟨hDone.1.congr hLatest hRepeats hEmitted, hDone.2⟩)
    fun ⟨latest, hGoing⟩ => ⟨latest, hGoing.congr hLatest hRepeats hEmitted⟩

/-- After a count has gone out, nothing waits. -/
theorem Going.flushCount (h : Going sounds c latest) :
    Going sounds c.flushCount latest ∧ c.flushCount.repeats = 0 := by
  obtain ⟨closed, outs, first, parts, lines, pending, hRuns, hClosed, hParts, hEmitted, hPending, hLast⟩ := h.outs
  by_cases hZero : c.repeats = 0
  · rw [flushCount_of_zero hZero]
    exact ⟨h, hZero⟩
  · have hSome : pending ≠ [] := fun hNil => hZero (by rw [← hPending, hNil, List.length_nil])
    have hCounts : Counts pending (countLine latest c.repeats) := by
      refine ⟨latest, ?_, by rw [hPending]⟩
      rwa [← List.cons_append, List.getLast?_append_of_ne_nil _ hSome] at hLast
    rw [flushCount_of_latest h.latest_eq hZero]
    refine ⟨⟨h.latest_eq, h.last, closed, outs, first, parts ++ [pending], lines ++ [countLine latest c.repeats],
      [], ?_, hClosed, ?_, ?_, rfl, ?_⟩, rfl⟩
    · rw [List.flatten_append, List.flatten_singleton, List.append_nil, hRuns]
    · exact List.rel_append hParts (.cons hCounts .nil)
    · rw [emit, hEmitted, List.append_assoc, List.cons_append]
    · rw [List.flatten_append, List.flatten_singleton, List.append_nil, hLast]

/-- A run that is over has gone out as a whole. -/
theorem Going.done (h : Going sounds c latest) (hZero : c.repeats = 0) : Done sounds { c with latest := none } := by
  obtain ⟨closed, outs, first, parts, lines, pending, hRuns, hClosed, hParts, hEmitted, hPending, -⟩ := h.outs
  refine ⟨rfl, hZero, outs ++ [first :: lines], ?_, ?_⟩
  · rw [List.length_eq_zero_iff.mp (hPending.trans hZero), List.append_nil] at hRuns
    rw [hRuns]
    exact List.rel_append hClosed (.cons ⟨first, parts, lines, rfl, rfl, hParts⟩ .nil)
  · rw [List.flatten_append, List.flatten_singleton]
    exact hEmitted

theorem Follows.flushCount (h : Follows sounds c) : Follows sounds c.flushCount := by
  obtain hDone | ⟨latest, hGoing⟩ := h
  · rw [flushCount_of_zero hDone.1.repeats]
    exact .inl hDone
  · exact .inr ⟨latest, hGoing.flushCount.1⟩

theorem Follows.endRun (h : Follows sounds c) : Done sounds c.endRun := by
  have hTimers : Follows sounds { c with
      timers := (c.timers.cancel c.quietTimer).cancel c.maxTimer, quietTimer := none, maxTimer := none } := by
    apply h.congr <;> rfl
  rw [NativeErrorCoalescer.endRun]
  obtain hDone | ⟨latest, hGoing⟩ := hTimers
  · rw [flushCount_of_zero hDone.1.repeats]
    exact hDone.1.congr hDone.1.latest.symm rfl rfl
  · obtain ⟨hFlushed, hZero⟩ := hGoing.flushCount
    exact hFlushed.done hZero

theorem Follows.quiet (h : Follows sounds c) : Follows (sounds ++ [.quiet]) c.endRun := by
  have hDone := h.endRun
  refine .inl ⟨⟨hDone.latest, hDone.repeats, ?_⟩, fun last hLast => ?_⟩
  · rw [runs_concat_quiet]
    exact hDone.outs
  · rw [List.getLast?_concat, Option.mem_some_iff] at hLast
    exact hLast.symm

theorem Follows.first (h : Follows sounds c)
    (hNew : ∀ last ∈ sounds.getLast?, Heard.continues last (.report report) = false) :
    Going (sounds ++ [.report report]) ({ c.endRun with latest := some report }.emit report) report := by
  obtain ⟨outs, hOuts, hEmitted⟩ := h.endRun.outs
  refine ⟨rfl, List.getLast?_concat, runs sounds, outs, report, [], [], [], ?_, hOuts, .nil, ?_, ?_, rfl⟩
  · exact runs_concat_new hNew
  · exact congrArg (· ++ [report]) hEmitted
  · exact h.endRun.repeats.symm

theorem Going.again (h : Going sounds c latest) (hSame : isRepeat latest report = true) :
    Going (sounds ++ [.report report]) { c with latest := some report, repeats := c.repeats + 1 } report := by
  obtain ⟨closed, outs, first, parts, lines, pending, hRuns, hClosed, hParts, hEmitted, hPending, -⟩ := h.outs
  refine ⟨rfl, List.getLast?_concat, closed, outs, first, parts, lines, pending ++ [report], ?_, hClosed, hParts,
    hEmitted, ?_, ?_⟩
  · rw [runs_concat_repeat h.last hSame hRuns, List.cons_append, List.append_assoc]
  · rw [List.length_append, hPending, List.length_singleton]
  · rw [← List.append_assoc, ← List.cons_append, List.getLast?_concat]

theorem startMaxTimer_eq (c : NativeErrorCoalescer τ) :
    ∃ maxTimer timers, c.startMaxTimer = { c with maxTimer := maxTimer, timers := timers } ∧
      c.timers.started ≤ timers.started := by
  rw [startMaxTimer]
  split
  next => exact ⟨c.maxTimer, c.timers, rfl, Nat.le_refl _⟩
  next => exact ⟨_, _, rfl, Nat.le_succ _⟩

theorem Follows.takeReport (h : Follows sounds c) (report : NativeErrorReport τ) :
    Follows (sounds ++ [.report report]) (c.takeReport report) := by
  rw [NativeErrorCoalescer.takeReport]
  split
  next hRepeat =>
    obtain ⟨maxTimer, timers, hEq, -⟩ :=
      startMaxTimer_eq { c with latest := some report, repeats := c.repeats + 1 }
    rw [hEq]
    obtain ⟨latest, hLatest, hSame⟩ := (Option.any_eq_true _ _).mp hRepeat
    obtain hDone | ⟨latest', hGoing⟩ := h
    · rw [hDone.1.latest] at hLatest
      cases hLatest
    · obtain rfl := Option.some.inj (hGoing.latest_eq.symm.trans hLatest)
      exact .inr ⟨report, (hGoing.again hSame).congr rfl rfl rfl⟩
  next hNew =>
    refine .inr ⟨report, h.first fun last hLast => ?_⟩
    obtain hDone | ⟨latest, hGoing⟩ := h
    · rw [hDone.2 last hLast]
      rfl
    · rw [hGoing.last, Option.mem_some_iff] at hLast
      rw [hGoing.latest_eq, Option.any_some, Bool.not_eq_true] at hNew
      rw [← hLast]
      exact hNew

end Counts

/-! ## Whole sessions -/

section Sessions

variable {sounds : List (Heard τ)} {events : List (Event τ)}

theorem run_concat (c : NativeErrorCoalescer τ) (events : List (Event τ)) (event : Event τ) :
    c.run (events ++ [event]) = (c.run events).step event := by
  rw [run, List.foldl_append, List.foldl_cons, List.foldl_nil, run]

theorem heard_append (c : NativeErrorCoalescer τ) (events more : List (Event τ)) :
    heard c (events ++ more) = heard c events ++ heard (c.run events) more := by
  induction events generalizing c with
  | nil => rfl
  | cons event events ih =>
    cases event with
    | add report => exact congrArg (Heard.report report :: ·) (ih _)
    | fire timer =>
      rw [List.cons_append, heard, heard, ih]
      split
      next => rfl
      next => rfl

theorem disposed_endRun (c : NativeErrorCoalescer τ) : c.endRun.disposed = c.disposed := by
  obtain ⟨repeats, emitted, hEq⟩ := endRun_eq c
  rw [hEq]

theorem takeReport_clock (c : NativeErrorCoalescer τ) (report : NativeErrorReport τ) :
    (c.takeReport report).disposed = c.disposed ∧ c.timers.started ≤ (c.takeReport report).timers.started := by
  rw [takeReport]
  split
  next =>
    obtain ⟨maxTimer, timers, hEq, hStarted⟩ :=
      startMaxTimer_eq { c with latest := some report, repeats := c.repeats + 1 }
    rw [hEq]
    exact ⟨rfl, hStarted⟩
  next =>
    obtain ⟨repeats, emitted, hEq⟩ := endRun_eq c
    rw [hEq, emit]
    exact ⟨rfl, Nat.le_refl _⟩

/-- A timer that fires starts no other. -/
theorem call_clock (c : NativeErrorCoalescer τ) (callback : Callback) :
    (c.call callback).disposed = c.disposed ∧ (c.call callback).timers.active ⊆ c.timers.active := by
  cases callback with
  | endRun =>
    obtain ⟨repeats, emitted, hEq⟩ := endRun_eq c
    rw [call, hEq]
    exact ⟨rfl, fun ⟨timer, callback⟩ hMem => (mem_cancel.mp (mem_cancel.mp hMem).1).1⟩
  | onMaxWait =>
    obtain ⟨repeats, emitted, hEq⟩ := flushCount_eq { c with maxTimer := none }
    rw [call, onMaxWait, hEq]
    exact ⟨rfl, List.Subset.refl _⟩

theorem step_fire (c : NativeErrorCoalescer τ) (timer : ℕ) :
    ((∀ callback, (timer, callback) ∉ c.timers.active) ∧ c.step (.fire timer) = c) ∨
    ∃ callback, (timer, callback) ∈ c.timers.active ∧
      c.step (.fire timer) = { c with timers := c.timers.cancel (some timer) }.call callback := by
  rw [step]
  split
  next hNone =>
    refine .inl ⟨fun callback hMem => ?_, rfl⟩
    exact List.find?_eq_none.mp hNone _ hMem (beq_self_eq_true timer)
  next other callback hFound =>
    have hSame : other = timer := by simpa using List.find?_some hFound
    exact .inr ⟨callback, hSame ▸ List.mem_of_find?_eq_some hFound, rfl⟩

theorem disposed_step (c : NativeErrorCoalescer τ) (event : Event τ) : (c.step event).disposed = c.disposed := by
  cases event with
  | add report =>
    rw [step, add]
    split
    next => rfl
    next => exact (takeReport_clock c report).1
  | fire timer =>
    obtain ⟨-, hEq⟩ | ⟨callback, -, hEq⟩ := step_fire c timer
    · rw [hEq]
    · rw [hEq]
      exact (call_clock _ _).1

theorem Follows.step (h : Follows sounds c) (hHeld : Held c) (hOpen : c.disposed = false) (event : Event τ) :
    Follows (sounds ++ heard c [event]) (c.step event) := by
  cases event with
  | add report =>
    rw [NativeErrorCoalescer.step, add, hOpen]
    exact (h.takeReport report).congr rfl rfl rfl
  | fire timer =>
    rw [heard, heard]
    obtain ⟨hNone, hEq⟩ | ⟨callback, hMem, hEq⟩ := step_fire c timer
    · rw [hEq, if_neg (hNone .endRun), List.append_nil]
      exact h
    · rw [hEq]
      cases callback with
      | endRun =>
        rw [if_pos hMem, call]
        apply Follows.quiet
        exact h.congr rfl rfl rfl
      | onMaxWait =>
        rw [if_neg fun hQuiet => hHeld.apart timer ((hHeld.quiet timer).mp hQuiet) ((hHeld.max timer).mp hMem),
          List.append_nil, call, onMaxWait]
        apply Follows.flushCount
        exact h.congr rfl rfl rfl

theorem run_invariant (events : List (Event τ)) :
    Held (run {} events) ∧ (run {} events).disposed = false ∧ Follows (heard {} events) (run {} events) := by
  induction events using List.reverseRecOn with
  | nil =>
    refine ⟨.of_none rfl rfl rfl, rfl, .inl ⟨⟨rfl, rfl, [], .nil, rfl⟩, fun last hLast => ?_⟩⟩
    cases hLast
  | append_singleton events event ih =>
    obtain ⟨hHeld, hOpen, hFollows⟩ := ih
    rw [run_concat, heard_append, disposed_step]
    exact ⟨hHeld.step event, hOpen, hFollows.step hHeld hOpen event⟩

/-- The gap is measured from the latest report: no other quiet timer can fire. -/
theorem quiet_since_latest {timer : ℕ} (h : (timer, .endRun) ∈ (run {} events).timers.active) :
    ∃ before report after, events = before ++ .add report :: after ∧
      (∀ event ∈ after, ∃ other, event = .fire other) ∧
      (run {} before : NativeErrorCoalescer τ).timers.started ≤ timer := by
  induction events using List.reverseRecOn with
  | nil => cases h
  | append_singleton events event ih =>
    obtain ⟨hHeld, hOpen, -⟩ := run_invariant events
    have hNext := hHeld.step event
    rw [run_concat] at h
    cases event with
    | add report =>
      refine ⟨events, report, [], rfl, fun event hMem => absurd hMem List.not_mem_nil, ?_⟩
      have hQuiet := (hNext.quiet timer).mp h
      rw [step, add, hOpen] at hQuiet
      have hStarted := (takeReport_clock (run {} events) report).2
      rwa [Option.some.inj hQuiet] at hStarted
    | fire other =>
      have hOld : (timer, .endRun) ∈ (run {} events).timers.active := by
        obtain ⟨-, hEq⟩ | ⟨callback, -, hEq⟩ := step_fire (run {} events) other
        · rwa [hEq] at h
        · rw [hEq] at h
          exact (mem_cancel.mp ((call_clock _ _).2 h)).1
      obtain ⟨before, report, after, rfl, hFires, hStarted⟩ := ih hOld
      refine ⟨before, report, after ++ [.fire other], ?_, fun event hMem => ?_, hStarted⟩
      · rw [List.append_assoc, List.cons_append]
      · obtain hMem | hMem := List.mem_append.mp hMem
        · exact hFires event hMem
        · exact ⟨other, List.mem_singleton.mp hMem⟩

theorem run_of_disposed (hDisposed : c.disposed = true) (hActive : c.timers.active = []) (events : List (Event τ)) :
    c.run events = c := by
  induction events with
  | nil => rfl
  | cons event events ih =>
    have hSame : c.step event = c := by
      cases event with
      | add report => exact if_pos hDisposed
      | fire timer => rw [step, hActive, List.find?_nil]
    rw [run, List.foldl_cons, hSame]
    exact ih

end Sessions

end NativeErrorCoalescer

open NativeErrorCoalescer in
/-- Every run of equal reports goes out as its first report and lines that count the others, run after run.
After `dispose` nothing goes out, and a gap is only ever measured from the latest report. -/
theorem reports_accounted (events : List (Event τ)) :
    (∃ outs, List.Forall₂ Accounts (runs (heard {} events)) outs ∧ (run {} events).dispose.emitted = outs.flatten) ∧
      ((run {} events).dispose.dispose = (run {} events).dispose ∧
        ∀ later, (run {} events).dispose.run later = (run {} events).dispose) ∧
      ∀ timer, (timer, .endRun) ∈ (run {} events).timers.active →
        ∃ before report after, events = before ++ .add report :: after ∧
          (∀ event ∈ after, ∃ other, event = .fire other) ∧ (run {} before).timers.started ≤ timer := by
  obtain ⟨hHeld, hOpen, hFollows⟩ := run_invariant events
  have hDispose : (run {} events).dispose = { run {} events with disposed := true }.endRun := by
    rw [dispose, hOpen]
    rfl
  have hDisposed : (run {} events).dispose.disposed = true := by rw [hDispose, disposed_endRun]
  have hActive : (run {} events).dispose.timers.active = [] := by
    rw [hDispose]
    refine (endRun_timers ?_).1
    exact fun timer callback hMem => hHeld.owned hMem
  refine ⟨?_, ⟨if_pos hDisposed, run_of_disposed hDisposed hActive⟩, fun timer => quiet_since_latest⟩
  have hEnded : Done (heard {} events) (run {} events).dispose := by
    rw [hDispose]
    apply Follows.endRun
    exact hFollows.congr rfl rfl rfl
  exact hEnded.outs

end NativeErrors

end GitBranchManager
