import GitBranchManager.Refresh.DriverSteps

/-! # No refresh request is lost -/

namespace GitBranchManager

open Library

/-- The calls that ask for nothing and drop nothing. -/
def RefreshEvent.isQuiet : RefreshEvent → Bool
  | .tick _ => true
  | .expire => true
  | .onTimeout => true
  | .onFinished _ => true
  | _ => false

def RefreshRecord.started? : RefreshRecord → Option Nat
  | .started generation _ => some generation
  | _ => none

/-- Every flag asked for is in the batch. -/
def PendingRefresh.Within (asked batch : PendingRefresh) : Prop :=
  ∀ flag ∈ flags, flag asked = true → flag batch = true

namespace RefreshDriver

/-- The batch at position `j` of the log is the one that the request at position `i` waits for. -/
def Covers (s : RefreshDriver) (i j : Nat) : Prop :=
  Batches.Cuts RefreshRecord.request? s.log i j ∧
    ∃ generation batch, s.log[j]? = some (.started generation batch)

def Dropped (s : RefreshDriver) (i : Nat) : Prop :=
  ∃ j, Batches.Cuts RefreshRecord.request? s.log i j ∧ s.log[j]? = some .dropped

def Waits (s : RefreshDriver) (i : Nat) : Prop := Batches.Waits RefreshRecord.request? s.log i

/-- The timer is armed or has run out, and its callback starts a run whenever it comes. -/
def Armed (s : RefreshDriver) : Prop :=
  (s.deadline.isSome = true ∨ s.fired = true) ∧
    ∀ now, s.clock ≤ now → (∀ d, s.deadline = some d → d ≤ now) → (s.coalescer.onTimeout now).1 ≠ 0

/-- The current run has not reported, and its report asks for another one. -/
def FollowUpDue (s : RefreshDriver) : Prop :=
  s.coalescer.generation ∈ s.runs ∧ (s.coalescer.onFinished s.coalescer.generation).1 = true

theorem mem_waiting {s : RefreshDriver} {item : PendingRefresh × Bool} : item ∈ s.waiting ↔
    ∃ i : Nat, s.log[i]? = some (.requested item.1 item.2) ∧ s.Waits i := by
  rw [waiting, Batches.mem_waiting]
  constructor
  · rintro ⟨i, record, hRecord, hItem, hWaits⟩
    cases record with
    | requested asked folded =>
      obtain rfl := Option.some.inj hItem
      exact ⟨i, hRecord, hWaits⟩
    | started | dropped => cases hItem
  · rintro ⟨i, hRecord, hWaits⟩
    exact ⟨i, _, hRecord, rfl, hWaits⟩

theorem waits_covers_or_dropped (s : RefreshDriver) (i : Nat) :
    (∃ j, s.Covers i j) ∨ s.Dropped i ∨ s.Waits i := by
  rcases Batches.waits_or_cuts RefreshRecord.request? s.log i with hWaits | ⟨j, hCuts⟩
  · exact .inr (.inr hWaits)
  · obtain ⟨record, hRecord, hCut⟩ := hCuts.cut
    cases record with
    | requested asked folded => cases hCut
    | started generation batch => exact .inl ⟨j, hCuts, generation, batch, hRecord⟩
    | dropped => exact .inr (.inl ⟨j, hCuts, hRecord⟩)

theorem Driven.within {s : RefreshDriver} (h : s.Driven) {i : Nat} {asked : PendingRefresh} {folded : Bool}
    (hRecord : s.log[i]? = some (.requested asked folded)) (hWaits : s.Waits i) :
    asked.Within s.coalescer.takePending.1 := by
  intro flag hFlag hAsked
  rw [h.flags flag hFlag]
  exact List.any_eq_true.mpr ⟨(asked, folded), mem_waiting.mpr ⟨i, hRecord, hWaits⟩, hAsked⟩

theorem Driven.batch {s : RefreshDriver} (h : s.Driven) {j generation : Nat} {batch : PendingRefresh}
    (hStarted : s.log[j]? = some (.started generation batch)) {flag : PendingRefresh → Bool}
    (hFlag : flag ∈ PendingRefresh.flags) : flag batch = true ↔
      ∃ i asked folded, s.log[i]? = some (.requested asked folded) ∧ s.Covers i j ∧ flag asked = true := by
  rw [h.batches j generation batch hStarted flag hFlag, List.any_eq_true]
  constructor
  · rintro ⟨⟨asked, folded⟩, hMem, hAsked⟩
    obtain ⟨i, record, hRecord, hItem, hCuts⟩ := (Batches.mem_waiting_take hStarted rfl).mp hMem
    cases record with
    | requested asked' folded' =>
      obtain ⟨rfl, rfl⟩ := Prod.mk.inj (Option.some.inj hItem)
      exact ⟨i, _, _, hRecord, ⟨hCuts, generation, batch, hStarted⟩, hAsked⟩
    | started | dropped => cases hItem
  · rintro ⟨i, asked, folded, hRecord, ⟨hCuts, -⟩, hAsked⟩
    exact ⟨(asked, folded), (Batches.mem_waiting_take hStarted rfl).mpr ⟨i, _, hRecord, rfl, hCuts⟩, hAsked⟩

theorem onFinished_dirty (c : RefreshCoalescer) (generation : Nat) :
    (c.onFinished generation).1 = true ↔
      generation ≠ 0 ∧ generation = c.generation ∧ c.debouncer.dirty = true := by
  rcases c.onFinished_cases generation with ⟨hEq, hStale⟩ | ⟨hEq, -, hClean⟩ | ⟨hEq, hCurrent, hDirty⟩
  · rw [hEq]
    exact iff_of_false Bool.false_ne_true fun h => hStale.elim h.1 fun hNe => hNe h.2.1
  · rw [hEq]
    exact iff_of_false Bool.false_ne_true fun h => Bool.false_ne_true (hClean.symm.trans h.2.2)
  · rw [hEq]
    exact iff_of_true rfl ⟨hCurrent.1, hCurrent.2, hDirty⟩

/-- A report asks for another run exactly when requests were absorbed since the run started. -/
theorem Driven.onFinished_again {s : RefreshDriver} (h : s.Driven) (generation : Nat) :
    (s.coalescer.onFinished generation).1 = true ↔ generation = s.coalescer.generation ∧
      s.coalescer.debouncer.running = true ∧
      ∃ (i : Nat) (asked : PendingRefresh), s.log[i]? = some (.requested asked true) ∧ s.Waits i := by
  rw [onFinished_dirty]
  constructor
  · rintro ⟨-, hSame, hDirty⟩
    cases hRunning : s.coalescer.debouncer.running with
    | false => exact absurd ((h.idle hRunning).1.symm.trans hDirty) Bool.false_ne_true
    | true =>
      obtain ⟨-, -, -, -, hWaits, hFolded⟩ := h.running hRunning
      obtain ⟨item, hItem⟩ := List.exists_mem_of_ne_nil _ (hWaits.mp hDirty)
      obtain ⟨i, hRecord, hi⟩ := mem_waiting.mp hItem
      rw [hFolded item hItem] at hRecord
      exact ⟨hSame, rfl, i, item.1, hRecord, hi⟩
  · rintro ⟨rfl, hRunning, i, asked, hRecord, hi⟩
    obtain ⟨hPos, -, -, -, hWaits, -⟩ := h.running hRunning
    have hItem : (asked, true) ∈ s.waiting := mem_waiting.mpr ⟨i, hRecord, hi⟩
    exact ⟨Nat.ne_of_gt hPos, rfl, hWaits.mpr (List.ne_nil_of_mem hItem)⟩

theorem Driven.served {s : RefreshDriver} (h : s.Driven) (hWaiting : s.waiting ≠ []) :
    s.FollowUpDue ∨ s.Armed := by
  cases hRunning : s.coalescer.debouncer.running with
  | true =>
    obtain ⟨hPos, hRuns, -, -, hDirty, -⟩ := h.running hRunning
    exact .inl ⟨hRuns, (onFinished_dirty _ _).mpr ⟨Nat.ne_of_gt hPos, rfl, hDirty.mpr hWaiting⟩⟩
  | false =>
    obtain ⟨hPending, hArmed⟩ := (h.idle hRunning).2 hWaiting
    have starts {now : Nat} (hQuiet : s.coalescer.debouncer.lastEvent + kRefreshDelay ≤ now) :
        (s.coalescer.onTimeout now).1 ≠ 0 := by
      rw [RefreshCoalescer.onTimeout_due hRunning hPending (h.delay.symm ▸ hQuiet)]
      exact Nat.succ_ne_zero _
    right
    cases hDeadline : s.deadline with
    | none =>
      obtain ⟨hFired, hQuiet⟩ := hArmed hDeadline
      exact ⟨.inr hFired, fun now hNow _ => starts (Nat.le_trans hQuiet hNow)⟩
    | some d =>
      refine ⟨.inl (by rw [hDeadline]; rfl), fun now _ hOver => starts ?_⟩
      exact Nat.le_trans ((h.deadline d hDeadline).2 hRunning hPending) (hOver d hDeadline)

def startedRuns (s : RefreshDriver) : List Nat := s.log.filterMap RefreshRecord.started?

/-- A follow-up run is owed: it starts when the timer's callback comes, however early. -/
structure Owed (s : RefreshDriver) : Prop where
  delay : s.coalescer.debouncer.delay = kRefreshDelay
  idle : s.coalescer.debouncer.running = false
  clean : s.coalescer.debouncer.dirty = false
  pending : s.coalescer.debouncer.pending = true
  due : s.coalescer.debouncer.lastEvent + kRefreshDelay ≤ s.clock

/-- Nothing is asked for. -/
structure Settled (s : RefreshDriver) : Prop where
  delay : s.coalescer.debouncer.delay = kRefreshDelay
  clean : s.coalescer.debouncer.dirty = false
  empty : s.coalescer.debouncer.pending = false

theorem onFinished_clean {c : RefreshCoalescer} (hClean : c.debouncer.dirty = false) (generation : Nat) :
    c.onFinished generation = (false, c) ∨
      c.onFinished generation = (false, { c with debouncer := { c.debouncer with running := false } }) := by
  rcases c.onFinished_cases generation with ⟨hEq, -⟩ | ⟨hEq, -⟩ | ⟨-, -, hDirty⟩
  · exact .inl hEq
  · exact .inr hEq
  · exact absurd (hClean.symm.trans hDirty) Bool.false_ne_true

theorem Owed.wait {s s' : RefreshDriver} {event : RefreshEvent} (h : s.Owed) (hQuiet : event.isQuiet = true)
    (hOther : event ≠ .onTimeout) (hStep : s.step event = some s') :
    s'.Owed ∧ s'.startedRuns = s.startedRuns ∧ s'.coalescer.generation = s.coalescer.generation := by
  cases event with
  | tick elapsed =>
    obtain rfl := Option.some.inj hStep
    exact ⟨⟨h.delay, h.idle, h.clean, h.pending, Nat.le_add_right_of_le h.due⟩, rfl, rfl⟩
  | expire =>
    obtain ⟨_, _, _, rfl⟩ := expired_of_step hStep
    exact ⟨⟨h.delay, h.idle, h.clean, h.pending, h.due⟩, rfl, rfl⟩
  | onFinished generation =>
    simp only [step] at hStep
    rcases onFinished_clean h.clean generation with hSame | hSame
    · rw [hSame] at hStep
      obtain rfl := Option.some.inj hStep
      exact ⟨⟨h.delay, h.idle, h.clean, h.pending, h.due⟩, rfl, rfl⟩
    · rw [hSame] at hStep
      obtain rfl := Option.some.inj hStep
      exact ⟨⟨h.delay, rfl, h.clean, h.pending, h.due⟩, rfl, rfl⟩
  | onTimeout => exact absurd rfl hOther
  | request | fireNow | reset => cases hQuiet

theorem Owed.fire {s s' : RefreshDriver} (h : s.Owed) (hStep : s.step .onTimeout = some s') :
    s'.Settled ∧ s'.startedRuns = s.startedRuns ++ [s.coalescer.generation + 1] := by
  simp only [step, RefreshCoalescer.onTimeout_due h.idle h.pending (h.delay.symm ▸ h.due)] at hStep
  split at hStep
  · obtain rfl := Option.some.inj hStep
    refine ⟨⟨h.delay, h.clean, rfl⟩, ?_⟩
    simp [startedRuns, start, RefreshRecord.started?]
  · cases hStep

theorem Settled.wait {s s' : RefreshDriver} {event : RefreshEvent} (h : s.Settled)
    (hQuiet : event.isQuiet = true) (hStep : s.step event = some s') :
    s'.Settled ∧ s'.startedRuns = s.startedRuns := by
  cases event with
  | tick elapsed =>
    obtain rfl := Option.some.inj hStep
    exact ⟨⟨h.delay, h.clean, h.empty⟩, rfl⟩
  | expire =>
    obtain ⟨_, _, _, rfl⟩ := expired_of_step hStep
    exact ⟨⟨h.delay, h.clean, h.empty⟩, rfl⟩
  | onTimeout =>
    have hSame : s.coalescer.onTimeout s.clock = (0, s.coalescer) := by
      cases hRunning : s.coalescer.debouncer.running with
      | true => exact RefreshCoalescer.onTimeout_running _ hRunning (h.empty.trans h.clean.symm)
      | false => exact RefreshCoalescer.onTimeout_early hRunning (h.delay ▸ (by decide)) (.inl h.empty)
    simp only [step, hSame] at hStep
    split at hStep
    · obtain rfl := Option.some.inj hStep
      exact ⟨⟨h.delay, h.clean, h.empty⟩, rfl⟩
    · cases hStep
  | onFinished generation =>
    simp only [step] at hStep
    rcases onFinished_clean h.clean generation with hSame | hSame
    · rw [hSame] at hStep
      obtain rfl := Option.some.inj hStep
      exact ⟨⟨h.delay, h.clean, h.empty⟩, rfl⟩
    · rw [hSame] at hStep
      obtain rfl := Option.some.inj hStep
      exact ⟨⟨h.delay, h.clean, h.empty⟩, rfl⟩
  | request | fireNow | reset => cases hQuiet

/-- Until something else is asked for, exactly one run starts: when the callback comes. -/
theorem Owed.run {s s' : RefreshDriver} {events : List RefreshEvent} (h : s.Owed)
    (hRun : Run step (fun _ event => event.isQuiet = true) s events s') :
    (.onTimeout ∉ events → s'.Owed ∧ s'.startedRuns = s.startedRuns ∧
      s'.coalescer.generation = s.coalescer.generation) ∧
    (.onTimeout ∈ events → s'.Settled ∧
      s'.startedRuns = s.startedRuns ++ [s.coalescer.generation + 1]) := by
  induction hRun with
  | start => exact ⟨fun _ => ⟨h, rfl, rfl⟩, fun hMem => absurd hMem List.not_mem_nil⟩
  | @next m s' events event hBefore hQuiet hStep ih =>
    obtain ⟨hWait, hFired⟩ := ih
    rw [List.mem_append, List.mem_singleton]
    by_cases hMem : .onTimeout ∈ events
    · obtain ⟨hSettled, hStarted⟩ := hFired hMem
      obtain ⟨hAfter, hSame⟩ := hSettled.wait hQuiet hStep
      exact ⟨fun hNot => absurd (.inl hMem) hNot, fun _ => ⟨hAfter, hSame.trans hStarted⟩⟩
    · obtain ⟨hOwed, hStarted, hGeneration⟩ := hWait hMem
      by_cases hEvent : event = .onTimeout
      · subst hEvent
        obtain ⟨hAfter, hNext⟩ := hOwed.fire hStep
        rw [hStarted, hGeneration] at hNext
        exact ⟨fun hNot => absurd (.inr rfl) hNot, fun _ => ⟨hAfter, hNext⟩⟩
      · obtain ⟨hAfter, hSame, hKeep⟩ := hOwed.wait hQuiet hEvent hStep
        refine ⟨fun _ => ⟨hAfter, hSame.trans hStarted, hKeep.trans hGeneration⟩, ?_⟩
        exact fun hOr => absurd hOr (not_or.mpr ⟨hMem, fun h => hEvent h.symm⟩)

theorem Driven.owed {s s' : RefreshDriver} (h : s.Driven) {generation : Nat}
    (hAgain : (s.coalescer.onFinished generation).1 = true)
    (hStep : s.step (.onFinished generation) = some s') :
    s'.Owed ∧ s'.startedRuns = s.startedRuns ∧ s'.coalescer.generation = generation ∧
      s'.deadline = some s'.clock := by
  obtain ⟨hPos, rfl, hDirty⟩ := (onFinished_dirty _ _).mp hAgain
  obtain ⟨-, hRunning, -⟩ := (h.onFinished_again _).mp hAgain
  obtain ⟨-, -, hClock, -⟩ := h.running hRunning
  have hFinish : s.coalescer.onFinished s.coalescer.generation =
      (true, { s.coalescer with debouncer :=
        { s.coalescer.debouncer with running := false, dirty := false, pending := true, lastEvent := 0 } }) := by
    simp [RefreshCoalescer.onFinished, hPos, Debouncer.finish, hDirty]
  simp only [step, hFinish] at hStep
  obtain rfl := Option.some.inj hStep
  exact ⟨⟨h.delay, rfl, rfl, rfl, by simpa using hClock⟩, rfl, rfl, rfl⟩

theorem Driven.followUp {s s' : RefreshDriver} (h : s.Driven) {generation : Nat}
    (hAgain : (s.coalescer.onFinished generation).1 = true)
    (hStep : s.step (.onFinished generation) = some s') :
    s'.deadline = some s'.clock ∧
      ∀ events s'', Run step (fun _ event => event.isQuiet = true) s' events s'' →
        s''.startedRuns = s.startedRuns ++ if .onTimeout ∈ events then [generation + 1] else [] := by
  obtain ⟨hOwed, hSame, hGeneration, hDeadline⟩ := h.owed hAgain hStep
  refine ⟨hDeadline, fun events s'' hRun => ?_⟩
  obtain ⟨hBefore, hAfter⟩ := hOwed.run hRun
  split
  next hMem => rw [(hAfter hMem).2, hSame, hGeneration]
  next hNot => rw [(hBefore hNot).2.1, hSame, List.append_nil]

/-- Each request is in exactly one batch, was dropped by a reset, or is pending; a batch is what
its requests ask for; what is pending waits for the timer or for a run that will ask for a
follow-up; a stale report changes nothing; and requests absorbed by a run have exactly one run
follow it. -/
theorem refreshes_never_lost {first : Nat} {events : List RefreshEvent} {s : RefreshDriver}
    (hRun : Run step (fun _ _ => True) { clock := first } events s) :
    (∀ (i : Nat) asked folded, s.log[i]? = some (.requested asked folded) →
      (∃! j, s.Covers i j) ∨ s.Dropped i ∨
        s.Waits i ∧ asked.Within s.coalescer.takePending.1 ∧ (s.FollowUpDue ∨ s.Armed)) ∧
    (∀ (j : Nat) generation batch, s.log[j]? = some (.started generation batch) →
      ∀ flag ∈ PendingRefresh.flags, (flag batch = true ↔
        ∃ i asked folded, s.log[i]? = some (.requested asked folded) ∧ s.Covers i j ∧
          flag asked = true)) ∧
    ((∃ flag ∈ PendingRefresh.flags, flag s.coalescer.takePending.1 = true) →
      s.FollowUpDue ∨ s.Armed) ∧
    (∀ generation, generation ≠ s.coalescer.generation →
      s.coalescer.onFinished generation = (false, s.coalescer)) ∧
    (∀ generation, (s.coalescer.onFinished generation).1 = true ↔
      generation = s.coalescer.generation ∧ s.coalescer.debouncer.running = true ∧
        ∃ (i : Nat) (asked : PendingRefresh), s.log[i]? = some (.requested asked true) ∧ s.Waits i) ∧
    (∀ generation s', (s.coalescer.onFinished generation).1 = true →
      s.step (.onFinished generation) = some s' → s'.deadline = some s'.clock ∧
        ∀ events' s'', Run step (fun _ event => event.isQuiet = true) s' events' s'' →
          s''.startedRuns = s.startedRuns ++ if .onTimeout ∈ events' then [generation + 1] else []) := by
  have h := driven_run hRun
  refine ⟨?_, ?_, ?_, ?_, h.onFinished_again, ?_⟩
  · intro i asked folded hRecord
    rcases s.waits_covers_or_dropped i with ⟨j, hCovers⟩ | hDropped | hWaits
    · exact .inl ⟨j, hCovers, fun j' hCovers' => hCovers'.1.unique hCovers.1⟩
    · exact .inr (.inl hDropped)
    · have hWaiting : (asked, folded) ∈ s.waiting := mem_waiting.mpr ⟨i, hRecord, hWaits⟩
      exact .inr (.inr ⟨hWaits, h.within hRecord hWaits, h.served (List.ne_nil_of_mem hWaiting)⟩)
  · exact fun j generation batch hStarted flag hFlag => h.batch hStarted hFlag
  · rintro ⟨flag, hFlag, hPending⟩
    rw [h.flags flag hFlag] at hPending
    obtain ⟨item, hItem, -⟩ := List.any_eq_true.mp hPending
    exact h.served (List.ne_nil_of_mem hItem)
  · intro generation hStale
    rw [RefreshCoalescer.onFinished, if_pos (.inr hStale)]
  · exact fun generation s' hAgain hStep => h.followUp hAgain hStep

/-- Refs are asked for; history is asked for while they are read. -/
def askedDuringRun : List RefreshEvent :=
  [.request { wantsRefs := true }, .tick kRefreshDelay, .expire, .onTimeout,
    .request { wantsHistory := true, origin := .autoFetchResync }]

theorem refreshes_never_lost_askedDuringRun : ∃ s, askedDuringRun.foldlM step {} = some s ∧
    (s.FollowUpDue ∨ s.Armed) := by
  obtain ⟨s, hs, hPending⟩ : ∃ s, askedDuringRun.foldlM step {} = some s ∧
      s.coalescer.takePending.1.wantsHistory = true := ⟨_, rfl, rfl⟩
  have h := @refreshes_never_lost 0 askedDuringRun s (.of_foldlM hs)
  exact ⟨s, hs, h.2.2.1 ⟨PendingRefresh.wantsHistory, by simp [PendingRefresh.flags], hPending⟩⟩

/-- Refs are asked for and the coalescer is reset before the timer runs out. -/
def resetWhileArmed : List RefreshEvent :=
  [.request { wantsRefs := true }, .reset, .tick kRefreshDelay, .expire, .onTimeout]

theorem request_dropped_by_reset : ∃ s, resetWhileArmed.foldlM step {} = some s ∧
    s.log[0]? = some (.requested { wantsRefs := true } false) ∧ (∀ j, ¬ s.Covers 0 j) ∧
    s.coalescer.takePending.1.wantsRefs = false ∧ s.deadline = none ∧ s.fired = false ∧ s.runs = [] := by
  obtain ⟨s, hs, hLog, hRest⟩ : ∃ s, resetWhileArmed.foldlM step {} = some s ∧
      s.log = [.requested { wantsRefs := true } false, .dropped] ∧
      s.coalescer.takePending.1.wantsRefs = false ∧ s.deadline = none ∧ s.fired = false ∧ s.runs = [] :=
    ⟨_, rfl, rfl, rfl, rfl, rfl, rfl⟩
  refine ⟨s, hs, by rw [hLog]; rfl, ?_, hRest⟩
  rintro j ⟨-, generation, batch, hStarted⟩
  have hMem := List.mem_of_getElem? hStarted
  rw [hLog] at hMem
  simp at hMem

end RefreshDriver

end GitBranchManager
