import GitBranchManager.Library.Batches
import GitBranchManager.Library.Runs
import GitBranchManager.Refresh.RefreshCoalescer

/-! # What the refresh driver keeps

The requests that wait are the pending batch. They wait for the timer, or for the report of a
run that has the dirty bit set.
-/

namespace GitBranchManager

open Library

namespace PendingRefresh

def isExplicit (asked : PendingRefresh) : Bool := asked.origin == .explicit

def flags : List (PendingRefresh → Bool) := [wantsRefs, wantsHistory, isExplicit]

end PendingRefresh

/-- A request, and whether it was absorbed during a run. -/
def RefreshRecord.request? : RefreshRecord → Option (PendingRefresh × Bool)
  | .requested asked folded => some (asked, folded)
  | _ => none

namespace RefreshCoalescer

variable {flag : PendingRefresh → Bool}

theorem isExplicit_takePending (c : RefreshCoalescer) :
    c.takePending.1.isExplicit = c.pendingHasExplicit := by
  rw [PendingRefresh.isExplicit, takePending]
  cases hExplicit : c.pendingHasExplicit with
  | true => simp
  | false => simp

theorem flag_mergeIntoPending (hFlag : flag ∈ PendingRefresh.flags) (c : RefreshCoalescer)
    (asked : PendingRefresh) :
    flag (c.mergeIntoPending asked).takePending.1 = (flag c.takePending.1 || flag asked) := by
  simp only [PendingRefresh.flags, List.mem_cons, List.not_mem_nil, or_false] at hFlag
  obtain rfl | rfl | rfl := hFlag
  · rfl
  · rfl
  · rw [isExplicit_takePending, isExplicit_takePending]
    rfl

theorem flag_taken (hFlag : flag ∈ PendingRefresh.flags) (c : RefreshCoalescer) :
    flag c.takePending.2.takePending.1 = false := by
  simp only [PendingRefresh.flags, List.mem_cons, List.not_mem_nil, or_false] at hFlag
  obtain rfl | rfl | rfl := hFlag <;> rfl

theorem flag_reset (hFlag : flag ∈ PendingRefresh.flags) (c : RefreshCoalescer) :
    flag c.reset.takePending.1 = false := flag_taken hFlag c

theorem request_running {c : RefreshCoalescer} (asked : PendingRefresh) (now : Nat)
    (h : c.debouncer.running = true) :
    c.request asked now = (.fold, { c.mergeIntoPending asked with
      debouncer := { c.debouncer with lastEvent := now, pending := true, dirty := true } }) := by
  simp [request, Debouncer.notifyEvent, Debouncer.shouldFire, h]

theorem request_idle {c : RefreshCoalescer} (asked : PendingRefresh) (now : Nat)
    (h : c.debouncer.running = false) (hDelay : 0 < c.debouncer.delay) :
    c.request asked now = (.arm, { c.mergeIntoPending asked with
      debouncer := { c.debouncer with lastEvent := now, pending := true } }) := by
  simp [request, Debouncer.notifyEvent, Debouncer.shouldFire, h, hDelay]

theorem onTimeout_running {c : RefreshCoalescer} (now : Nat) (h : c.debouncer.running = true)
    (hDirty : c.debouncer.pending = c.debouncer.dirty) : c.onTimeout now = (0, c) := by
  have hSame : c.debouncer.shouldFire now = (false, c.debouncer) := by
    rw [Debouncer.shouldFire, if_pos h]
    split
    next hPending =>
      rw [hPending] at hDirty
      rw [hDirty]
    next => rfl
  simp [onTimeout, hSame]

theorem onTimeout_due {c : RefreshCoalescer} {now : Nat} (h : c.debouncer.running = false)
    (hPending : c.debouncer.pending = true) (hQuiet : c.debouncer.lastEvent + c.debouncer.delay ≤ now) :
    c.onTimeout now = (c.generation + 1,
      { c with
        debouncer := { c.debouncer with pending := false, running := true }
        generation := c.generation + 1 }) := by
  have hNot : ¬ now - c.debouncer.lastEvent < c.debouncer.delay := by omega
  simp [onTimeout, Debouncer.shouldFire, h, hPending, hNot]

theorem onTimeout_early {c : RefreshCoalescer} {now : Nat} (h : c.debouncer.running = false)
    (hDelay : 0 < c.debouncer.delay)
    (hNot : c.debouncer.pending = false ∨ now < c.debouncer.lastEvent + c.debouncer.delay) :
    c.onTimeout now = (0, c) := by
  cases hPending : c.debouncer.pending with
  | false => simp [onTimeout, Debouncer.shouldFire, h, hPending]
  | true =>
    have hSoon : now - c.debouncer.lastEvent < c.debouncer.delay := by
      have hLess := hNot.resolve_left (by simp [hPending])
      omega
    simp [onTimeout, Debouncer.shouldFire, h, hPending, hSoon]

theorem fireNow_eq (c : RefreshCoalescer) (asked : PendingRefresh) (now : Nat) :
    c.fireNow asked now = (c.generation + 1,
      { c.mergeIntoPending asked with
        debouncer := { delay := kRefreshDelay, pending := !decide (kRefreshDelay ≤ now),
                       running := decide (kRefreshDelay ≤ now) }
        generation := c.generation + 1 }) := by
  by_cases hClock : kRefreshDelay ≤ now
  · simp [fireNow, Debouncer.notifyEvent, Debouncer.shouldFire, hClock, Nat.not_lt.mpr hClock]
  · simp [fireNow, Debouncer.notifyEvent, Debouncer.shouldFire, hClock, Nat.lt_of_not_le hClock]

theorem onFinished_cases (c : RefreshCoalescer) (generation : Nat) :
    c.onFinished generation = (false, c) ∧ (generation = 0 ∨ generation ≠ c.generation) ∨
    c.onFinished generation = (false, { c with debouncer := { c.debouncer with running := false } }) ∧
      (generation ≠ 0 ∧ generation = c.generation) ∧ c.debouncer.dirty = false ∨
    c.onFinished generation = (true, { c with
      debouncer := { c.debouncer with running := false, dirty := false, pending := true, lastEvent := 0 } }) ∧
      (generation ≠ 0 ∧ generation = c.generation) ∧ c.debouncer.dirty = true := by
  rw [onFinished]
  split
  · rename_i hStale
    exact .inl ⟨rfl, hStale⟩
  · rename_i hCurrent
    rw [not_or, Decidable.not_not] at hCurrent
    right
    rw [Debouncer.finish]
    split
    · rename_i hDirty
      exact .inr ⟨rfl, hCurrent, hDirty⟩
    · rename_i hClean
      exact .inl ⟨rfl, hCurrent, Bool.eq_false_iff.mpr hClean⟩

end RefreshCoalescer

namespace RefreshDriver

def waiting (s : RefreshDriver) : List (PendingRefresh × Bool) :=
  Batches.waiting RefreshRecord.request? s.log

/-- Every batch has the flags of the requests that wait for it. -/
def Batched (log : List RefreshRecord) : Prop :=
  ∀ (j : Nat) generation batch, log[j]? = some (.started generation batch) →
    ∀ flag ∈ PendingRefresh.flags,
      flag batch = (Batches.waiting RefreshRecord.request? (log.take j)).any fun item => flag item.1

structure Driven (s : RefreshDriver) : Prop where
  delay : s.coalescer.debouncer.delay = kRefreshDelay
  flags : ∀ flag ∈ PendingRefresh.flags, flag s.coalescer.takePending.1 = s.waiting.any fun item => flag item.1
  batches : Batched s.log
  running : s.coalescer.debouncer.running = true →
    0 < s.coalescer.generation ∧ s.coalescer.generation ∈ s.runs ∧ kRefreshDelay ≤ s.clock ∧
      s.coalescer.debouncer.pending = s.coalescer.debouncer.dirty ∧
      (s.coalescer.debouncer.dirty = true ↔ s.waiting ≠ []) ∧ ∀ item ∈ s.waiting, item.2 = true
  idle : s.coalescer.debouncer.running = false → s.coalescer.debouncer.dirty = false ∧
    (s.waiting ≠ [] → s.coalescer.debouncer.pending = true ∧
      (s.deadline = none → s.fired = true ∧ s.coalescer.debouncer.lastEvent + kRefreshDelay ≤ s.clock))
  deadline : ∀ d, s.deadline = some d → kRefreshDelay ≤ d ∧
    (s.coalescer.debouncer.running = false → s.coalescer.debouncer.pending = true →
      s.coalescer.debouncer.lastEvent + kRefreshDelay ≤ d)

/-- What a call does while the invariant holds. A forced run is marked as running unless the
clock is within the delay of its epoch. -/
inductive Moves (s : RefreshDriver) : RefreshDriver → Prop
  | tick (elapsed : Nat) : Moves s { s with clock := s.clock + elapsed }
  | folded (asked : PendingRefresh) (hRunning : s.coalescer.debouncer.running = true) :
      Moves s
        { s with
          coalescer := { s.coalescer.mergeIntoPending asked with
            debouncer := { s.coalescer.debouncer with
              lastEvent := s.clock, pending := true, dirty := true } }
          log := s.log ++ [.requested asked true] }
  | armed (asked : PendingRefresh) (hIdle : s.coalescer.debouncer.running = false) :
      Moves s
        { s with
          coalescer := { s.coalescer.mergeIntoPending asked with
            debouncer := { s.coalescer.debouncer with lastEvent := s.clock, pending := true } }
          deadline := some (s.clock + kRefreshDelay)
          log := s.log ++ [.requested asked false] }
  | expired (d : Nat) (hDeadline : s.deadline = some d) (hOver : d ≤ s.clock) :
      Moves s { s with deadline := none, fired := true }
  | tooEarly (hNot : s.coalescer.debouncer.running = true ∨ s.coalescer.debouncer.pending = false ∨
        s.clock < s.coalescer.debouncer.lastEvent + kRefreshDelay) :
      Moves s { s with fired := false }
  | started (hFired : s.fired = true) (hIdle : s.coalescer.debouncer.running = false)
      (hPending : s.coalescer.debouncer.pending = true)
      (hQuiet : s.coalescer.debouncer.lastEvent + kRefreshDelay ≤ s.clock) :
      Moves s
        (start { s with fired := false } (s.coalescer.generation + 1)
          { s.coalescer with
            debouncer := { s.coalescer.debouncer with pending := false, running := true }
            generation := s.coalescer.generation + 1 })
  | forced (asked : PendingRefresh) (running : Bool) (hClock : running = true → kRefreshDelay ≤ s.clock) :
      Moves s
        (start { s with log := s.log ++ [.requested asked false] } (s.coalescer.generation + 1)
          { s.coalescer.mergeIntoPending asked with
            debouncer := { delay := kRefreshDelay, pending := !running, running }
            generation := s.coalescer.generation + 1 })
  | again (hRunning : s.coalescer.debouncer.running = true) (hDirty : s.coalescer.debouncer.dirty = true) :
      Moves s
        { s with
          coalescer := { s.coalescer with
            debouncer := { delay := kRefreshDelay, pending := true } }
          deadline := some s.clock
          runs := s.runs.filter (· ≠ s.coalescer.generation) }
  | finished (hClean : s.coalescer.debouncer.dirty = false) :
      Moves s
        { s with
          coalescer := { s.coalescer with debouncer := { s.coalescer.debouncer with running := false } }
          runs := s.runs.filter (· ≠ s.coalescer.generation) }
  | stale (generation : Nat) (hStale : generation = 0 ∨ generation ≠ s.coalescer.generation) :
      Moves s { s with runs := s.runs.filter (· ≠ generation) }
  | dropped : Moves s { s with coalescer := s.coalescer.reset, log := s.log ++ [.dropped] }

theorem expired_of_step {s s' : RefreshDriver} (hStep : s.step .expire = some s') :
    ∃ d, s.deadline = some d ∧ d ≤ s.clock ∧ s' = { s with deadline := none, fired := true } := by
  simp only [step] at hStep
  split at hStep
  next d hDeadline =>
    split at hStep
    next hOver => exact ⟨d, hDeadline, hOver, (Option.some.inj hStep).symm⟩
    next => cases hStep
  next => cases hStep

theorem moves_of_step {s s' : RefreshDriver} {event : RefreshEvent} (h : s.Driven)
    (hStep : s.step event = some s') : Moves s s' := by
  cases event with
  | tick elapsed => exact Option.some.inj hStep ▸ .tick elapsed
  | request asked =>
    simp only [step] at hStep
    cases hRunning : s.coalescer.debouncer.running with
    | true =>
      rw [RefreshCoalescer.request_running asked s.clock hRunning] at hStep
      exact Option.some.inj hStep ▸ .folded asked hRunning
    | false =>
      rw [RefreshCoalescer.request_idle asked s.clock hRunning (h.delay ▸ (by decide))] at hStep
      exact Option.some.inj hStep ▸ .armed asked hRunning
  | expire =>
    obtain ⟨d, hDeadline, hOver, rfl⟩ := expired_of_step hStep
    exact .expired d hDeadline hOver
  | onTimeout =>
    simp only [step] at hStep
    split at hStep
    next hFired =>
      cases hRunning : s.coalescer.debouncer.running with
      | true =>
        rw [RefreshCoalescer.onTimeout_running s.clock hRunning (h.running hRunning).2.2.2.1] at hStep
        exact Option.some.inj hStep ▸ .tooEarly (.inl hRunning)
      | false =>
        by_cases hDue : s.coalescer.debouncer.pending = true ∧
          s.coalescer.debouncer.lastEvent + kRefreshDelay ≤ s.clock
        · rw [RefreshCoalescer.onTimeout_due hRunning hDue.1 (h.delay.symm ▸ hDue.2)] at hStep
          exact Option.some.inj hStep ▸ .started hFired hRunning hDue.1 hDue.2
        · have hNot : s.coalescer.debouncer.pending = false ∨
              s.clock < s.coalescer.debouncer.lastEvent + kRefreshDelay := by
            rw [Decidable.not_and_iff_or_not, Bool.not_eq_true, Nat.not_le] at hDue
            exact hDue
          rw [RefreshCoalescer.onTimeout_early hRunning (h.delay ▸ (by decide)) (h.delay.symm ▸ hNot)] at hStep
          exact Option.some.inj hStep ▸ .tooEarly (.inr hNot)
    next => cases hStep
  | fireNow asked =>
    simp only [step, RefreshCoalescer.fireNow_eq] at hStep
    exact Option.some.inj hStep ▸ .forced asked _ of_decide_eq_true
  | onFinished generation =>
    rw [step] at hStep
    rcases s.coalescer.onFinished_cases generation with
      ⟨hEq, hStale⟩ | ⟨hEq, ⟨-, rfl⟩, hClean⟩ | ⟨hEq, ⟨-, rfl⟩, hDirty⟩
    · rw [hEq] at hStep
      exact Option.some.inj hStep ▸ .stale generation hStale
    · rw [hEq] at hStep
      exact Option.some.inj hStep ▸ .finished hClean
    · have hRunning : s.coalescer.debouncer.running = true := by
        cases hRunning : s.coalescer.debouncer.running with
        | true => rfl
        | false => exact absurd hDirty (by simp [(h.idle hRunning).1])
      rw [hEq] at hStep
      dsimp only at hStep
      rw [h.delay] at hStep
      exact Option.some.inj hStep ▸ .again hRunning hDirty
  | reset => exact Option.some.inj hStep ▸ .dropped

theorem Batched.append {log : List RefreshRecord} (h : Batched log) {record : RefreshRecord}
    (hLast : ∀ generation batch, record = .started generation batch → ∀ flag ∈ PendingRefresh.flags,
      flag batch = (Batches.waiting RefreshRecord.request? log).any fun item => flag item.1) :
    Batched (log ++ [record]) := by
  intro j generation batch hEntry flag hFlag
  rcases Nat.lt_or_ge j log.length with hLess | hGe
  · rw [List.getElem?_append_left hLess] at hEntry
    rw [List.take_append_of_le_length (Nat.le_of_lt hLess)]
    exact h j generation batch hEntry flag hFlag
  · have hj := (List.getElem?_eq_some_iff.mp hEntry).1
    rw [List.length_append, List.length_singleton] at hj
    obtain rfl : j = log.length := Nat.le_antisymm (Nat.le_of_lt_succ hj) hGe
    rw [List.getElem?_concat_length] at hEntry
    rw [List.take_left]
    exact hLast generation batch (Option.some.inj hEntry) flag hFlag

theorem Driven.requested {s : RefreshDriver} (h : s.Driven) (asked : PendingRefresh) (folded : Bool) :
    (∀ flag ∈ PendingRefresh.flags, flag (s.coalescer.mergeIntoPending asked).takePending.1 =
      (Batches.waiting RefreshRecord.request? (s.log ++ [.requested asked folded])).any fun item => flag item.1) ∧
    Batched (s.log ++ [.requested asked folded]) ∧
    Batches.waiting RefreshRecord.request? (s.log ++ [.requested asked folded]) =
      s.waiting ++ [(asked, folded)] := by
  have hWaiting : Batches.waiting RefreshRecord.request? (s.log ++ [.requested asked folded]) =
      s.waiting ++ [(asked, folded)] := Batches.waiting_item rfl
  refine ⟨?_, h.batches.append fun _ _ hRecord => (nomatch hRecord), hWaiting⟩
  intro flag hFlag
  rw [hWaiting, RefreshCoalescer.flag_mergeIntoPending hFlag, h.flags flag hFlag]
  simp

@[simp] theorem waiting_start (s : RefreshDriver) (generation : Nat) (c : RefreshCoalescer) :
    (s.start generation c).waiting = [] := Batches.waiting_cut rfl

/-- A dispatch takes everything that waits. -/
theorem driven_start {s : RefreshDriver} {c : RefreshCoalescer} (hDelay : c.debouncer.delay = kRefreshDelay)
    (hFlags : ∀ flag ∈ PendingRefresh.flags, flag c.takePending.1 = s.waiting.any fun item => flag item.1)
    (hBatches : Batched s.log) (hPos : 0 < c.generation) (hClean : c.debouncer.dirty = false)
    (hRunning : c.debouncer.running = true → kRefreshDelay ≤ s.clock ∧ c.debouncer.pending = false)
    (hDeadline : ∀ d, s.deadline = some d → kRefreshDelay ≤ d ∧
      (c.debouncer.running = false → c.debouncer.pending = true →
        c.debouncer.lastEvent + kRefreshDelay ≤ d)) : (s.start c.generation c).Driven := by
  refine ⟨hDelay, ?_, ?_, ?_, ?_, hDeadline⟩
  · intro flag hFlag
    rw [waiting_start]
    exact RefreshCoalescer.flag_taken hFlag c
  · refine hBatches.append fun generation batch hRecord flag hFlag => ?_
    injection hRecord with _ hBatch
    rw [← hBatch]
    exact hFlags flag hFlag
  · intro hStarted
    obtain ⟨hClock, hPending⟩ := hRunning hStarted
    refine ⟨hPos, List.mem_append_right _ (List.mem_singleton_self _), hClock, hPending.trans hClean.symm, ?_⟩
    rw [waiting_start]
    refine ⟨iff_of_false (fun hDirty => absurd (hClean.symm.trans hDirty) (by simp)) (by simp), ?_⟩
    exact fun _ hItem => absurd hItem List.not_mem_nil
  · intro _
    rw [waiting_start]
    exact ⟨hClean, fun hWaiting => absurd rfl hWaiting⟩

theorem Driven.moves {s s' : RefreshDriver} (h : s.Driven) (hMoves : Moves s s') : s'.Driven := by
  cases hMoves with
  | tick elapsed =>
    refine ⟨h.delay, h.flags, h.batches, ?_, ?_, h.deadline⟩
    · intro hRunning
      obtain ⟨hPos, hRuns, hClock, hDirty⟩ := h.running hRunning
      exact ⟨hPos, hRuns, Nat.le_add_right_of_le hClock, hDirty⟩
    · intro hIdle
      obtain ⟨hDirty, hWaits⟩ := h.idle hIdle
      refine ⟨hDirty, fun hWaiting => ⟨(hWaits hWaiting).1, fun hNone => ?_⟩⟩
      obtain ⟨hFired, hQuiet⟩ := (hWaits hWaiting).2 hNone
      exact ⟨hFired, Nat.le_add_right_of_le hQuiet⟩
  | folded asked hRunning =>
    obtain ⟨hFlags, hBatches, hWaiting⟩ := h.requested asked true
    refine ⟨h.delay, hFlags, hBatches, ?_, ?_, ?_⟩
    · intro _
      obtain ⟨hPos, hRuns, hClock, -, -, hFolded⟩ := h.running hRunning
      refine ⟨hPos, hRuns, hClock, rfl, iff_of_true rfl ?_, ?_⟩
      · rw [waiting, hWaiting]
        simp
      intro item hItem
      rw [waiting, hWaiting] at hItem
      rcases List.mem_append.mp hItem with hItem | hItem
      · exact hFolded item hItem
      · rw [List.mem_singleton.mp hItem]
    · exact fun hIdle => absurd (hRunning.symm.trans hIdle) (by simp)
    · exact fun d hd => ⟨(h.deadline d hd).1, fun hIdle => absurd (hRunning.symm.trans hIdle) (by simp)⟩
  | armed asked hIdle =>
    obtain ⟨hFlags, hBatches, -⟩ := h.requested asked false
    refine ⟨h.delay, hFlags, hBatches, ?_, ?_, ?_⟩
    · exact fun hRunning => absurd (hIdle.symm.trans hRunning) (by simp)
    · exact fun _ => ⟨(h.idle hIdle).1, fun _ => ⟨rfl, fun hNone => absurd hNone (by simp)⟩⟩
    · intro d hd
      obtain rfl := Option.some.inj hd
      exact ⟨Nat.le_add_left _ _, fun _ _ => Nat.le_refl _⟩
  | expired d hDeadline hOver =>
    refine ⟨h.delay, h.flags, h.batches, h.running, ?_, fun _ hd => absurd hd (by simp)⟩
    intro hIdle
    obtain ⟨hDirty, hWaits⟩ := h.idle hIdle
    refine ⟨hDirty, fun hWaiting => ⟨(hWaits hWaiting).1, fun _ => ⟨rfl, ?_⟩⟩⟩
    exact Nat.le_trans ((h.deadline d hDeadline).2 hIdle (hWaits hWaiting).1) hOver
  | tooEarly hNot =>
    refine ⟨h.delay, h.flags, h.batches, h.running, ?_, h.deadline⟩
    intro hIdle
    obtain ⟨hDirty, hWaits⟩ := h.idle hIdle
    refine ⟨hDirty, fun hWaiting => ⟨(hWaits hWaiting).1, fun hNone => ?_⟩⟩
    obtain ⟨hPending, hArmed⟩ := hWaits hWaiting
    rcases hNot with hRunning | hEmpty | hSoon
    · exact absurd (hIdle.symm.trans hRunning) (by simp)
    · exact absurd (hPending.symm.trans hEmpty) (by simp)
    · exact absurd (hArmed hNone).2 (Nat.not_le.mpr hSoon)
  | started hFired hIdle hPending hQuiet =>
    refine driven_start h.delay h.flags h.batches (Nat.succ_pos _) (h.idle hIdle).1 ?_ ?_
    · exact fun _ => ⟨Nat.le_trans (Nat.le_add_left _ _) hQuiet, rfl⟩
    · exact fun d hd => ⟨(h.deadline d hd).1, fun hStopped => absurd hStopped (by simp)⟩
  | forced asked running hClock =>
    obtain ⟨hFlags, hBatches, -⟩ := h.requested asked false
    refine driven_start rfl hFlags hBatches (Nat.succ_pos _) rfl ?_ ?_
    · exact fun hRunning => ⟨hClock hRunning, by simpa using hRunning⟩
    · exact fun d hd => ⟨(h.deadline d hd).1, fun _ _ => by simpa using (h.deadline d hd).1⟩
  | again hRunning hDirty =>
    obtain ⟨-, -, hClock, -⟩ := h.running hRunning
    refine ⟨rfl, h.flags, h.batches, fun hStarted => absurd hStarted (by simp), ?_, ?_⟩
    · exact fun _ => ⟨rfl, fun _ => ⟨rfl, fun hNone => absurd hNone (by simp)⟩⟩
    · intro d hd
      obtain rfl := Option.some.inj hd
      exact ⟨hClock, fun _ _ => by simpa using hClock⟩
  | finished hClean =>
    refine ⟨h.delay, h.flags, h.batches, fun hRunning => absurd hRunning (by simp), fun _ => ⟨hClean, ?_⟩, ?_⟩
    · intro hWaiting
      cases hRunning : s.coalescer.debouncer.running with
      | true =>
        obtain ⟨-, -, -, -, hDirty, -⟩ := h.running hRunning
        exact absurd (hClean.symm.trans (hDirty.mpr hWaiting)) (by simp)
      | false => exact (h.idle hRunning).2 hWaiting
    · intro d hd
      refine ⟨(h.deadline d hd).1, fun _ hPending => ?_⟩
      cases hRunning : s.coalescer.debouncer.running with
      | true =>
        obtain ⟨-, -, -, hDirty, -⟩ := h.running hRunning
        exact absurd (hPending.symm.trans (hDirty.trans hClean)) (by simp)
      | false => exact (h.deadline d hd).2 hRunning hPending
  | stale generation hStale =>
    refine ⟨h.delay, h.flags, h.batches, ?_, h.idle, h.deadline⟩
    intro hRunning
    obtain ⟨hPos, hRuns, hRest⟩ := h.running hRunning
    refine ⟨hPos, List.mem_filter.mpr ⟨hRuns, ?_⟩, hRest⟩
    rcases hStale with rfl | hOther
    · simpa using Nat.ne_of_gt hPos
    · simpa using hOther.symm
  | dropped =>
    have hEmpty : Batches.waiting RefreshRecord.request? (s.log ++ [.dropped]) = [] :=
      Batches.waiting_cut rfl
    refine ⟨rfl, ?_, ?_, fun hRunning => absurd hRunning (by simp [RefreshCoalescer.reset]), ?_, ?_⟩
    · intro flag hFlag
      simp only [waiting, hEmpty]
      exact RefreshCoalescer.flag_reset hFlag s.coalescer
    · exact h.batches.append fun _ _ hRecord => nomatch hRecord
    · exact fun _ => ⟨rfl, fun hWaiting => absurd hEmpty hWaiting⟩
    · exact fun d hd => ⟨(h.deadline d hd).1, fun _ hPending => absurd hPending (by simp [RefreshCoalescer.reset])⟩

theorem driven_new (first : Nat) : Driven { clock := first } := by
  refine ⟨rfl, ?_, ?_, fun hRunning => absurd hRunning Bool.false_ne_true, ?_, ?_⟩
  · intro flag hFlag
    exact RefreshCoalescer.flag_taken hFlag {}
  · intro j generation batch hEntry
    cases hEntry
  · exact fun _ => ⟨rfl, fun hWaiting => absurd rfl hWaiting⟩
  · intro d hd
    cases hd

theorem driven_run {first : Nat} {events : List RefreshEvent} {s : RefreshDriver}
    (hRun : Run step (fun _ _ => True) { clock := first } events s) : s.Driven :=
  hRun.invariant (driven_new first) fun _ _ _ h _ hStep => h.moves (moves_of_step h hStep)

end RefreshDriver

end GitBranchManager
