import GitBranchManager.Operations.ExactlyOnce

/-! # A cancelled operation never runs -/

namespace GitBranchManager

open Library

/-- The phases from which a `run` can begin or in which it is active. -/
def Phase.mayRun : Phase → Bool
  | .preflight => true
  | .cleared => true
  | .running _ => true
  | .waiting _ => true
  | _ => false

namespace OperationRunner

/-- The operation is tripped, has not run, and is not past the checks. -/
structure Doomed (id : Nat) (s : OperationRunner) : Prop where
  tripped : id ∈ s.tripped
  old : id < s.nextId
  waits : ∀ queued phase, s.worker = .busy queued phase → queued.id = id → phase.mayRun = false
  quiet : .began id ∉ s.log

theorem quiet_append {id : Nat} {log : List RunnerRecord} {entry : RunnerRecord} (hQuiet : .began id ∉ log)
    (hEntry : entry ≠ .began id) : .began id ∉ log ++ [entry] := by
  rw [List.mem_append, List.mem_singleton]
  rintro (hBegan | hBegan)
  · exact hQuiet hBegan
  · exact hEntry hBegan.symm

theorem Doomed.work {id : Nat} {s s' : OperationRunner} (h : Doomed id s) (hWorks : Works s s') :
    Doomed id s' := by
  cases hWorks with
  | pop queued queue hIdle hQueue =>
    refine ⟨h.tripped, h.old, ?_, h.quiet⟩
    intro q phase hq _
    injection hq with _ hPhase
    rw [← hPhase]
    rfl
  | move queued phase next killable description hBusy hMove =>
    refine ⟨h.tripped, h.old, ?_, h.quiet⟩
    intro q p hq hId
    injection hq with hq hPhase
    subst hq hPhase
    have hBefore := h.waits queued phase hBusy hId
    have hTripped : queued.id ∈ s.tripped := hId ▸ h.tripped
    cases hMove with
    | admitted hLive => exact absurd hTripped hLive
    | allowed hLive => exact absurd hTripped hLive
    | marked | markThrows | refused | blocked | preflightThrows | beginThrows | rerunThrows | kindThrows =>
      rfl
  | began queued phase retries hBusy hPhase =>
    have hOther : queued.id ≠ id := by
      intro hId
      have hBefore := h.waits queued phase hBusy hId
      rcases hPhase with ⟨rfl, -⟩ | rfl
      · cases hBefore
      · cases hBefore
    refine ⟨h.tripped, h.old, ?_, quiet_append h.quiet ?_⟩
    · intro q p hq hId
      injection hq with hq
      exact absurd (hq ▸ hId) hOther
    · intro hBegan
      injection hBegan with hId
      exact hOther hId
  | ended queued retries next hBusy hNext =>
    have hOther : queued.id ≠ id := by
      intro hId
      have hBefore := h.waits queued _ hBusy hId
      cases hBefore
    refine ⟨h.tripped, h.old, ?_, quiet_append h.quiet (by simp)⟩
    intro q p hq hId
    injection hq with hq
    exact absurd (hq ▸ hId) hOther
  | delivered queued phase next outcome hBusy hPhase =>
    refine ⟨h.tripped, h.old, ?_, quiet_append h.quiet (by simp)⟩
    intro q p hq _
    injection hq with _ hNext
    rw [← hNext]
    rcases hPhase with ⟨-, rfl | rfl⟩ | ⟨-, -, rfl⟩
    · rfl
    · rfl
    · rfl
  | skipped queued hBusy hDone =>
    refine ⟨h.tripped, h.old, ?_, h.quiet⟩
    intro q p hq _
    injection hq with _ hNext
    rw [← hNext]
    rfl
  | released queued hBusy => exact ⟨h.tripped, h.old, fun _ _ hq => absurd hq (by simp), h.quiet⟩
  | exited => exact ⟨h.tripped, h.old, fun _ _ hq => absurd hq (by simp), h.quiet⟩

/-- A cancelled source stays cancelled, and no later operation takes its id. -/
theorem Doomed.step {id : Nat} {s s' : OperationRunner} {event : RunnerEvent} (h : Doomed id s)
    (hStep : s.step event = some s') : Doomed id s' := by
  have more (ids : List Nat) : id ∈ s.tripped ++ ids := List.mem_append_left _ h.tripped
  cases event with
  | submit operation =>
    rw [OperationRunner.step] at hStep
    split at hStep
    · cases hStep
    · obtain rfl := Option.some.inj hStep
      exact ⟨List.mem_append_left _ (more _), Nat.lt_succ_of_lt h.old, h.waits,
        quiet_append h.quiet (by simp)⟩
  | otherId =>
    obtain rfl := Option.some.inj hStep
    exact ⟨h.tripped, Nat.lt_succ_of_lt h.old, h.waits, h.quiet⟩
  | cancel other =>
    obtain rfl := Option.some.inj hStep
    rcases cancel_cases s other with hEq | hEq
    · rw [hEq]
      exact h
    · rw [hEq]
      exact ⟨more _, h.old, h.waits, h.quiet⟩
  | trip other =>
    obtain rfl := Option.some.inj hStep
    exact ⟨more _, h.old, h.waits, h.quiet⟩
  | prepareForShutdown =>
    obtain rfl := Option.some.inj hStep
    exact ⟨more _, h.old, h.waits, h.quiet⟩
  | stop =>
    obtain rfl := Option.some.inj hStep
    exact ⟨h.tripped, h.old, h.waits, h.quiet⟩
  | worker action => exact h.work (works_of_work hStep)

theorem Doomed.run {id : Nat} {s s' : OperationRunner} {events : List RunnerEvent} (h : Doomed id s)
    (hRun : Run OperationRunner.step (fun _ _ => True) s events s') : .began id ∉ s'.log :=
  (hRun.invariant h fun _ _ _ hm _ hStep => Doomed.step hm hStep).quiet

/-- A queued operation has not begun, and is not the one in the worker's hands. -/
theorem Consistent.fresh {s : OperationRunner} (h : s.Consistent) {id : Nat}
    (hId : id ∈ s.queue.map QueuedOperation.id) : id < s.nextId ∧
      (∀ queued phase, s.worker = .busy queued phase → queued.id = id → phase.mayRun = false) ∧
      .began id ∉ s.log := by
  have hOrder : (submissions s.log).map Prod.fst = (completions s.log ++ inFlight s.worker).map Prod.fst ++
      s.queue.map QueuedOperation.id := by
    rw [h.order, ← List.append_assoc, List.map_append, List.map_map]
    rfl
  have hNodup := h.nodup
  rw [hOrder] at hNodup
  have hApart := List.disjoint_of_nodup_append hNodup
  refine ⟨?_, ?_, ?_⟩
  · have hMem : id ∈ (submissions s.log).map Prod.fst := hOrder ▸ List.mem_append_right _ hId
    obtain ⟨entry, hEntry, rfl⟩ := List.mem_map.mp hMem
    exact h.bound entry hEntry
  · rintro queued phase hBusy rfl
    refine Bool.eq_false_iff.mpr fun hRun => ?_
    have hOpen : phase.isOpen = true := by
      cases phase <;> simp_all [Phase.mayRun, Phase.isOpen]
    refine hApart ?_ hId
    rw [hBusy, inFlight, h.opened queued phase hBusy hOpen, if_pos rfl, List.map_append]
    exact List.mem_append_right _ (List.mem_singleton_self _)
  · exact fun hBegan => hApart (h.began id hBegan) hId

theorem cancel_queued {s : OperationRunner} {id : Nat} (hId : id ∈ s.queue.map QueuedOperation.id) :
    s.cancel id = (.cancelled, none, s.trip id) := by
  rw [cancel, if_pos]
  obtain ⟨queued, hMem, rfl⟩ := List.mem_map.mp hId
  exact List.any_eq_true.mpr ⟨queued, hMem, beq_self_eq_true _⟩

/-- An operation that `cancel` finds in the queue is reported cancelled and never runs; neither
does a background operation that a foreground `submit` finds there. -/
theorem cancelled_never_runs {first : Nat} {events : List RunnerEvent} {s : OperationRunner}
    (hRun : Run step (fun _ _ => True) { nextId := first } events s) :
    (∀ queued ∈ s.queue, (s.cancel queued.id).1 = .cancelled ∧
      ∀ events' s', Run step (fun _ _ => True) (s.cancel queued.id).2.2 events' s' →
        .began queued.id ∉ s'.log) ∧
    (∀ operation, operation.isBackground = false → ∀ queued ∈ s.queue,
      queued.operation.isBackground = true →
      ∀ events' s', Run step (fun _ _ => True) (s.submit operation).2 events' s' →
        .began queued.id ∉ s'.log) := by
  have h := consistent_run hRun
  constructor
  · intro queued hMem
    have hId : queued.id ∈ s.queue.map QueuedOperation.id := List.mem_map_of_mem hMem
    obtain ⟨hOld, hWaits, hQuiet⟩ := h.fresh hId
    have hDoomed : Doomed queued.id (s.trip queued.id) :=
      ⟨List.mem_append_right _ (List.mem_singleton_self _), hOld, hWaits, hQuiet⟩
    rw [cancel_queued hId]
    exact ⟨rfl, fun events' s' hRun' => hDoomed.run hRun'⟩
  · intro operation hForeground queued hMem hBackground events' s' hRun'
    have hId : queued.id ∈ s.queue.map QueuedOperation.id := List.mem_map_of_mem hMem
    obtain ⟨hOld, hWaits, hQuiet⟩ := h.fresh hId
    have hTripped : queued.id ∈ backgroundIds s.queue :=
      List.mem_map_of_mem (List.mem_filter.mpr ⟨hMem, hBackground⟩)
    have hDoomed : Doomed queued.id (s.submit operation).2 := by
      refine ⟨?_, Nat.lt_succ_of_lt hOld, hWaits, quiet_append hQuiet (by simp)⟩
      simp only [submit, hForeground, Bool.false_eq_true, if_false]
      exact List.mem_append_left _ (List.mem_append_right _ hTripped)
    exact hDoomed.run hRun'

/-- The fetch is queued when the commit is submitted. -/
theorem cancelled_never_runs_fetch : ∃ s, (fetchThenCommit.take 1).foldlM step {} = some s ∧
    ∀ events' s', Run step (fun _ _ => True) (s.submit { describe := ascii "Commit" }).2 events' s' →
      .began 1 ∉ s'.log := by
  obtain ⟨s, hs, hQueue⟩ : ∃ s, (fetchThenCommit.take 1).foldlM step {} = some s ∧
      s.queue = [{ id := 1, operation := { describe := ascii "Fetch", isBackground := true } }] :=
    ⟨_, rfl, rfl⟩
  refine ⟨s, hs, ?_⟩
  exact (@cancelled_never_runs 1 (fetchThenCommit.take 1) s (.of_foldlM hs)).2 { describe := ascii "Commit" } rfl
    { id := 1, operation := { describe := ascii "Fetch", isBackground := true } }
    (hQueue ▸ List.mem_singleton_self _) rfl

end OperationRunner

end GitBranchManager
