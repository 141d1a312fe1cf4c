import GitBranchManager.Operations.PendingOperationTracker

/-! # Every outcome answers the request that submitted its operation -/

namespace GitBranchManager

open Library

theorem OperationRunner.Consistent.completions_prefix {s : OperationRunner} (h : s.Consistent) :
    OperationRunner.completions s.log <+: OperationRunner.submissions s.log := by
  rw [h.order]
  exact List.prefix_append _ _

namespace TrackedSession

open OperationRunner (submissions completions Consistent Works)

/-- An operation by its id, with the kind that its outcome carries. -/
def stamp (entry : Nat × Operation) : Nat × Option PendingOperationKind :=
  (entry.1, PendingOperationKind.fromWireName entry.2.kind)

def outcomeStamp (entry : Nat × OperationOutcome) : Nat × Option PendingOperationKind :=
  (entry.1, PendingOperationKind.fromWireName entry.2.kind)

def idsOf (kind : PendingOperationKind) (stamps : List (Nat × Option PendingOperationKind)) : List Nat :=
  (stamps.filter fun entry => entry.2 = some kind).map Prod.fst

theorem idsOf_append (kind : PendingOperationKind) (stamps more : List (Nat × Option PendingOperationKind)) :
    idsOf kind (stamps ++ more) = idsOf kind stamps ++ idsOf kind more := by
  rw [idsOf, List.filter_append, List.map_append]
  rfl

theorem idsOf_self (kind : PendingOperationKind) (id : Nat) : idsOf kind [(id, some kind)] = [id] := by
  simp [idsOf]

theorem idsOf_other {kind : PendingOperationKind} {other : Option PendingOperationKind} (h : other ≠ some kind)
    (id : Nat) : idsOf kind [(id, other)] = [] := by
  simp [idsOf, h]

theorem idsOf_prefix (kind : PendingOperationKind) {stamps more : List (Nat × Option PendingOperationKind)}
    (h : stamps <+: more) : idsOf kind stamps <+: idsOf kind more := (h.filter _).map _

section Log

theorem outcomes_append (log : List RunnerRecord) (record : RunnerRecord) :
    outcomes (log ++ [record]) = outcomes log ++ outcomes [record] :=
  List.filterMap_append

/-- What a step adds to the log besides submissions: nothing that counts, or an outcome that is
stamped with the kind of its operation. -/
inductive Logs (log : List RunnerRecord) : List RunnerRecord → Prop
  | same : Logs log log
  | began (id : Nat) : Logs log (log ++ [.began id])
  | ended (id : Nat) : Logs log (log ++ [.ended id])
  | delivered (id : Nat) (operation : Operation) (outcome : OperationOutcome)
      (hKind : PendingOperationKind.fromWireName outcome.kind = PendingOperationKind.fromWireName operation.kind) :
      Logs log (log ++ [.delivered id operation outcome])

section Logs

variable {log log' : List RunnerRecord}

theorem Logs.submissions (h : Logs log log') : submissions log' = submissions log := by
  cases h with
  | same => rfl
  | began | ended | delivered => exact (OperationRunner.submissions_append _ _).trans (List.append_nil _)

theorem Logs.outcomes (h : Logs log log') : outcomes log <+: outcomes log' := by
  cases h with
  | same => exact List.prefix_rfl
  | began | ended | delivered =>
    rw [outcomes_append]
    exact List.prefix_append _ _

theorem Logs.stamped (h : Logs log log')
    (hStamped : (TrackedSession.outcomes log).map outcomeStamp = (completions log).map stamp) :
    (TrackedSession.outcomes log').map outcomeStamp = (completions log').map stamp := by
  cases h with
  | same => exact hStamped
  | began | ended =>
    rw [outcomes_append, OperationRunner.completions_append, List.map_append, List.map_append, hStamped]
    rfl
  | delivered id operation outcome hKind =>
    rw [outcomes_append, OperationRunner.completions_append, List.map_append, List.map_append, hStamped]
    exact congrArg (_ ++ [·]) (Prod.ext rfl hKind)

end Logs

theorem not_tracked {operation : Operation} (h : ¬ isTracked operation = true) :
    PendingOperationKind.fromWireName operation.kind = none := by
  rw [isTracked, Option.isSome_iff_ne_none, not_not] at h
  exact h

theorem logs_deliver {s s' : OperationRunner} {throws : Bool}
    (h : s.work (.deliver throws) = some s') : Logs s.log s'.log := by
  rw [OperationRunner.work] at h
  split at h
  · obtain rfl := Option.some.inj h
    exact .delivered _ _ _ rfl
  · cases h

theorem logs_failUndelivered {s s' : OperationRunner} {kindThrows throws : Bool}
    (h : s.work (.failUndelivered kindThrows throws) = some s')
    (hKind : refuses s (.worker (.failUndelivered kindThrows throws)) = false) : Logs s.log s'.log := by
  rw [OperationRunner.work] at h
  split at h
  · rename_i queued hBusy
    split at h
    · obtain rfl := Option.some.inj h
      refine .delivered _ _ _ ?_
      cases kindThrows with
      | false => rfl
      | true =>
        rw [refuses, hBusy] at hKind
        exact (not_tracked (Bool.eq_false_iff.mp hKind)).symm
    · obtain rfl := Option.some.inj h
      exact .same
  · cases h

theorem logs_work {s s' : OperationRunner} {action : OperationRunner.WorkerAction} (h : s.work action = some s')
    (hKind : refuses s (.worker action) = false) : Logs s.log s'.log := by
  cases action with
  | deliver throws => exact logs_deliver h
  | failUndelivered kindThrows throws => exact logs_failUndelivered h hKind
  | begin | rerun =>
    rw [OperationRunner.work] at h
    split at h
    · obtain rfl := Option.some.inj h
      exact .began _
    · cases h
  | finishRun result =>
    rw [OperationRunner.work] at h
    split at h
    · obtain rfl := Option.some.inj h
      exact .ended _
    · cases h
  | beginThrows | exit =>
    rw [OperationRunner.work] at h
    split at h
    · split at h
      · cases h <;> exact .same
      · cases h <;> exact .same
    · cases h
  | pop | mark | markThrows | check | preflight | preflightThrows | rerunThrows | kindThrows | release =>
    rw [OperationRunner.work] at h
    split at h
    · obtain rfl := Option.some.inj h
      exact .same
    · cases h

theorem logs_step {s s' : OperationRunner} {event : OperationRunner.RunnerEvent} (h : s.step event = some s')
    (hKind : refuses s event = false) : Logs s.log s'.log := by
  cases event with
  | submit operation => cases hKind
  | worker action => exact logs_work h hKind
  | cancel id =>
    obtain rfl := Option.some.inj h
    rcases OperationRunner.cancel_cases s id with hEq | hEq
    · rw [hEq]
      exact .same
    · rw [hEq]
      exact .same
  | otherId | trip | prepareForShutdown | stop =>
    obtain rfl := Option.some.inj h
    exact .same

end Log

/-- Of each kind the requests made are those handed out, in order, then those that wait. -/
structure Inv (s : TrackedSession) : Prop where
  runner : s.runner.Consistent
  stamped : (outcomes s.runner.log).map outcomeStamp = (completions s.runner.log).map stamp
  emits : ∀ entry ∈ submissions s.runner.log, ∀ kind,
    PendingOperationKind.fromWireName entry.2.kind = some kind → s.emits entry.1 = kind.completionEvent
  requests : ∀ kind, (s.requested kind).map Prod.fst = idsOf kind ((submissions s.runner.log).map stamp)
  answers : ∀ kind, (s.answered kind).map Prod.fst =
    idsOf kind (((outcomes s.runner.log).take s.handled).map outcomeStamp)
  matched : ∀ kind, s.answered kind <+: s.requested kind
  waiting : s.isOpen = true → ∀ kind,
    s.tracker.queue kind = ((s.requested kind).drop (s.answered kind).length).map Prod.snd
  handled : s.handled ≤ (outcomes s.runner.log).length

theorem inv_start (first : Nat) : Inv (start first) where
  runner := OperationRunner.consistent_start first
  stamped := rfl
  emits _ hNone := absurd hNone List.not_mem_nil
  requests _ := rfl
  answers _ := rfl
  matched _ := List.prefix_rfl
  waiting _ _ := rfl
  handled := Nat.le_refl 0

theorem submitTo_eq {s s' : TrackedSession} {operation : Operation} {event : CompletionEvent}
    (h : s.submitTo operation event = some s') : s.runner.stopping = false ∧
      s' = { s with
        runner := (s.runner.submit operation).2
        emits := Function.update s.emits s.runner.nextId event } := by
  obtain ⟨runner, hStep, rfl⟩ := Option.map_eq_some_iff.mp h
  rw [OperationRunner.step] at hStep
  split at hStep
  · cases hStep
  · rename_i hRunning
    obtain rfl := Option.some.inj hStep
    exact ⟨Bool.eq_false_iff.mpr hRunning, rfl⟩

/-- One entry more of one kind. -/
theorem ids_update (entries : (kind : PendingOperationKind) → List (Nat × PendingRequest kind))
    (kind other : PendingOperationKind) (entry : Nat × PendingRequest kind) :
    (Function.update entries kind (entries kind ++ [entry]) other).map Prod.fst =
      (entries other).map Prod.fst ++ idsOf other [(entry.1, some kind)] := by
  by_cases hSame : other = kind
  · subst hSame
    rw [Function.update_self, List.map_append, idsOf_self]
    rfl
  · rw [Function.update_of_ne hSame, idsOf_other fun hEqual => hSame (Option.some.inj hEqual).symm, List.append_nil]

section Steps

variable {s : TrackedSession} {operation : Operation}

theorem submissions_submit (s : OperationRunner) (operation : Operation) :
    submissions (s.submit operation).2.log = submissions s.log ++ [(s.nextId, operation)] :=
  OperationRunner.submissions_append _ _

theorem outcomes_submit (s : OperationRunner) (operation : Operation) :
    outcomes (s.submit operation).2.log = outcomes s.log :=
  (outcomes_append _ _).trans (List.append_nil _)

theorem completions_submit (s : OperationRunner) (operation : Operation) :
    completions (s.submit operation).2.log = completions s.log :=
  (OperationRunner.completions_append _ _).trans (List.append_nil _)

theorem Inv.emits_submit (h : Inv s) {event : CompletionEvent}
    (hEvent : ∀ kind, PendingOperationKind.fromWireName operation.kind = some kind → event = kind.completionEvent) :
    ∀ entry ∈ submissions (s.runner.submit operation).2.log, ∀ kind,
      PendingOperationKind.fromWireName entry.2.kind = some kind →
      Function.update s.emits s.runner.nextId event entry.1 = kind.completionEvent := by
  intro entry hEntry kind hKind
  rw [submissions_submit, List.mem_append, List.mem_singleton] at hEntry
  rcases hEntry with hOld | rfl
  · rw [Function.update_of_ne (h.runner.bound entry hOld).ne]
    exact h.emits entry hOld kind hKind
  · rw [Function.update_self]
    exact hEvent kind hKind

theorem Inv.request (h : Inv s) (hRunning : s.runner.stopping = false) {kind : PendingOperationKind}
    (request : PendingRequest kind) (hKind : operation.kind = kind.wireName) :
    Inv { s with
      runner := (s.runner.submit operation).2
      emits := Function.update s.emits s.runner.nextId kind.completionEvent
      tracker := s.tracker.record kind request
      requested := Function.update s.requested kind (s.requested kind ++ [(s.runner.nextId, request)]) } := by
  have hName := PendingOperationKind.fromWireName_eq_some.mpr hKind
  constructor
  · exact h.runner.submit hRunning operation
  · rw [outcomes_submit, completions_submit]
    exact h.stamped
  · refine h.emits_submit fun other hOther => ?_
    rw [Option.some.inj (hName.symm.trans hOther)]
  · intro other
    rw [submissions_submit, List.map_append, idsOf_append, ← h.requests]
    simp only [List.map_singleton, stamp, hName]
    exact ids_update s.requested kind other _
  · rw [outcomes_submit]
    exact h.answers
  · intro other
    simp only
    by_cases hSame : other = kind
    · subst hSame
      rw [Function.update_self]
      exact (h.matched other).trans (List.prefix_append _ _)
    · rw [Function.update_of_ne hSame]
      exact h.matched other
  · intro hOpen other
    simp only [PendingOperationTracker.record]
    by_cases hSame : other = kind
    · subst hSame
      rw [Function.update_self, Function.update_self, List.drop_append_of_le_length (h.matched other).length_le,
        List.map_append, h.waiting hOpen]
      rfl
    · rw [Function.update_of_ne hSame, Function.update_of_ne hSame]
      exact h.waiting hOpen other
  · rw [outcomes_submit]
    exact h.handled

theorem Inv.submit (h : Inv s) (hRunning : s.runner.stopping = false) (hOther : ¬ isTracked operation = true)
    (event : CompletionEvent) :
    Inv { s with
      runner := (s.runner.submit operation).2
      emits := Function.update s.emits s.runner.nextId event } := by
  have hName := not_tracked hOther
  constructor
  · exact h.runner.submit hRunning operation
  · rw [outcomes_submit, completions_submit]
    exact h.stamped
  · refine h.emits_submit fun kind hKind => ?_
    rw [hName] at hKind
    cases hKind
  · intro kind
    rw [submissions_submit, List.map_append, idsOf_append, ← h.requests]
    simp only [List.map_singleton, stamp, hName]
    rw [idsOf_other (by simp), List.append_nil]
  · rw [outcomes_submit]
    exact h.answers
  · exact h.matched
  · exact h.waiting
  · rw [outcomes_submit]
    exact h.handled

/-- A step of the queue that submits nothing. -/
theorem Inv.runs (h : Inv s) {runner : OperationRunner} (hConsistent : runner.Consistent)
    (hLogs : Logs s.runner.log runner.log) : Inv { s with runner } := by
  constructor
  · exact hConsistent
  · exact hLogs.stamped h.stamped
  · simp only [hLogs.submissions]
    exact h.emits
  · simp only [hLogs.submissions]
    exact h.requests
  · intro kind
    obtain ⟨more, hMore⟩ := hLogs.outcomes
    simp only
    rw [← hMore, List.take_append_of_le_length h.handled]
    exact h.answers kind
  · exact h.matched
  · exact h.waiting
  · exact h.handled.trans hLogs.outcomes.length_le

/-- The next outcome of a kind is for the first request of the kind that waits. -/
theorem Inv.next_request (h : Inv s) {id : Nat} {outcome : OperationOutcome}
    (hNext : (outcomes s.runner.log)[s.handled]? = some (id, outcome)) {kind : PendingOperationKind}
    (hKind : PendingOperationKind.fromWireName outcome.kind = some kind) :
    s.emits id = kind.completionEvent ∧
      ∃ request rest, s.requested kind = s.answered kind ++ (id, request) :: rest := by
  have hStamps : ((outcomes s.runner.log).take s.handled).map outcomeStamp ++ [(id, some kind)] <+:
      (submissions s.runner.log).map stamp := by
    have hTake : (outcomes s.runner.log).take s.handled ++ [(id, outcome)] <+: outcomes s.runner.log := by
      have hMore := List.take_prefix (s.handled + 1) (outcomes s.runner.log)
      rw [List.take_add_one, hNext] at hMore
      exact hMore
    have hMap := hTake.map outcomeStamp
    rw [h.stamped, List.map_append, List.map_singleton, outcomeStamp, hKind] at hMap
    exact hMap.trans (h.runner.completions_prefix.map stamp)
  constructor
  · have hStamp := congrArg (·[s.handled]?) h.stamped
    simp only [List.getElem?_map, hNext, Option.map_some] at hStamp
    obtain ⟨⟨other, operation⟩, hDone, hSame⟩ := Option.map_eq_some_iff.mp hStamp.symm
    obtain ⟨rfl, hOperation⟩ := Prod.mk.inj hSame
    exact h.emits _ (h.runner.completions_prefix.subset (List.mem_of_getElem? hDone)) kind (hOperation.trans hKind)
  · have hIds := idsOf_prefix kind hStamps
    rw [idsOf_append, idsOf_self, ← h.answers, ← h.requests] at hIds
    obtain ⟨rest, hRest⟩ := h.matched kind
    rw [← hRest, List.map_append, List.prefix_append_right_inj] at hIds
    cases rest with
    | nil => exact absurd (List.prefix_nil.mp hIds) (List.cons_ne_nil _ _)
    | cons first rest =>
      obtain ⟨rfl, -⟩ := List.cons_prefix_cons.mp hIds
      exact ⟨first.2, rest, hRest.symm⟩

theorem Inv.answer (h : Inv s) (hOpen : s.isOpen = true) {id : Nat} {outcome : OperationOutcome}
    (hNext : (outcomes s.runner.log)[s.handled]? = some (id, outcome)) {kind : PendingOperationKind}
    (hKind : PendingOperationKind.fromWireName outcome.kind = some kind) :
    Inv ({ s with handled := s.handled + 1 }.answer id kind) := by
  obtain ⟨-, request, rest, hRequested⟩ := h.next_request hNext hKind
  have hQueue : s.tracker.queue kind = request :: rest.map Prod.snd := by
    rw [h.waiting hOpen, hRequested, List.drop_left]
    rfl
  have hTake : (outcomes s.runner.log).take (s.handled + 1) =
      (outcomes s.runner.log).take s.handled ++ [(id, outcome)] := by
    rw [List.take_add_one, hNext]
    rfl
  rw [TrackedSession.answer, PendingOperationTracker.take]
  simp only [hQueue, List.head?_cons, List.tail_cons]
  constructor
  · exact h.runner
  · exact h.stamped
  · exact h.emits
  · exact h.requests
  · intro other
    simp only
    rw [hTake, List.map_append, idsOf_append, ← h.answers, List.map_singleton, outcomeStamp, hKind]
    exact ids_update s.answered kind other _
  · intro other
    simp only
    by_cases hSame : other = kind
    · subst hSame
      rw [Function.update_self, hRequested]
      exact ⟨rest, by simp⟩
    · rw [Function.update_of_ne hSame]
      exact h.matched other
  · intro _ other
    simp only
    by_cases hSame : other = kind
    · subst hSame
      rw [Function.update_self, Function.update_self, hRequested, List.length_append, List.drop_append]
      simp
    · rw [Function.update_of_ne hSame, Function.update_of_ne hSame]
      exact h.waiting hOpen other
  · exact (List.getElem?_eq_some_iff.mp hNext).1

/-- An outcome of a kind that is not tracked is passed over. -/
theorem Inv.pass (h : Inv s) {id : Nat} {outcome : OperationOutcome}
    (hNext : (outcomes s.runner.log)[s.handled]? = some (id, outcome))
    (hKind : PendingOperationKind.fromWireName outcome.kind = none) :
    Inv { s with handled := s.handled + 1 } := by
  refine ⟨h.runner, h.stamped, h.emits, h.requests, fun kind => ?_, h.matched, h.waiting,
    (List.getElem?_eq_some_iff.mp hNext).1⟩
  simp only
  rw [List.take_add_one, hNext, h.answers]
  simp only [Option.toList_some, List.map_append, List.map_singleton, idsOf_append, outcomeStamp, hKind]
  rw [idsOf_other (by simp), List.append_nil]

theorem Inv.handle (h : Inv s) (hOpen : s.isOpen = true) {id : Nat} {outcome : OperationOutcome}
    (hNext : (outcomes s.runner.log)[s.handled]? = some (id, outcome)) :
    Inv ({ s with handled := s.handled + 1 }.handleEvent id outcome) := by
  cases hKind : PendingOperationKind.fromWireName outcome.kind with
  | none =>
    have hPass := h.pass hNext hKind
    rw [handleEvent]
    split
    · rw [handleOperationOutcome, hKind]
      exact hPass
    · rw [handleWorkingCopyOutcomeKind, hKind, if_neg (by simp)]
      exact hPass
  | some kind =>
    have hAnswer := h.answer hOpen hNext hKind
    have hEmits := (h.next_request hNext hKind).1
    rw [handleEvent]
    simp only [hEmits]
    cases kind with
    | fetch =>
      simp only [PendingOperationKind.completionEvent]
      rw [handleWorkingCopyOutcomeKind, hKind, if_pos rfl]
      exact hAnswer
    | checkout | deleteBranch | pruneRemote =>
      simp only [PendingOperationKind.completionEvent]
      rw [handleOperationOutcome, hKind]
      exact hAnswer

/-- An event of a tracked operation decodes, and so does what its handler reads before. -/
def Decodes (s : TrackedSession) : SessionEvent → Prop
  | .handle decodes => decodes = true ∨ ∃ entry, (outcomes s.runner.log)[s.handled]? = some entry ∧
      PendingOperationKind.fromWireName entry.2.kind = none
  | _ => True

theorem Inv.step (h : Inv s) {event : SessionEvent} (hOk : Decodes s event) {s' : TrackedSession}
    (hStep : s.step event = some s') : Inv s' := by
  cases event with
  | request kind request operation =>
    rw [TrackedSession.step] at hStep
    split at hStep
    · rename_i hGuard
      obtain ⟨submitted, hSubmit, rfl⟩ := Option.map_eq_some_iff.mp hStep
      obtain ⟨hRunning, rfl⟩ := submitTo_eq hSubmit
      exact h.request hRunning request (eq_of_beq (Bool.and_eq_true_iff.mp hGuard).2)
    · cases hStep
  | submit operation event =>
    rw [TrackedSession.step] at hStep
    split at hStep
    · cases hStep
    · rename_i hOther
      obtain ⟨hRunning, rfl⟩ := submitTo_eq hStep
      exact h.submit hRunning hOther event
  | runner event =>
    rw [TrackedSession.step] at hStep
    split at hStep
    · cases hStep
    · rename_i hKind
      obtain ⟨runner, hRunner, rfl⟩ := Option.map_eq_some_iff.mp hStep
      exact h.runs (h.runner.step hRunner) (logs_step hRunner (Bool.eq_false_iff.mpr hKind))
  | handle decodes =>
    rw [TrackedSession.step] at hStep
    split at hStep
    · cases hStep
    · rename_i id outcome hNext
      split at hStep
      · cases hStep
      · rename_i hOpen
        have hOpen : s.isOpen = true := by simpa using hOpen
        split at hStep
        · exact Option.some.inj hStep ▸ h.handle hOpen hNext
        · rename_i hDropped
          obtain ⟨entry, hEntry, hOther⟩ := hOk.resolve_left hDropped
          obtain rfl := Option.some.inj (hNext.symm.trans hEntry)
          exact Option.some.inj hStep ▸ h.pass hNext hOther
  | close =>
    obtain rfl := Option.some.inj hStep
    exact ⟨h.runner, h.stamped, h.emits, h.requests, h.answers, h.matched, fun hOpen => absurd hOpen (by simp),
      h.handled⟩

end Steps

/-- The operations whose completion event the controller has received. -/
def received (s : TrackedSession) : List Nat := ((outcomes s.runner.log).take s.handled).map Prod.fst

/-- The outcomes of a kind that were received are those of its first requests, each handed to the
request with its own operation, and what waits is the requests without an outcome. -/
structure Attributed (s : TrackedSession) (kind : PendingOperationKind) : Prop where
  matched : s.answered kind <+: s.requested kind
  outcomes : (s.answered kind).map Prod.fst =
    idsOf kind (((outcomes s.runner.log).take s.handled).map outcomeStamp)
  once : ((s.requested kind).map Prod.fst).Nodup
  completed : ∀ entry ∈ s.requested kind, entry.1 ∈ s.received → entry ∈ s.answered kind
  waiting : s.isOpen = true →
    s.tracker.queue kind = ((s.requested kind).drop (s.answered kind).length).map Prod.snd

theorem mem_idsOf {kind : PendingOperationKind} {stamps : List (Nat × Option PendingOperationKind)} {id : Nat} :
    id ∈ idsOf kind stamps ↔ (id, some kind) ∈ stamps := by
  rw [idsOf, List.mem_map]
  constructor
  · rintro ⟨⟨other, found⟩, hMem, rfl⟩
    obtain ⟨hStamp, hKind⟩ := List.mem_filter.mp hMem
    rw [← of_decide_eq_true hKind]
    exact hStamp
  · intro hMem
    exact ⟨(id, some kind), List.mem_filter.mpr ⟨hMem, decide_eq_true rfl⟩, rfl⟩

theorem Inv.attributed {s : TrackedSession} (h : Inv s) (kind : PendingOperationKind) : Attributed s kind := by
  have hIds : (((submissions s.runner.log).map stamp).map Prod.fst).Nodup := by
    rw [List.map_map]
    exact h.runner.ids.imp fun hLess => hLess.ne
  have hOnce : ((s.requested kind).map Prod.fst).Nodup := by
    rw [h.requests]
    exact hIds.sublist (List.filter_sublist.map _)
  refine ⟨h.matched kind, h.answers kind, hOnce, ?_, fun hOpen => h.waiting hOpen kind⟩
  intro request hRequest hReceived
  obtain ⟨outcome, hOutcome, hId⟩ := List.mem_map.mp hReceived
  have hStamp := List.mem_map_of_mem (f := outcomeStamp) hOutcome
  have hSubmitted : outcomeStamp outcome ∈ (submissions s.runner.log).map stamp := by
    refine (h.runner.completions_prefix.map stamp).subset ?_
    rw [← h.stamped]
    exact List.mem_map_of_mem (List.mem_of_mem_take hOutcome)
  have hRequested : request.1 ∈ idsOf kind ((submissions s.runner.log).map stamp) := by
    rw [← h.requests]
    exact List.mem_map_of_mem hRequest
  -- the outcome is of the kind of the request, since an id has one operation
  have hSame := List.inj_on_of_nodup_map hIds hSubmitted (mem_idsOf.mp hRequested) hId
  rw [hSame] at hStamp
  have hAnswered := mem_idsOf.mpr hStamp
  rw [← h.answers] at hAnswered
  obtain ⟨answer, hAnswer, hAnswerId⟩ := List.mem_map.mp hAnswered
  exact List.inj_on_of_nodup_map hOnce ((h.matched kind).subset hAnswer) hRequest hAnswerId ▸ hAnswer

/-- In every run in which the events of tracked operations decode. -/
theorem outcomes_answer_their_requests {first : Nat} {events : List SessionEvent} {s : TrackedSession}
    (hRun : Run step Decodes (start first) events s) (kind : PendingOperationKind) : Attributed s kind :=
  (hRun.invariant (inv_start first) fun _ _ _ h hOk hStep => h.step hOk hStep).attributed kind

/-- Two fetches; the message of the first one's failure is not UTF-8 when `decodes` is false. -/
def twoFetches (decodes : Bool) : List SessionEvent :=
  let fetch : Operation := { describe := ascii "Fetch", kind := ascii "fetch" }
  let attempt (outcome : OperationOutcome) : List SessionEvent :=
    [.pop, .mark, .check, .preflight {}, .begin, .finishRun (some outcome), .deliver false, .release].map
      fun action => .runner (.worker action)
  [.request .fetch { remoteName := ascii "origin" } fetch, .request .fetch { remoteName := ascii "upstream" } fetch] ++
    attempt { error := some { code := .processFailed, message := [0xA4, 0x40] } } ++ attempt { succeeded := true } ++
    [.handle decodes, .handle true]

theorem twoFetches_misattributed : ¬ ∀ first events s, Run step (fun _ _ => True) (start first) events s →
    ∀ kind, Attributed s kind := by
  intro h
  obtain ⟨s, hs⟩ : ∃ s, (twoFetches false).foldlM step (start 1) = some s :=
    Option.isSome_iff_exists.mp (by decide +kernel)
  have hRequested : ((twoFetches false).foldlM step (start 1)).map
      (fun s => ((s.requested .fetch).map Prod.fst, (s.answered .fetch).map Prod.fst)) = some ([1, 2], [2]) := by
    decide +kernel
  rw [hs] at hRequested
  obtain ⟨hMade, hAnswered⟩ := Prod.mk.inj (Option.some.inj hRequested)
  have hMatched := ((h 1 _ s (.of_foldlM hs) .fetch).matched).map Prod.fst
  rw [hMade, hAnswered] at hMatched
  exact absurd hMatched (by decide)

def drops : SessionEvent → Bool
  | .handle decodes => !decodes
  | _ => false

theorem decodes_of_kept {event : SessionEvent} (h : drops event = false) (s : TrackedSession) : Decodes s event := by
  cases event with
  | handle decodes => exact .inl (by simpa [drops] using h)
  | request | submit | runner | close => exact trivial

theorem outcomes_answer_their_requests_fetches : ∃ s, (twoFetches true).foldlM step (start 1) = some s ∧
    Attributed s .fetch := by
  obtain ⟨s, hs⟩ : ∃ s, (twoFetches true).foldlM step (start 1) = some s :=
    Option.isSome_iff_exists.mp (by decide +kernel)
  have hKept : ∀ event ∈ twoFetches true, drops event = false := by
    simpa using (show ((twoFetches true).all fun event => !drops event) = true by decide)
  have hRun := (Run.of_foldlM hs).admitted fun event hEvent m => decodes_of_kept (hKept event hEvent) m
  exact ⟨s, hs, @outcomes_answer_their_requests 1 _ s hRun .fetch⟩

end TrackedSession

end GitBranchManager
