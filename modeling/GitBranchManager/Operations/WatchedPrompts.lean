import GitBranchManager.Operations.WorkerSteps
import GitBranchManager.Operations.ExactlyOnce

/-! # The credential watch of a session

A session has one poller. A network operation gets a request directory of its own when it is
submitted, and the poller turns to it at once; what ends the watch of a finished operation stops
the poller, whichever directory it polls by then.
-/

namespace GitBranchManager

open Library

/-- `existing` and `cancelled` are what is on the disk: the request directories, and those with
a cancel file. -/
structure AskpassPoller where
  dir : Option Nat := none
  existing : List Nat := []
  cancelled : List Nat := []
  deriving DecidableEq, Repr

namespace AskpassPoller

def stop (poller : AskpassPoller) : AskpassPoller :=
  match poller.dir with
  | none => poller
  | some dir =>
    { dir := none
      existing := poller.existing.filter fun other => other != dir
      cancelled := poller.cancelled ++ [dir] }

def start (poller : AskpassPoller) (dir : Nat) : AskpassPoller := { poller.stop with dir := some dir }

variable {poller : AskpassPoller} {dir : Nat}

theorem stop_of_none (h : poller.dir = none) : poller.stop = poller := by
  rw [stop, h]

theorem stop_of_some (h : poller.dir = some dir) : poller.stop =
    { dir := none
      existing := poller.existing.filter fun other => other != dir
      cancelled := poller.cancelled ++ [dir] } := by
  rw [stop, h]

theorem start_of_none (h : poller.dir = none) : poller.start dir = { poller with dir := some dir } := by
  rw [start, stop_of_none h]

theorem dir_stop (poller : AskpassPoller) : poller.stop.dir = none := by
  cases h : poller.dir with
  | none => rw [stop_of_none h, h]
  | some dir => rw [stop_of_some h]

end AskpassPoller

/-- What a submission has to do with the watch; the completion of each of these ends it. -/
inductive AskpassUse
  | network
  | deleteTag (alsoRemote : Bool)
  deriving DecidableEq, Repr

def AskpassUse.begins : AskpassUse → Bool
  | .network => true
  | .deleteTag alsoRemote => alsoRemote

/-- `hooks` lists the operations whose completion calls `endAskpass`, `wired` those with a
request directory. -/
structure AskpassSession where
  operations : OperationRunner := {}
  askpass : AskpassPoller := {}
  nextDir : Nat := 0
  hooks : List Nat := []
  wired : List (Nat × Nat) := []
  deriving DecidableEq, Repr

/-- `made` tells whether `makeRequestDir` could make a directory. -/
inductive AskpassEvent
  | submit (use : AskpassUse) (operation : Operation) (made : Bool)
  | queue (event : OperationRunner.RunnerEvent)
  deriving DecidableEq, Repr

namespace AskpassSession

open OperationRunner

def beginAskpass (s : AskpassSession) (made : Bool) : Option Nat × AskpassSession :=
  if made then
    (some s.nextDir,
      { s with
        askpass := { s.askpass with existing := s.askpass.existing ++ [s.nextDir] }.start s.nextDir
        nextDir := s.nextDir + 1 })
  else (none, s)

def endAskpass (s : AskpassSession) : AskpassSession := { s with askpass := s.askpass.stop }

/-- The operations that a step of the queue has completed. -/
def completed (before after : OperationRunner) : List (Nat × Operation) :=
  (completions after.log).drop (completions before.log).length

def step (s : AskpassSession) : AskpassEvent → Option AskpassSession
  | .submit use operation made =>
    let (dir, s) := if use.begins then s.beginAskpass made else (none, s)
    (s.operations.step (.submit operation)).map fun operations =>
      { s with
        operations
        hooks := s.hooks ++ [s.operations.nextId]
        wired := s.wired ++ (dir.map fun dir => (s.operations.nextId, dir)).toList }
  | .queue event =>
    (s.operations.step event).map fun operations =>
      if (completed s.operations operations).any fun entry => s.hooks.contains entry.1 then
        { s with operations }.endAskpass
      else { s with operations }

end AskpassSession

end GitBranchManager

/-! ## Whose prompts the watch sees

Where a watch begins only once nothing is left that would end it, it belongs to the first of the
outstanding operations that end one, until that operation is completed.
-/

namespace GitBranchManager

open Library

namespace AskpassSession

open OperationRunner

/-- The prompts of the operation that runs reach the poller. -/
def Watched (s : AskpassSession) : Prop :=
  ∀ queued retries, s.operations.worker = .busy queued (.running retries) → ∀ dir, (queued.id, dir) ∈ s.wired →
    dir ∈ s.askpass.existing ∧ dir ∉ s.askpass.cancelled ∧ s.askpass.dir = some dir

/-- Finishing operations that began no watch leaves the watch alone. -/
def SparesOthers (s : AskpassSession) : Prop :=
  ∀ event s', s.step (.queue event) = some s' →
    (∀ entry ∈ completed s.operations s'.operations, ∀ dir, (entry.1, dir) ∉ s.wired) → s'.askpass = s.askpass

/-- A watch begins only while no operation is queued or running whose completion ends one. -/
def Admits (s : AskpassSession) : AskpassEvent → Prop
  | .submit use _ made =>
    use.begins = true → made = true → ∀ entry ∈ s.operations.outstanding, entry.1 ∉ s.hooks
  | .queue _ => True

/-- The outstanding operations whose completion ends a watch. -/
def endings (s : AskpassSession) : List Nat :=
  (s.operations.outstanding.map Prod.fst).filter s.hooks.contains

structure Quiet (s : AskpassSession) : Prop where
  idle : s.askpass.dir = none
  unwired : ∀ entry ∈ s.wired, entry.1 ∉ s.operations.outstanding.map Prod.fst

/-- The watch belongs to the operation that ends one first. -/
structure Watches (s : AskpassSession) (id dir : Nat) : Prop where
  polls : s.askpass.dir = some dir
  there : dir ∈ s.askpass.existing
  live : dir ∉ s.askpass.cancelled
  first : s.endings.head? = some id
  own : (id, dir) ∈ s.wired
  only : ∀ entry ∈ s.wired, entry.1 ∈ s.operations.outstanding.map Prod.fst → entry = (id, dir)

structure Coherent (s : AskpassSession) : Prop where
  consistent : s.operations.Consistent
  hooked : ∀ entry ∈ s.wired, entry.1 ∈ s.hooks
  known : ∀ id ∈ s.hooks, id < s.operations.nextId
  polled : ∀ dir, s.askpass.dir = some dir → dir < s.nextDir
  old : ∀ dir ∈ s.askpass.cancelled, dir < s.nextDir
  slot : s.Quiet ∨ ∃ id dir, s.Watches id dir

theorem coherent_start (first : Nat) : Coherent { operations := { nextId := first } } where
  consistent := consistent_start first
  hooked _ h := absurd h List.not_mem_nil
  known _ h := absurd h List.not_mem_nil
  polled _ h := absurd h (by simp)
  old _ h := absurd h List.not_mem_nil
  slot := .inl ⟨rfl, fun _ h => absurd h List.not_mem_nil⟩

theorem outstanding_running {s : OperationRunner} (h : s.Consistent) {queued : QueuedOperation} {retries : Nat}
    (hBusy : s.worker = .busy queued (.running retries)) : queued.entry ∈ s.outstanding := by
  rw [outstanding, hBusy, inFlight, h.opened queued _ hBusy rfl, if_pos rfl]
  exact List.mem_append_left _ (List.mem_singleton_self _)

theorem Coherent.watched {s : AskpassSession} (h : s.Coherent) : s.Watched := by
  intro queued retries hBusy dir hWired
  have hOut : queued.id ∈ s.operations.outstanding.map Prod.fst :=
    List.mem_map_of_mem (f := Prod.fst) (outstanding_running h.consistent hBusy)
  rcases h.slot with hQuiet | ⟨id, own, hWatches⟩
  · exact absurd hOut (hQuiet.unwired _ hWired)
  · obtain ⟨-, rfl⟩ := Prod.mk.inj (hWatches.only _ hWired hOut)
    exact ⟨hWatches.there, hWatches.live, hWatches.polls⟩

theorem nodup_outstanding {s : OperationRunner} (h : s.Consistent) : (s.outstanding.map Prod.fst).Nodup := by
  have hNodup := h.nodup
  rw [h.order, List.map_append] at hNodup
  exact (List.nodup_append.mp hNodup).2.1

theorem outstanding_old {s : OperationRunner} (h : s.Consistent) {entry : Nat × Operation}
    (hEntry : entry ∈ s.outstanding) : entry.1 < s.nextId := by
  refine h.bound entry ?_
  rw [h.order]
  exact List.mem_append_right _ hEntry

theorem Coherent.wired_old {s : AskpassSession} (h : s.Coherent) {entry : Nat × Nat} (hEntry : entry ∈ s.wired) :
    entry.1 < s.operations.nextId := h.known _ (h.hooked entry hEntry)

/-- A new operation whose completion ends a watch comes last. -/
theorem Coherent.endings_submit {s s' : AskpassSession} (h : s.Coherent) (operation : Operation)
    (hOperations : s'.operations = (s.operations.submit operation).2)
    (hHooks : s'.hooks = s.hooks ++ [s.operations.nextId]) : s'.endings = s.endings ++ [s.operations.nextId] := by
  have hOld : ∀ id ∈ s.operations.outstanding.map Prod.fst,
      (s.hooks ++ [s.operations.nextId]).contains id = s.hooks.contains id := by
    intro id hId
    obtain ⟨entry, hEntry, rfl⟩ := List.mem_map.mp hId
    have hNew : entry.1 ≠ s.operations.nextId := Nat.ne_of_lt (outstanding_old h.consistent hEntry)
    rw [Bool.eq_iff_iff, List.contains_iff_mem, List.contains_iff_mem, List.mem_append, List.mem_singleton]
    exact or_iff_left hNew
  have hLast : [s.operations.nextId].filter (s.hooks ++ [s.operations.nextId]).contains = [s.operations.nextId] := by
    rw [List.filter_cons, if_pos (List.contains_iff_mem.mpr (List.mem_append_right _ (List.mem_singleton_self _)))]
    rfl
  rw [endings, endings, hOperations, hHooks, outstanding_submit, List.map_append, List.filter_append,
    List.filter_congr hOld]
  exact congrArg _ hLast

/-- A submission that begins no watch. -/
theorem Coherent.submitted {s : AskpassSession} (h : s.Coherent) {operation : Operation} {operations : OperationRunner}
    (hNext : s.operations.step (.submit operation) = some operations) :
    Coherent { s with operations, hooks := s.hooks ++ [s.operations.nextId] } := by
  have hIs := submit_of_step hNext
  have hId : operations.nextId = s.operations.nextId + 1 := by rw [hIs]; rfl
  have hOut : ∀ entry ∈ s.wired, entry.1 ∈ operations.outstanding.map Prod.fst →
      entry.1 ∈ s.operations.outstanding.map Prod.fst := by
    intro entry hEntry hMem
    rw [hIs, outstanding_submit, List.map_append, List.mem_append] at hMem
    refine hMem.resolve_right fun hNew => ?_
    exact Nat.ne_of_lt (h.wired_old hEntry) (List.mem_singleton.mp hNew)
  have hEndings : endings { s with operations, hooks := s.hooks ++ [s.operations.nextId] } =
      s.endings ++ [s.operations.nextId] := h.endings_submit operation hIs rfl
  refine ⟨h.consistent.step hNext, fun entry hEntry => List.mem_append_left _ (h.hooked entry hEntry), ?_,
    h.polled, h.old, ?_⟩
  · intro id hId'
    dsimp only
    rw [hId]
    rcases List.mem_append.mp hId' with hOld | hNew
    · exact Nat.lt_succ_of_lt (h.known id hOld)
    · rw [List.mem_singleton.mp hNew]
      exact Nat.lt_succ_self _
  · rcases h.slot with hQuiet | ⟨id, dir, hWatches⟩
    · exact .inl ⟨hQuiet.idle, fun entry hEntry hMem => hQuiet.unwired entry hEntry (hOut entry hEntry hMem)⟩
    · refine .inr ⟨id, dir, hWatches.polls, hWatches.there, hWatches.live, ?_, hWatches.own,
        fun entry hEntry hMem => hWatches.only entry hEntry (hOut entry hEntry hMem)⟩
      rw [hEndings, List.head?_append, hWatches.first]
      rfl

/-- A watch that begins while nothing is left that would end it. -/
theorem Coherent.began {s : AskpassSession} (h : s.Coherent) {operation : Operation} {operations : OperationRunner}
    (hNext : s.operations.step (.submit operation) = some operations)
    (hFree : ∀ entry ∈ s.operations.outstanding, entry.1 ∉ s.hooks) :
    Coherent
      { (s.beginAskpass true).2 with
        operations
        hooks := s.hooks ++ [s.operations.nextId]
        wired := s.wired ++ [(s.operations.nextId, s.nextDir)] } := by
  have hEmpty : s.endings = [] := by
    rw [endings, List.filter_eq_nil_iff]
    intro id hId
    obtain ⟨entry, hEntry, rfl⟩ := List.mem_map.mp hId
    rw [List.contains_iff_mem]
    exact hFree entry hEntry
  have hQuiet : s.Quiet := by
    rcases h.slot with hQuiet | ⟨id, dir, hWatches⟩
    · exact hQuiet
    · have hFirst := hWatches.first
      rw [hEmpty] at hFirst
      cases hFirst
  have hBegun : s.beginAskpass true =
      (some s.nextDir,
        { s with
          askpass := { s.askpass with dir := some s.nextDir, existing := s.askpass.existing ++ [s.nextDir] }
          nextDir := s.nextDir + 1 }) := by
    have hStart : AskpassPoller.start { s.askpass with existing := s.askpass.existing ++ [s.nextDir] } s.nextDir =
        { s.askpass with dir := some s.nextDir, existing := s.askpass.existing ++ [s.nextDir] } :=
      AskpassPoller.start_of_none hQuiet.idle
    rw [beginAskpass, if_pos rfl, hStart]
  have hIs := submit_of_step hNext
  have hSubmitted := h.submitted hNext
  have hEndings : endings { s with operations, hooks := s.hooks ++ [s.operations.nextId] } =
      s.endings ++ [s.operations.nextId] := h.endings_submit operation hIs rfl
  rw [hBegun]
  refine ⟨hSubmitted.consistent, ?_, hSubmitted.known, ?_, ?_, .inr ⟨s.operations.nextId, s.nextDir, ?_⟩⟩
  · intro entry hEntry
    rcases List.mem_append.mp hEntry with hOld | hNew
    · exact hSubmitted.hooked entry hOld
    · rw [List.mem_singleton.mp hNew]
      exact List.mem_append_right _ (List.mem_singleton_self _)
  · intro dir hDir
    rw [← Option.some.inj hDir]
    exact Nat.lt_succ_self _
  · exact fun dir hDir => Nat.lt_succ_of_lt (h.old dir hDir)
  · refine ⟨rfl, List.mem_append_right _ (List.mem_singleton_self _), fun hOld => ?_, ?_,
      List.mem_append_right _ (List.mem_singleton_self _), ?_⟩
    · exact Nat.lt_irrefl _ (h.old _ hOld)
    · rw [hEmpty] at hEndings
      exact congrArg List.head? hEndings
    · intro entry hEntry hMem
      rcases List.mem_append.mp hEntry with hOld | hNew
      · rw [hIs, outstanding_submit, List.map_append, List.mem_append] at hMem
        rcases hMem with hWas | hLast
        · exact absurd hWas (hQuiet.unwired entry hOld)
        · exact absurd (List.mem_singleton.mp hLast) (Nat.ne_of_lt (h.wired_old hOld))
      · exact List.mem_singleton.mp hNew

/-- A step of the queue completes nothing, or the first operation that is outstanding. -/
theorem completed_of_step {s s' : OperationRunner} {event : RunnerEvent} (h : s.Consistent)
    (hStep : s.step event = some s') :
    (completed s s' = [] ∧ ∃ more, s'.outstanding = s.outstanding ++ more ∧ ∀ entry ∈ more, entry.1 = s.nextId) ∨
      ∃ entry, completed s s' = [entry] ∧ s.outstanding = entry :: s'.outstanding := by
  rcases outstanding_of_step h hStep with ⟨hLog, hMore⟩ | ⟨entry, hLog, hOut⟩
  · refine .inl ⟨?_, hMore⟩
    rw [completed, hLog, List.drop_length]
  · refine .inr ⟨entry, ?_, hOut⟩
    rw [completed, hLog, List.drop_left]

/-- Nothing is completed. -/
theorem Coherent.waited {s : AskpassSession} (h : s.Coherent) {event : RunnerEvent} {operations : OperationRunner}
    (hNext : s.operations.step event = some operations) {more : List (Nat × Operation)}
    (hOut : operations.outstanding = s.operations.outstanding ++ more)
    (hMore : ∀ entry ∈ more, entry.1 = s.operations.nextId) : Coherent { s with operations } := by
  have hNewId : ∀ entry ∈ s.wired, entry.1 ∈ operations.outstanding.map Prod.fst →
      entry.1 ∈ s.operations.outstanding.map Prod.fst := by
    intro entry hEntry hMem
    rw [hOut, List.map_append, List.mem_append] at hMem
    refine hMem.resolve_right fun hNew => ?_
    obtain ⟨new, hNewMem, hSame⟩ := List.mem_map.mp hNew
    exact Nat.ne_of_lt (h.wired_old hEntry) (hSame ▸ hMore new hNewMem)
  have hEndings : AskpassSession.endings { s with operations } = s.endings := by
    have hNone : (more.map Prod.fst).filter s.hooks.contains = [] := by
      rw [List.filter_eq_nil_iff]
      intro id hId hHook
      obtain ⟨new, hNewMem, rfl⟩ := List.mem_map.mp hId
      exact Nat.ne_of_lt (h.known _ (List.contains_iff_mem.mp hHook)) (hMore new hNewMem)
    rw [endings, endings, hOut, List.map_append, List.filter_append, hNone, List.append_nil]
  refine ⟨h.consistent.step hNext, h.hooked, fun id hId => ?_, h.polled, h.old, ?_⟩
  · exact Nat.lt_of_lt_of_le (h.known id hId) (nextId_of_step hNext)
  · rcases h.slot with hQuiet | ⟨id, dir, hWatches⟩
    · exact .inl ⟨hQuiet.idle, fun entry hEntry hMem => hQuiet.unwired entry hEntry (hNewId entry hEntry hMem)⟩
    · refine .inr ⟨id, dir, hWatches.polls, hWatches.there, hWatches.live, ?_, hWatches.own,
        fun entry hEntry hMem => hWatches.only entry hEntry (hNewId entry hEntry hMem)⟩
      rw [hEndings]
      exact hWatches.first

/-- An operation is completed that ends no watch. -/
theorem Coherent.passed {s : AskpassSession} (h : s.Coherent) {event : RunnerEvent} {operations : OperationRunner}
    (hNext : s.operations.step event = some operations) {entry : Nat × Operation}
    (hOut : s.operations.outstanding = entry :: operations.outstanding) (hHook : entry.1 ∉ s.hooks) :
    Coherent { s with operations } := by
  have hSubset : operations.outstanding.map Prod.fst ⊆ s.operations.outstanding.map Prod.fst := by
    rw [hOut]
    exact List.subset_cons_self _ _
  have hEndings : AskpassSession.endings { s with operations } = s.endings := by
    rw [endings, endings, hOut, List.map_cons, List.filter_cons,
      if_neg fun hMem => hHook (List.contains_iff_mem.mp hMem)]
  refine ⟨h.consistent.step hNext, h.hooked, fun id hId => ?_, h.polled, h.old, ?_⟩
  · exact Nat.lt_of_lt_of_le (h.known id hId) (nextId_of_step hNext)
  · rcases h.slot with hQuiet | ⟨id, dir, hWatches⟩
    · exact .inl ⟨hQuiet.idle, fun other hOther hMem => hQuiet.unwired other hOther (hSubset hMem)⟩
    · refine .inr ⟨id, dir, hWatches.polls, hWatches.there, hWatches.live, ?_, hWatches.own,
        fun other hOther hMem => hWatches.only other hOther (hSubset hMem)⟩
      rw [hEndings]
      exact hWatches.first

/-- The first ending is that of the operation that is completed. -/
theorem Watches.completed_is {s : AskpassSession} {id dir : Nat} (h : s.Watches id dir) {entry : Nat × Operation}
    {rest : List (Nat × Operation)} (hOut : s.operations.outstanding = entry :: rest) (hHook : entry.1 ∈ s.hooks) :
    entry.1 = id := by
  have hFirst := h.first
  rw [endings, hOut, List.map_cons, List.filter_cons, if_pos (List.contains_iff_mem.mpr hHook)] at hFirst
  exact Option.some.inj hFirst

/-- An operation is completed that ends the watch. -/
theorem Coherent.ended {s : AskpassSession} (h : s.Coherent) {event : RunnerEvent} {operations : OperationRunner}
    (hNext : s.operations.step event = some operations) {entry : Nat × Operation}
    (hOut : s.operations.outstanding = entry :: operations.outstanding) (hHook : entry.1 ∈ s.hooks) :
    Coherent (AskpassSession.endAskpass { s with operations }) := by
  have hKnown : ∀ id ∈ s.hooks, id < operations.nextId := fun id hId =>
    Nat.lt_of_lt_of_le (h.known id hId) (nextId_of_step hNext)
  have hUnwired : ∀ other ∈ s.wired, other.1 ∉ operations.outstanding.map Prod.fst := by
    intro other hOther hMem
    have hWas : other.1 ∈ s.operations.outstanding.map Prod.fst := by
      rw [hOut]
      exact List.mem_cons_of_mem _ hMem
    rcases h.slot with hQuiet | ⟨id, dir, hWatches⟩
    · exact hQuiet.unwired other hOther hWas
    · have hNodup := nodup_outstanding h.consistent
      rw [hOut, List.map_cons, List.nodup_cons, hWatches.completed_is hOut hHook] at hNodup
      rw [hWatches.only other hOther hWas] at hMem
      exact hNodup.1 hMem
  refine ⟨h.consistent.step hNext, h.hooked, hKnown, fun dir hDir => ?_, fun dir hDir => ?_, .inl ⟨?_, hUnwired⟩⟩
  · rw [endAskpass, AskpassPoller.dir_stop] at hDir
    cases hDir
  · rw [endAskpass] at hDir ⊢
    cases hPolled : s.askpass.dir with
    | none =>
      rw [AskpassPoller.stop_of_none hPolled] at hDir
      exact h.old dir hDir
    | some polled =>
      rw [AskpassPoller.stop_of_some hPolled] at hDir
      rcases List.mem_append.mp hDir with hOld | hLast
      · exact h.old dir hOld
      · rw [List.mem_singleton.mp hLast]
        exact h.polled polled hPolled
  · exact AskpassPoller.dir_stop _

theorem Coherent.step {s s' : AskpassSession} {event : AskpassEvent} (h : s.Coherent) (hAdmits : s.Admits event)
    (hStep : s.step event = some s') : s'.Coherent := by
  cases event with
  | submit use operation made =>
    rw [AskpassSession.step] at hStep
    cases hBegins : use.begins with
    | false =>
      rw [hBegins] at hStep
      obtain ⟨operations, hNext, rfl⟩ := Option.map_eq_some_iff.mp hStep
      simpa using h.submitted hNext
    | true =>
      rw [hBegins] at hStep
      cases made with
      | false =>
        obtain ⟨operations, hNext, rfl⟩ := Option.map_eq_some_iff.mp hStep
        simpa [beginAskpass] using h.submitted hNext
      | true =>
        obtain ⟨operations, hNext, rfl⟩ := Option.map_eq_some_iff.mp hStep
        exact h.began hNext (hAdmits hBegins rfl)
  | queue event =>
    rw [AskpassSession.step] at hStep
    obtain ⟨operations, hNext, rfl⟩ := Option.map_eq_some_iff.mp hStep
    rcases completed_of_step h.consistent hNext with ⟨hNone, more, hOut, hMore⟩ | ⟨entry, hOne, hOut⟩
    · rw [hNone]
      exact h.waited hNext hOut hMore
    · rw [hOne]
      by_cases hHook : entry.1 ∈ s.hooks
      · rw [if_pos (by simpa using hHook)]
        exact h.ended hNext hOut hHook
      · rw [if_neg (by simpa using hHook)]
        exact h.passed hNext hOut hHook

theorem Coherent.sparesOthers {s : AskpassSession} (h : s.Coherent) : s.SparesOthers := by
  intro event s' hStep hUnwired
  rw [AskpassSession.step] at hStep
  obtain ⟨operations, hNext, rfl⟩ := Option.map_eq_some_iff.mp hStep
  rcases completed_of_step h.consistent hNext with ⟨hNone, -⟩ | ⟨entry, hOne, hOut⟩
  · rw [hNone]
    rfl
  · by_cases hHook : entry.1 ∈ s.hooks
    · rw [hOne, if_pos (by simpa using hHook)] at hUnwired ⊢
      rcases h.slot with hQuiet | ⟨id, dir, hWatches⟩
      · exact AskpassPoller.stop_of_none hQuiet.idle
      · have hOwn := hWatches.own
        rw [← hWatches.completed_is hOut hHook] at hOwn
        refine absurd hOwn (hUnwired entry ?_ dir)
        rw [endAskpass, hOne]
        exact List.mem_singleton_self _
    · rw [hOne, if_neg (by simpa using hHook)]

/-- In a run that begins a watch only while nothing is left that would end it. -/
theorem watch_follows_running {first : Nat} {events : List AskpassEvent} {s : AskpassSession}
    (hRun : Run step Admits { operations := { nextId := first } } events s) : s.Watched ∧ s.SparesOthers := by
  have hCoherent : s.Coherent := hRun.invariant (coherent_start first) fun _ _ _ h hAdmits hStep => h.step hAdmits hStep
  exact ⟨hCoherent.watched, hCoherent.sparesOthers⟩

section Sample

def push : Operation := { describe := ascii "Push main" }

def fetch : Operation := { describe := ascii "Fetch origin" }

/-- A push runs. -/
def pushRuns : List AskpassEvent :=
  .submit .network push true ::
    [.pop, .mark, .check, .preflight {}, .begin].map fun action => .queue (.worker action)

def pushing : AskpassSession where
  operations :=
    { worker := .busy { id := 1, operation := push } (.running kLockRetries)
      runningId := 1
      runningDescription := push.describe
      nextId := 2
      log := [.submitted 1 push, .began 1] }
  askpass := { dir := some 0, existing := [0] }
  nextDir := 1
  hooks := [1]
  wired := [(1, 0)]

theorem run_pushRuns : Run step Admits {} pushRuns pushing := by
  have hAlone : Admits {} (.submit .network push true) := fun _ _ entry hEntry => absurd hEntry List.not_mem_nil
  obtain ⟨s, hFirst⟩ : ∃ s, step {} (.submit .network push true) = some s := ⟨_, rfl⟩
  have hRest : (pushRuns.drop 1).foldlM step s = some pushing := by
    obtain rfl := Option.some.inj hFirst
    decide
  refine ((Run.start _).next hAlone hFirst).append ((Run.of_foldlM hRest).admitted fun event hEvent m => ?_)
  obtain ⟨action, -, rfl⟩ := List.mem_map.mp hEvent
  trivial

/-- The push runs on while a fetch is submitted. -/
def pushingThenFetch : AskpassSession where
  operations := (pushing.operations.submit fetch).2
  askpass := { dir := some 1, existing := [1], cancelled := [0] }
  nextDir := 2
  hooks := [1, 2]
  wired := [(1, 0), (2, 1)]

theorem watch_follows_running_push : pushing.Watched ∧ pushing.SparesOthers :=
  @watch_follows_running 1 pushRuns pushing run_pushRuns

/-- The fetch takes the poller, and the directory of the push is gone. -/
theorem push_unwatched : ¬ ∀ (events : List AskpassEvent) (s : AskpassSession),
    Run step (fun _ _ => True) {} events s → s.Watched ∧ s.SparesOthers := by
  intro h
  have hWatched := (h (pushRuns ++ [.submit .network fetch true]) pushingThenFetch (.of_foldlM (by decide))).1
  have hThere := (hWatched { id := 1, operation := push } kLockRetries rfl 0 (by decide)).1
  exact absurd hThere (by decide)

end Sample

end AskpassSession

end GitBranchManager
