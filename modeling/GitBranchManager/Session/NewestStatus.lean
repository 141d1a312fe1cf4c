import GitBranchManager.Library.Runs
import GitBranchManager.Session.DiffReads

/-! # Reads of the working copy's status

Each refresh posts a read of its own to the shared read pool, behind the tasks that wait there. A
worker starts `git status`, has its answer some time later, and assigns the status to the
session. The clock counts steps, and the repository's states are numbered in their order.
-/

namespace GitBranchManager

open Library

inductive StatusTask
  | status
  | other
  deriving DecidableEq, Repr

/-- A task that a worker has taken. `git status` was started at `began`, and `version` is the state of
the repository that it has seen. -/
inductive RunningStatus
  | taken
  | reading (began : Nat)
  | answered (began version : Nat)
  | other
  deriving DecidableEq, Repr

structure StatusRead where
  began : Nat
  version : Nat
  deriving DecidableEq, Repr

/-- `published` holds what was assigned, the newest first; a session keeps no more than that one.
`refreshed` is the time of the last refresh, which no step reads. -/
structure StatusSession where
  now : Nat := 0
  version : Nat := 0
  pool : ThreadPool StatusTask RunningStatus
  published : List StatusRead := []
  refreshed : Option Nat := none
  deriving DecidableEq, Repr

inductive StatusEvent
  | refreshWorkingCopy
  | post
  | postFront
  | edit
  | take
  | start (worker : Nat)
  | answer (worker : Nat)
  | publish (worker : Nat)
  | fail (worker : Nat)
  | finish (worker : Nat)
  deriving DecidableEq, Repr

namespace RunningStatus

def isRead : RunningStatus → Bool
  | .other => false
  | _ => true

def began? : RunningStatus → Option Nat
  | .reading began => some began
  | .answered began _ => some began
  | _ => none

end RunningStatus

namespace StatusSession

def workingCopyStatus (s : StatusSession) : Option StatusRead := s.published.head?

def taken : StatusTask → RunningStatus
  | .status => .taken
  | .other => .other

def put (s : StatusSession) (worker : Nat) (read : RunningStatus) : StatusSession :=
  { s with pool := { s.pool with active := s.pool.active.set worker read } }

def act (s : StatusSession) : StatusEvent → Option StatusSession
  | .refreshWorkingCopy => some { s with pool := s.pool.post .status, refreshed := some s.now }
  | .post => some { s with pool := s.pool.post .other }
  | .postFront => some { s with pool := s.pool.postFront .other }
  | .edit => some { s with version := s.version + 1 }
  | .take => (s.pool.take taken).map fun pool => { s with pool }
  | .start worker =>
    match s.pool.active[worker]? with
    | some .taken => some (s.put worker (.reading s.now))
    | _ => none
  | .answer worker =>
    match s.pool.active[worker]? with
    | some (.reading began) => some (s.put worker (.answered began s.version))
    | _ => none
  | .publish worker =>
    match s.pool.active[worker]? with
    | some (.answered began version) =>
      some { s with pool := s.pool.finish worker, published := { began, version } :: s.published }
    | _ => none
  | .fail worker =>
    match s.pool.active[worker]? with
    | some read => if read.isRead then some { s with pool := s.pool.finish worker } else none
    | none => none
  | .finish worker =>
    match s.pool.active[worker]? with
    | some .other => some { s with pool := s.pool.finish worker }
    | _ => none

def step (s : StatusSession) (event : StatusEvent) : Option StatusSession :=
  (s.act event).map fun s => { s with now := s.now + 1 }

/-- All reads that were posted have finished. -/
def Quiet (s : StatusSession) : Prop :=
  .status ∉ s.pool.tasks ∧ ∀ read ∈ s.pool.active, read.isRead = false

/-- The status published last was read no earlier than any before it. -/
def NeverBackwards (s : StatusSession) : Prop :=
  s.published.Pairwise fun newer older => older.began ≤ newer.began

/-- The published status was read after the last refresh. -/
def Fresh (s : StatusSession) : Prop :=
  ∀ t ∈ s.refreshed, ∃ status ∈ s.workingCopyStatus, t < status.began

end StatusSession

end GitBranchManager

/-! ## The newest status stays

While no read overtakes an older one, the statuses follow one another as their reads began. After
the last refresh some read is on its way that begins after it, or its status is published.
-/

namespace GitBranchManager

open Library

namespace StatusSession

variable {s s' : StatusSession}

/-- The workers' steps, with what they run. -/
inductive Acts (s : StatusSession) : StatusEvent → StatusSession → Prop
  | refreshWorkingCopy :
      Acts s .refreshWorkingCopy { s with pool := s.pool.post .status, refreshed := some s.now }
  | post : Acts s .post { s with pool := s.pool.post .other }
  | postFront : Acts s .postFront { s with pool := s.pool.postFront .other }
  | edit : Acts s .edit { s with version := s.version + 1 }
  | take {task : StatusTask} {tasks : List StatusTask} (hTasks : s.pool.tasks = task :: tasks) :
      Acts s .take { s with pool := { s.pool with tasks, active := s.pool.active ++ [taken task] } }
  | start {worker : Nat} (hWorker : s.pool.active[worker]? = some .taken) :
      Acts s (.start worker) (s.put worker (.reading s.now))
  | answer {worker began : Nat} (hWorker : s.pool.active[worker]? = some (.reading began)) :
      Acts s (.answer worker) (s.put worker (.answered began s.version))
  | publish {worker began version : Nat} (hWorker : s.pool.active[worker]? = some (.answered began version)) :
      Acts s (.publish worker)
        { s with pool := s.pool.finish worker, published := { began, version } :: s.published }
  | fail {worker : Nat} {read : RunningStatus} (hWorker : s.pool.active[worker]? = some read) :
      Acts s (.fail worker) { s with pool := s.pool.finish worker }
  | finish {worker : Nat} (hWorker : s.pool.active[worker]? = some .other) :
      Acts s (.finish worker) { s with pool := s.pool.finish worker }

theorem acts_of_act {event : StatusEvent} (h : s.act event = some s') : Acts s event s' := by
  cases event with
  | refreshWorkingCopy =>
    obtain rfl := Option.some.inj h
    exact .refreshWorkingCopy
  | post =>
    obtain rfl := Option.some.inj h
    exact .post
  | postFront =>
    obtain rfl := Option.some.inj h
    exact .postFront
  | edit =>
    obtain rfl := Option.some.inj h
    exact .edit
  | take =>
    obtain ⟨pool, hTake, rfl⟩ := Option.map_eq_some_iff.mp h
    obtain ⟨task, tasks, hTasks, rfl⟩ := ThreadPool.eq_of_take hTake
    exact .take hTasks
  | start worker =>
    rw [act] at h
    split at h
    · rename_i hWorker
      obtain rfl := Option.some.inj h
      exact .start hWorker
    · cases h
  | answer worker =>
    rw [act] at h
    split at h
    · rename_i began hWorker
      obtain rfl := Option.some.inj h
      exact .answer hWorker
    · cases h
  | publish worker =>
    rw [act] at h
    split at h
    · rename_i began version hWorker
      obtain rfl := Option.some.inj h
      exact .publish hWorker
    · cases h
  | fail worker =>
    rw [act] at h
    split at h
    · rename_i read hWorker
      obtain ⟨-, hPool⟩ := Option.ite_none_right_eq_some.mp h
      obtain rfl := Option.some.inj hPool
      exact .fail hWorker
    · cases h
  | finish worker =>
    rw [act] at h
    split at h
    · rename_i hWorker
      obtain rfl := Option.some.inj h
      exact .finish hWorker
    · cases h

/-- The read begins after `t`, or may still do so. -/
def Follows (t : Nat) (read : RunningStatus) : Prop := read.isRead = true ∧ ∀ began ∈ read.began?, t < began

/-- A status that was read after the last refresh is published, or a read of one is on its way. -/
def Covered (s : StatusSession) : Prop :=
  ∀ t ∈ s.refreshed, (∃ status ∈ s.workingCopyStatus, t < status.began) ∨ .status ∈ s.pool.tasks ∨
    ∃ read ∈ s.pool.active, Follows t read

/-- A read publishes when those that began before it have ended, and it fails while it is not the only
one that the last refresh could be answered by. -/
def Admits (s : StatusSession) : StatusEvent → Prop
  | .publish worker => ∀ began version, s.pool.active[worker]? = some (.answered began version) →
      ∀ read ∈ s.pool.active, ∀ later ∈ read.began?, began ≤ later
  | .fail worker => Covered { s with pool := s.pool.finish worker }
  | _ => True

structure Orderly (s : StatusSession) : Prop where
  refreshed : ∀ t ∈ s.refreshed, t < s.now
  began : ∀ read ∈ s.pool.active, ∀ began ∈ read.began?, began < s.now
  published : ∀ status ∈ s.published, status.began < s.now ∧
    ∀ read ∈ s.pool.active, ∀ began ∈ read.began?, status.began ≤ began
  ordered : s.NeverBackwards
  covered : s.Covered

/-- A step that publishes nothing; a read that begins does so now. -/
theorem Orderly.unpublished (h : s.Orderly) (hNow : s'.now = s.now) (hPublished : s'.published = s.published)
    (hRefreshed : ∀ t ∈ s'.refreshed, t ≤ s.now)
    (hActive : ∀ read ∈ s'.pool.active, ∀ began ∈ read.began?,
      began = s.now ∨ ∃ peer ∈ s.pool.active, began ∈ peer.began?)
    (hCovered : s'.Covered) : Orderly { s' with now := s'.now + 1 } where
  refreshed t ht := by
    rw [hNow]
    exact Nat.lt_succ_of_le (hRefreshed t ht)
  began read hRead began hBegan := by
    rw [hNow]
    rcases hActive read hRead began hBegan with rfl | ⟨peer, hPeer, hSame⟩
    · exact Nat.lt_succ_self _
    · exact Nat.lt_succ_of_lt (h.began peer hPeer began hSame)
  published status hStatus := by
    rw [hPublished] at hStatus
    obtain ⟨hBefore, hOrder⟩ := h.published status hStatus
    refine ⟨?_, fun read hRead began hBegan => ?_⟩
    · rw [hNow]
      exact Nat.lt_succ_of_lt hBefore
    · rcases hActive read hRead began hBegan with rfl | ⟨peer, hPeer, hSame⟩
      · exact Nat.le_of_lt hBefore
      · exact hOrder peer hPeer began hSame
  ordered := by
    rw [NeverBackwards, hPublished]
    exact h.ordered
  covered := hCovered

theorem Covered.mono (h : s.Covered) (hRefreshed : s'.refreshed = s.refreshed) (hPublished : s'.published = s.published)
    (hTasks : .status ∈ s.pool.tasks → .status ∈ s'.pool.tasks ∨ .taken ∈ s'.pool.active)
    (hActive : ∀ t ∈ s.refreshed, ∀ read ∈ s.pool.active, Follows t read → ∃ peer ∈ s'.pool.active, Follows t peer) :
    s'.Covered := by
  intro t ht
  rw [hRefreshed] at ht
  rcases h t ht with hShown | hQueued | ⟨read, hRead, hFollows⟩
  · left
    rw [workingCopyStatus, hPublished]
    exact hShown
  · rcases hTasks hQueued with hStays | hTaken
    · exact .inr (.inl hStays)
    · exact .inr (.inr ⟨.taken, hTaken, rfl, by rintro began ⟨⟩⟩)
  · exact .inr (.inr (hActive t ht read hRead hFollows))

/-- A worker goes on with its read, which began when it says or begins now. -/
theorem Orderly.put (h : s.Orderly) {worker : Nat} {old new : RunningStatus}
    (hWorker : s.pool.active[worker]? = some old) (hRead : new.isRead = true)
    (hBegan : ∀ began ∈ new.began?, began = s.now ∨ began ∈ old.began?) :
    Orderly { s.put worker new with now := s.now + 1 } := by
  have hOld : old ∈ s.pool.active := List.mem_of_getElem? hWorker
  have hLess : worker < s.pool.active.length := (List.getElem?_eq_some_iff.mp hWorker).1
  refine @Orderly.unpublished s (s.put worker new) h rfl rfl (fun t ht => Nat.le_of_lt (h.refreshed t ht))
    (fun read hMem began hIs => ?_) (h.covered.mono rfl rfl .inl fun t ht read hMem hFollows => ?_)
  · rcases List.mem_or_eq_of_mem_set hMem with hSame | rfl
    · exact .inr ⟨read, hSame, hIs⟩
    · exact (hBegan began hIs).imp_right fun hSame => ⟨old, hOld, hSame⟩
  · rcases ThreadPool.mem_or_eq_of_getElem? hMem hWorker with rfl | ⟨-, hStays⟩
    · refine ⟨new, List.mem_set hLess new, hRead, fun began hIs => ?_⟩
      rcases hBegan began hIs with rfl | hSame
      · exact h.refreshed t ht
      · exact hFollows.2 began hSame
    · exact ⟨read, hStays new, hFollows⟩

/-- A worker ends a task and publishes nothing. -/
theorem Orderly.ended (h : s.Orderly) {worker : Nat} (hCovered : Covered { s with pool := s.pool.finish worker }) :
    Orderly { s with pool := s.pool.finish worker, now := s.now + 1 } :=
  @Orderly.unpublished s { s with pool := s.pool.finish worker } h rfl rfl (fun t ht => Nat.le_of_lt (h.refreshed t ht))
    (fun read hMem _ hIs => .inr ⟨read, List.mem_of_mem_eraseIdx hMem, hIs⟩) hCovered

theorem Orderly.publish (h : s.Orderly) {worker began version : Nat}
    (hWorker : s.pool.active[worker]? = some (.answered began version))
    (hOrder : ∀ read ∈ s.pool.active, ∀ later ∈ read.began?, began ≤ later) :
    Orderly
      { s with
        pool := s.pool.finish worker, published := { began, version } :: s.published, now := s.now + 1 } := by
  have hMem : .answered began version ∈ s.pool.active := List.mem_of_getElem? hWorker
  have hBegan : began < s.now := h.began _ hMem began rfl
  have hOlder : ∀ status ∈ s.published, status.began ≤ began := fun status hStatus =>
    (h.published status hStatus).2 _ hMem began rfl
  constructor
  · exact fun t ht => Nat.lt_succ_of_lt (h.refreshed t ht)
  · exact fun read hRead later hLater =>
      Nat.lt_succ_of_lt (h.began read (List.mem_of_mem_eraseIdx hRead) later hLater)
  · refine List.forall_mem_cons.mpr ⟨⟨Nat.lt_succ_of_lt hBegan, fun read hRead => ?_⟩, fun status hStatus => ?_⟩
    · exact hOrder read (List.mem_of_mem_eraseIdx hRead)
    · obtain ⟨hBefore, hRest⟩ := h.published status hStatus
      exact ⟨Nat.lt_succ_of_lt hBefore, fun read hRead => hRest read (List.mem_of_mem_eraseIdx hRead)⟩
  · exact List.Pairwise.cons hOlder h.ordered
  · intro t ht
    rcases h.covered t ht with ⟨status, hStatus, hAfter⟩ | hQueued | ⟨read, hRead, hFollows⟩
    · have hBehind : status.began ≤ began := hOlder status (List.mem_of_mem_head? hStatus)
      exact .inl ⟨_, rfl, Nat.lt_of_lt_of_le hAfter hBehind⟩
    · exact .inr (.inl hQueued)
    · rcases ThreadPool.mem_or_eq_of_getElem? hRead hWorker with rfl | ⟨hStays, -⟩
      · exact .inl ⟨_, rfl, hFollows.2 began rfl⟩
      · exact .inr (.inr ⟨read, hStays, hFollows⟩)

theorem Orderly.step {event : StatusEvent} (h : s.Orderly) (hAdmits : s.Admits event)
    (hStep : s.step event = some s') : s'.Orderly := by
  obtain ⟨m, hAct, rfl⟩ := Option.map_eq_some_iff.mp hStep
  have hClock : ∀ t ∈ s.refreshed, t ≤ s.now := fun t ht => Nat.le_of_lt (h.refreshed t ht)
  cases acts_of_act hAct with
  | refreshWorkingCopy =>
    refine h.unpublished rfl rfl ?_ (fun read hMem _ hIs => .inr ⟨read, hMem, hIs⟩) fun t _ => ?_
    · rintro t ⟨⟩
      exact Nat.le_refl _
    · exact .inr (.inl (List.mem_append_right _ (List.mem_singleton_self _)))
  | post =>
    exact h.unpublished rfl rfl hClock (fun read hMem _ hIs => .inr ⟨read, hMem, hIs⟩)
      (h.covered.mono rfl rfl (fun hQueued => .inl (List.mem_append_left _ hQueued))
        fun _ _ read hMem hFollows => ⟨read, hMem, hFollows⟩)
  | postFront =>
    exact h.unpublished rfl rfl hClock (fun read hMem _ hIs => .inr ⟨read, hMem, hIs⟩)
      (h.covered.mono rfl rfl (fun hQueued => .inl (List.mem_cons_of_mem _ hQueued))
        fun _ _ read hMem hFollows => ⟨read, hMem, hFollows⟩)
  | edit =>
    exact h.unpublished rfl rfl hClock (fun read hMem _ hIs => .inr ⟨read, hMem, hIs⟩) h.covered
  | @take task tasks hTasks =>
    refine h.unpublished rfl rfl hClock (fun read hMem began hIs => ?_)
      (h.covered.mono rfl rfl (fun hQueued => ?_) fun _ _ read hMem hFollows => ?_)
    · rcases List.mem_append.mp hMem with hOld | hNew
      · exact .inr ⟨read, hOld, hIs⟩
      · obtain rfl := List.mem_singleton.mp hNew
        cases task <;> cases hIs
    · rw [hTasks] at hQueued
      rcases List.mem_cons.mp hQueued with rfl | hStays
      · exact .inr (List.mem_append_right _ (List.mem_singleton_self _))
      · exact .inl hStays
    · exact ⟨read, List.mem_append_left _ hMem, hFollows⟩
  | start hWorker =>
    refine h.put hWorker rfl ?_
    rintro began ⟨⟩
    exact .inl rfl
  | answer hWorker =>
    refine h.put hWorker rfl ?_
    rintro began ⟨⟩
    exact .inr rfl
  | publish hWorker => exact h.publish hWorker (hAdmits _ _ hWorker)
  | fail => exact h.ended hAdmits
  | finish hWorker =>
    refine h.ended (h.covered.mono rfl rfl .inl fun _ _ read hMem hFollows => ?_)
    rcases ThreadPool.mem_or_eq_of_getElem? hMem hWorker with rfl | ⟨hStays, -⟩
    · cases hFollows.1
    · exact ⟨read, hStays, hFollows⟩

theorem orderly_start (threads : Nat) : Orderly { pool := { threads } } where
  refreshed _ hNone := by cases hNone
  began _ hNone := absurd hNone List.not_mem_nil
  published _ hNone := absurd hNone List.not_mem_nil
  ordered := List.Pairwise.nil
  covered _ hNone := by cases hNone

/-- In a run whose reads publish in the order in which they began. -/
theorem status_never_backwards {threads : Nat} {events : List StatusEvent}
    (hRun : Run step Admits { pool := { threads } } events s) : s.NeverBackwards ∧ (s.Quiet → s.Fresh) := by
  have hOrderly : s.Orderly := hRun.invariant (orderly_start threads) fun _ _ _ h hAdmits hStep =>
    h.step hAdmits hStep
  refine ⟨hOrderly.ordered, fun hQuiet t ht => ?_⟩
  rcases hOrderly.covered t ht with hShown | hQueued | ⟨read, hRead, hFollows⟩
  · exact hShown
  · exact absurd hQueued hQuiet.1
  · have hNone := hQuiet.2 read hRead
    rw [hFollows.1] at hNone
    cases hNone

section Sample

/-- Two reads begin, one after the other. -/
def twoReads : List StatusEvent :=
  [.refreshWorkingCopy, .refreshWorkingCopy, .take, .take, .start 0, .start 1, .answer 0, .edit, .answer 1]

def bothAnswered : StatusSession where
  now := 9
  version := 1
  pool := { threads := 2, active := [.answered 4 0, .answered 5 1] }
  refreshed := some 1

theorem run_twoReads : Run step Admits { pool := { threads := 2 } } twoReads bothAnswered := by
  have hSteps : twoReads.foldlM step { pool := { threads := 2 } } = some bothAnswered := by decide
  refine (Run.of_foldlM hSteps).admitted fun event hEvent m => ?_
  have hNone : ∀ worker, event ≠ .publish worker ∧ event ≠ .fail worker := by
    rintro worker
    constructor <;> rintro rfl <;> simp [twoReads] at hEvent
  cases event with
  | publish worker => exact absurd rfl (hNone worker).1
  | fail worker => exact absurd rfl (hNone worker).2
  | _ => trivial

/-- The older of the two is published first. -/
def oldestFirst : StatusSession where
  now := 11
  version := 1
  pool := { threads := 2 }
  published := [⟨5, 1⟩, ⟨4, 0⟩]
  refreshed := some 1

theorem status_never_backwards_oldestFirst :
    oldestFirst.published.length = 2 ∧ oldestFirst.NeverBackwards ∧ (oldestFirst.Quiet → oldestFirst.Fresh) := by
  have hFirst : bothAnswered.Admits (.publish 0) := by
    intro began version hWorker
    obtain ⟨rfl, rfl⟩ := RunningStatus.answered.inj (Option.some.inj hWorker)
    decide
  obtain ⟨m, hStep⟩ : ∃ m, bothAnswered.step (.publish 0) = some m := ⟨_, rfl⟩
  have hSecond : m.Admits (.publish 0) := by
    obtain rfl := Option.some.inj hStep
    intro began version hWorker
    obtain ⟨rfl, rfl⟩ := RunningStatus.answered.inj (Option.some.inj hWorker)
    decide
  have hLast : m.step (.publish 0) = some oldestFirst := by
    obtain rfl := Option.some.inj hStep
    rfl
  exact ⟨rfl, status_never_backwards ((run_twoReads.next hFirst hStep).next hSecond hLast)⟩

def oldestLast : List StatusEvent := [.publish 1, .publish 0]

/-- The older of the two is published last. -/
theorem older_status_published : ¬ ∀ (threads : Nat) (events : List StatusEvent) (s : StatusSession), 2 ≤ threads →
    Run step (fun _ _ => True) { pool := { threads } } events s → s.NeverBackwards ∧ (s.Quiet → s.Fresh) := by
  intro h
  obtain ⟨s, hSteps⟩ : ∃ s, (twoReads ++ oldestLast).foldlM step { pool := { threads := 2 } } = some s :=
    ⟨_, rfl⟩
  have hOrder := (h 2 _ s (Nat.le_refl 2) (.of_foldlM hSteps)).1
  obtain rfl := Option.some.inj hSteps
  rw [NeverBackwards] at hOrder
  exact absurd hOrder (by decide)

end Sample

end StatusSession

end GitBranchManager
