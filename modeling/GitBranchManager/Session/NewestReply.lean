import GitBranchManager.Session.DiffReads

/-! # The newest diff reply wins -/

namespace GitBranchManager

open Library

namespace DiffSession

inductive Acts (side : DiffSide) (s : DiffSession) : DiffEvent → DiffSession → Prop
  | request : Acts side s .request
      { s with pool := s.pool.postFront (.diff s.now), newest := some s.now }
  | post : Acts side s .post { s with pool := s.pool.post .other }
  | edit : Acts side s .edit { s with version := s.version + 1 }
  | start (task : ReadTask) (tasks : List ReadTask) (hTasks : s.pool.tasks = task :: tasks) :
      Acts side s .start
        { s with pool := { s.pool with tasks, active := s.pool.active ++ [begin s.now task] } }
  | read (worker requested started : Nat)
      (hWorker : s.pool.active[worker]? = some (.diff requested started none)) :
      Acts side s (.read worker)
        { s with pool := { s.pool with
          active := s.pool.active.set worker (.diff requested started (some s.version)) } }
  | emit (worker requested started version : Nat)
      (hWorker : s.pool.active[worker]? = some (.diff requested started (some version))) :
      Acts side s (.emit worker)
        { s with pool := s.pool.finish worker, inbox := s.inbox ++ [{ requested, started, version }] }
  | fail (worker requested started : Nat) (version : Option Nat)
      (hWorker : s.pool.active[worker]? = some (.diff requested started version)) :
      Acts side s (.fail worker) { s with pool := s.pool.finish worker }
  | finish (worker : Nat) (hWorker : s.pool.active[worker]? = some .other) :
      Acts side s (.finish worker) { s with pool := s.pool.finish worker }
  | deliver (answer : DiffAnswer) (inbox : List DiffAnswer) (hInbox : s.inbox = answer :: inbox) :
      Acts side s .deliver
        { s with inbox, diffs := mergedDiffReply s.diffs (side.reply answer), shown := some answer }

theorem acts_of_act {side : DiffSide} {s s' : DiffSession} {event : DiffEvent}
    (h : act side s event = some s') : Acts side s event s' := by
  cases event with
  | request => exact Option.some.inj h ▸ .request
  | post => exact Option.some.inj h ▸ .post
  | edit => exact Option.some.inj h ▸ .edit
  | start =>
    obtain ⟨pool, hTake, rfl⟩ := Option.map_eq_some_iff.mp h
    obtain ⟨task, tasks, hTasks, rfl⟩ := ThreadPool.eq_of_take hTake
    exact .start task tasks hTasks
  | read worker =>
    simp only [act] at h
    split at h
    next requested started hWorker => exact Option.some.inj h ▸ .read worker requested started hWorker
    next => cases h
  | emit worker =>
    simp only [act] at h
    split at h
    next requested started version hWorker =>
      exact Option.some.inj h ▸ .emit worker requested started version hWorker
    next => cases h
  | fail worker =>
    simp only [act] at h
    split at h
    next requested started version hWorker =>
      exact Option.some.inj h ▸ .fail worker requested started version hWorker
    next => cases h
  | finish worker =>
    simp only [act] at h
    split at h
    next hWorker => exact Option.some.inj h ▸ .finish worker hWorker
    next => cases h
  | deliver =>
    simp only [act] at h
    split at h
    next => cases h
    next answer inbox hInbox => exact Option.some.inj h ▸ .deliver answer inbox hInbox

/-- Every read since a request has started after it, and one of them is shown. -/
structure Answered (s : DiffSession) (t : Nat) : Prop where
  shown : ∃ answer, s.shown = some answer ∧ t ≤ answer.started
  inbox : ∀ answer ∈ s.inbox, t ≤ answer.started
  active : ∀ requested started version, .diff requested started version ∈ s.pool.active → t ≤ started

def Outstanding (s : DiffSession) (t : Nat) : Prop :=
  .diff t ∈ s.pool.tasks ∨ (∃ started version, .diff t started version ∈ s.pool.active) ∨
    ∃ answer ∈ s.inbox, answer.requested = t

/-- The steps at which no reply is overtaken: when a reply is handled, no answer behind it and
no running read has read an older repository state, and if it is the newest request's, they
all started after that request; and the newest request's read fails only once answered. -/
def Orderly (s : DiffSession) : DiffEvent → Prop
  | .deliver => ∀ answer inbox, s.inbox = answer :: inbox →
      (∀ other ∈ inbox, answer.version ≤ other.version) ∧
      (∀ requested started version, .diff requested started (some version) ∈ s.pool.active →
        answer.version ≤ version) ∧
      (s.newest = some answer.requested → (∀ other ∈ inbox, answer.requested ≤ other.started) ∧
        ∀ requested started version, .diff requested started version ∈ s.pool.active →
          answer.requested ≤ started)
  | .fail worker => ∀ requested started version,
      s.pool.active[worker]? = some (.diff requested started version) →
      s.newest = some requested → s.Answered requested
  | _ => True

structure Ordered (side : DiffSide) (s : DiffSession) : Prop where
  clock : ∀ t, s.newest = some t → t ≤ s.now
  queued : ∀ requested, .diff requested ∈ s.pool.tasks → requested ≤ s.now
  running : ∀ requested started version, .diff requested started version ∈ s.pool.active →
    requested ≤ started ∧ ∀ v ∈ version, v ≤ s.version
  answers : ∀ answer ∈ s.inbox, answer.requested ≤ answer.started ∧ answer.version ≤ s.version
  seen : ∀ answer, s.shown = some answer → answer.version ≤ s.version
  inboxAfter : ∀ answer, s.shown = some answer → ∀ other ∈ s.inbox, answer.version ≤ other.version
  activeAfter : ∀ answer, s.shown = some answer → ∀ requested started version,
    .diff requested started (some version) ∈ s.pool.active → answer.version ≤ version
  newest : ∀ t, s.newest = some t → s.Outstanding t ∨ s.Answered t
  held : ∀ answer, s.shown = some answer → s.diffs.get? side.key = some (side.reply answer)

theorem ordered_new (side : DiffSide) (threads : Nat) :
    Ordered side { pool := { threads } } := by
  constructor
  case running => exact fun _ _ _ h => (nomatch h)
  all_goals intro _ h; cases h

variable {side : DiffSide} {s : DiffSession}

theorem Ordered.tick (h : Ordered side s) : Ordered side { s with now := s.now + 1 } where
  clock t ht := Nat.le_succ_of_le (h.clock t ht)
  queued requested hMem := Nat.le_succ_of_le (h.queued requested hMem)
  running := h.running
  answers := h.answers
  seen := h.seen
  inboxAfter := h.inboxAfter
  activeAfter := h.activeAfter
  newest t ht := (h.newest t ht).imp id fun hA => ⟨hA.shown, hA.inbox, hA.active⟩
  held := h.held

theorem Ordered.request (h : Ordered side s) :
    Ordered side { s with pool := s.pool.postFront (.diff s.now), newest := some s.now } where
  clock t ht := (Option.some.inj ht).ge
  queued requested hMem := by
    rcases List.mem_cons.mp hMem with hEq | hMem
    · cases hEq
      exact Nat.le_refl _
    · exact h.queued requested hMem
  running := h.running
  answers := h.answers
  seen := h.seen
  inboxAfter := h.inboxAfter
  activeAfter := h.activeAfter
  newest t ht := Or.inl (Or.inl (Option.some.inj ht ▸ List.mem_cons_self))
  held := h.held

theorem Ordered.post (h : Ordered side s) : Ordered side { s with pool := s.pool.post .other } where
  clock := h.clock
  queued requested hMem := by
    rcases List.mem_append.mp hMem with hMem | hMem
    · exact h.queued requested hMem
    · cases List.mem_singleton.mp hMem
  running := h.running
  answers := h.answers
  seen := h.seen
  inboxAfter := h.inboxAfter
  activeAfter := h.activeAfter
  newest t ht := by
    rcases h.newest t ht with (hMem | hRest) | hA
    · exact Or.inl (Or.inl (List.mem_append_left _ hMem))
    · exact Or.inl (Or.inr hRest)
    · exact Or.inr ⟨hA.shown, hA.inbox, hA.active⟩
  held := h.held

theorem Ordered.edit (h : Ordered side s) : Ordered side { s with version := s.version + 1 } where
  clock := h.clock
  queued := h.queued
  running requested started version hMem :=
    ⟨(h.running requested started version hMem).1,
      fun v hv => Nat.le_succ_of_le ((h.running requested started version hMem).2 v hv)⟩
  answers answer hMem :=
    ⟨(h.answers answer hMem).1, Nat.le_succ_of_le (h.answers answer hMem).2⟩
  seen answer hShown := Nat.le_succ_of_le (h.seen answer hShown)
  inboxAfter := h.inboxAfter
  activeAfter := h.activeAfter
  newest t ht := (h.newest t ht).imp id fun hA => ⟨hA.shown, hA.inbox, hA.active⟩
  held := h.held

theorem Ordered.start (h : Ordered side s) {task : ReadTask} {tasks : List ReadTask}
    (hTasks : s.pool.tasks = task :: tasks) :
    Ordered side { s with pool := { s.pool with tasks, active := s.pool.active ++ [begin s.now task] } } := by
  have hNew : ∀ requested started version,
      .diff requested started version ∈ s.pool.active ++ [begin s.now task] →
      .diff requested started version ∈ s.pool.active ∨
        task = .diff requested ∧ started = s.now ∧ version = none := by
    intro requested started version hMem
    rcases List.mem_append.mp hMem with hMem | hMem
    · exact Or.inl hMem
    · cases task with
      | other => cases List.mem_singleton.mp hMem
      | diff requested' =>
        cases List.mem_singleton.mp hMem
        exact Or.inr ⟨rfl, rfl, rfl⟩
  refine ⟨h.clock, ?_, ?_, h.answers, h.seen, h.inboxAfter, ?_, ?_, h.held⟩
  · exact fun requested hMem => h.queued requested (hTasks ▸ List.mem_cons_of_mem _ hMem)
  · intro requested started version hMem
    rcases hNew requested started version hMem with hOld | ⟨rfl, rfl, rfl⟩
    · exact h.running requested started version hOld
    · exact ⟨h.queued requested (hTasks ▸ List.mem_cons_self), nofun⟩
  · intro answer hShown requested started version hMem
    rcases hNew requested started (some version) hMem with hOld | ⟨-, -, hNone⟩
    · exact h.activeAfter answer hShown requested started version hOld
    · cases hNone
  · intro t ht
    rcases h.newest t ht with (hMem | ⟨started, version, hMem⟩ | hMem) | hA
    · rw [hTasks] at hMem
      rcases List.mem_cons.mp hMem with rfl | hMem
      · exact Or.inl (Or.inr (Or.inl ⟨s.now, none, List.mem_append_right _ (List.mem_singleton_self _)⟩))
      · exact Or.inl (Or.inl hMem)
    · exact Or.inl (Or.inr (Or.inl ⟨started, version, List.mem_append_left _ hMem⟩))
    · exact Or.inl (Or.inr (Or.inr hMem))
    · refine Or.inr ⟨hA.shown, hA.inbox, fun requested started version hMem => ?_⟩
      rcases hNew requested started version hMem with hOld | ⟨-, rfl, -⟩
      · exact hA.active requested started version hOld
      · exact h.clock t ht

theorem Ordered.read (h : Ordered side s) {worker requested started : Nat}
    (hWorker : s.pool.active[worker]? = some (.diff requested started none)) :
    Ordered side { s with pool := { s.pool with
      active := s.pool.active.set worker (.diff requested started (some s.version)) } } := by
  have hNew : ∀ requested' started' version',
      .diff requested' started' version' ∈
        s.pool.active.set worker (.diff requested started (some s.version)) →
      .diff requested' started' version' ∈ s.pool.active ∨
        requested' = requested ∧ started' = started ∧ version' = some s.version := by
    intro requested' started' version' hMem
    rcases List.mem_or_eq_of_mem_set hMem with hMem | hEq
    · exact Or.inl hMem
    · cases hEq
      exact Or.inr ⟨rfl, rfl, rfl⟩
  have hOld := List.mem_of_getElem? hWorker
  refine ⟨h.clock, h.queued, ?_, h.answers, h.seen, h.inboxAfter, ?_, ?_, h.held⟩
  · intro requested' started' version' hMem
    rcases hNew _ _ _ hMem with hMem | ⟨rfl, rfl, rfl⟩
    · exact h.running _ _ _ hMem
    · refine ⟨(h.running _ _ _ hOld).1, fun v hv => ?_⟩
      obtain rfl := Option.some.inj hv
      exact Nat.le_refl _
  · intro answer hShown requested' started' version' hMem
    rcases hNew _ _ _ hMem with hMem | ⟨-, -, hVersion⟩
    · exact h.activeAfter answer hShown _ _ _ hMem
    · obtain rfl := Option.some.inj hVersion
      exact h.seen answer hShown
  · intro t ht
    rcases h.newest t ht with (hMem | ⟨started', version', hMem⟩ | hMem) | hA
    · exact Or.inl (Or.inl hMem)
    · refine Or.inl (Or.inr (Or.inl ?_))
      rcases ThreadPool.mem_or_eq_of_getElem? hMem hWorker with hEq | ⟨-, hKept⟩
      · cases hEq
        obtain ⟨hLt, -⟩ := List.getElem?_eq_some_iff.mp hWorker
        exact ⟨started, some s.version, List.mem_set hLt _⟩
      · exact ⟨started', version', hKept _⟩
    · exact Or.inl (Or.inr (Or.inr hMem))
    · refine Or.inr ⟨hA.shown, hA.inbox, fun requested' started' version' hMem => ?_⟩
      rcases hNew _ _ _ hMem with hMem | ⟨-, rfl, -⟩
      · exact hA.active _ _ _ hMem
      · exact hA.active _ _ _ hOld

theorem Ordered.emit (h : Ordered side s) {worker requested started version : Nat}
    (hWorker : s.pool.active[worker]? = some (.diff requested started (some version))) :
    Ordered side { s with
      pool := s.pool.finish worker, inbox := s.inbox ++ [{ requested, started, version }] } := by
  have hMem := List.mem_of_getElem? hWorker
  have hKept : ∀ x ∈ (s.pool.finish worker).active, x ∈ s.pool.active :=
    fun x hx => List.mem_of_mem_eraseIdx hx
  obtain ⟨hOrder, hVersion⟩ := h.running requested started (some version) hMem
  refine ⟨h.clock, h.queued, fun _ _ _ hx => h.running _ _ _ (hKept _ hx), ?_, h.seen, ?_,
    fun answer hShown _ _ _ hx => h.activeAfter answer hShown _ _ _ (hKept _ hx), ?_, h.held⟩
  · intro answer hAnswer
    rcases List.mem_append.mp hAnswer with hAnswer | hAnswer
    · exact h.answers answer hAnswer
    · obtain rfl := List.mem_singleton.mp hAnswer
      exact ⟨hOrder, hVersion version rfl⟩
  · intro answer hShown other hOther
    rcases List.mem_append.mp hOther with hOther | hOther
    · exact h.inboxAfter answer hShown other hOther
    · obtain rfl := List.mem_singleton.mp hOther
      exact h.activeAfter answer hShown _ _ _ hMem
  · intro t ht
    rcases h.newest t ht with (hTask | ⟨started', version', hActive⟩ | ⟨answer, hAnswer, hEq⟩) | hA
    · exact Or.inl (Or.inl hTask)
    · rcases ThreadPool.mem_or_eq_of_getElem? hActive hWorker with hEq | ⟨hActive, -⟩
      · cases hEq
        exact Or.inl (Or.inr (Or.inr ⟨_, List.mem_append_right _ (List.mem_singleton_self _), rfl⟩))
      · exact Or.inl (Or.inr (Or.inl ⟨started', version', hActive⟩))
    · exact Or.inl (Or.inr (Or.inr ⟨answer, List.mem_append_left _ hAnswer, hEq⟩))
    · refine Or.inr ⟨hA.shown, fun answer hAnswer => ?_, fun _ _ _ hx => hA.active _ _ _ (hKept _ hx)⟩
      rcases List.mem_append.mp hAnswer with hAnswer | hAnswer
      · exact hA.inbox answer hAnswer
      · obtain rfl := List.mem_singleton.mp hAnswer
        exact hA.active _ _ _ hMem

/-- A worker that ends without a reply takes an answer from nobody when the newest request
stays outstanding or is answered. -/
theorem Ordered.drop (h : Ordered side s) {worker : Nat} {task : RunningRead}
    (hWorker : s.pool.active[worker]? = some task)
    (hTask : ∀ requested started version, task = .diff requested started version →
      s.newest = some requested → s.Answered requested) :
    Ordered side { s with pool := s.pool.finish worker } := by
  have hKept : ∀ x ∈ (s.pool.finish worker).active, x ∈ s.pool.active :=
    fun x hx => List.mem_of_mem_eraseIdx hx
  refine ⟨h.clock, h.queued, fun _ _ _ hx => h.running _ _ _ (hKept _ hx), h.answers, h.seen,
    h.inboxAfter, fun answer hShown _ _ _ hx => h.activeAfter answer hShown _ _ _ (hKept _ hx), ?_,
    h.held⟩
  have hStill {t : Nat} (hA : s.Answered t) : ({ s with pool := s.pool.finish worker }).Answered t :=
    ⟨hA.shown, hA.inbox, fun _ _ _ hx => hA.active _ _ _ (hKept _ hx)⟩
  intro t ht
  rcases h.newest t ht with (hMem | ⟨started, version, hMem⟩ | hMem) | hA
  · exact Or.inl (Or.inl hMem)
  · rcases ThreadPool.mem_or_eq_of_getElem? hMem hWorker with hEq | ⟨hMem, -⟩
    · exact Or.inr (hStill (hTask t started version hEq.symm ht))
    · exact Or.inl (Or.inr (Or.inl ⟨started, version, hMem⟩))
  · exact Or.inl (Or.inr (Or.inr hMem))
  · exact Or.inr (hStill hA)

theorem get?_mergedDiffReply (current : InsertionMap Bytes WorkingCopyDiffReply)
    (reply : WorkingCopyDiffReply) :
    (mergedDiffReply current reply).get? (workingCopyDiffKey reply.path reply.staged) = some reply := by
  refine InsertionMap.get?_keepLast_put ?_ reply (by decide)
  rw [InsertionMap.get?_remove, if_pos rfl]

theorem Ordered.deliver (h : Ordered side s) {answer : DiffAnswer} {inbox : List DiffAnswer}
    (hInbox : s.inbox = answer :: inbox) (hOrderly : s.Orderly .deliver) :
    Ordered side { s with
      inbox, diffs := mergedDiffReply s.diffs (side.reply answer), shown := some answer } := by
  obtain ⟨hBehind, hRunning, hNewest⟩ := hOrderly answer inbox hInbox
  have hMem : answer ∈ s.inbox := hInbox ▸ List.mem_cons_self
  have hRest : ∀ other ∈ inbox, other ∈ s.inbox := fun other hOther =>
    hInbox ▸ List.mem_cons_of_mem _ hOther
  refine ⟨h.clock, h.queued, h.running, fun other hOther => h.answers other (hRest other hOther), ?_, ?_,
    ?_, ?_, ?_⟩
  · intro shown hShown
    exact Option.some.inj hShown ▸ (h.answers answer hMem).2
  · intro shown hShown
    exact Option.some.inj hShown ▸ hBehind
  · intro shown hShown
    exact Option.some.inj hShown ▸ hRunning
  · intro t ht
    by_cases he : answer.requested = t
    · obtain ⟨hInboxStarts, hActiveStarts⟩ := hNewest (he ▸ ht)
      exact Or.inr ⟨⟨answer, rfl, he ▸ (h.answers answer hMem).1⟩, he ▸ hInboxStarts, he ▸ hActiveStarts⟩
    · rcases h.newest t ht with (hTask | hActive | ⟨other, hOther, hEq⟩) | hA
      · exact Or.inl (Or.inl hTask)
      · exact Or.inl (Or.inr (Or.inl hActive))
      · rw [hInbox] at hOther
        rcases List.mem_cons.mp hOther with rfl | hOther
        · exact absurd hEq he
        · exact Or.inl (Or.inr (Or.inr ⟨other, hOther, hEq⟩))
      · exact Or.inr ⟨⟨answer, rfl, hA.inbox answer hMem⟩,
          fun other hOther => hA.inbox other (hRest other hOther), hA.active⟩
  · intro shown hShown
    obtain rfl := Option.some.inj hShown
    exact get?_mergedDiffReply s.diffs (side.reply answer)

theorem Ordered.step {event : DiffEvent} {s' : DiffSession} (h : Ordered side s)
    (hOrderly : s.Orderly event) (hStep : s.step side event = some s') : Ordered side s' := by
  obtain ⟨acted, hAct, rfl⟩ := Option.map_eq_some_iff.mp hStep
  apply Ordered.tick
  cases acts_of_act hAct with
  | request => exact h.request
  | post => exact h.post
  | edit => exact h.edit
  | start task tasks hTasks => exact h.start hTasks
  | read worker requested started hWorker => exact h.read hWorker
  | emit worker requested started version hWorker => exact h.emit hWorker
  | fail worker requested started version hWorker =>
    refine h.drop hWorker fun requested' started' version' hEq => ?_
    cases hEq
    exact hOrderly requested started version hWorker
  | finish worker hWorker => exact h.drop hWorker nofun
  | deliver answer inbox hInbox => exact h.deliver hInbox hOrderly

theorem Ordered.shown_step {event : DiffEvent} {s' : DiffSession} (h : Ordered side s)
    (hStep : s.step side event = some s') {answer : DiffAnswer} (hShown : s.shown = some answer) :
    ∃ answer', s'.shown = some answer' ∧ answer.version ≤ answer'.version := by
  obtain ⟨acted, hAct, rfl⟩ := Option.map_eq_some_iff.mp hStep
  cases acts_of_act hAct with
  | deliver other inbox hInbox =>
    exact ⟨other, rfl, h.inboxAfter answer hShown other (hInbox ▸ List.mem_cons_self)⟩
  | _ => exact ⟨answer, hShown, Nat.le_refl _⟩

def editedSide : DiffSide where
  path := ascii "f"
  oldPath := []
  staged := false
  diffText := fun version =>
    ascii "diff --git a/f b/f\n--- a/f\n+++ b/f\n@@ -1 +1 @@\n-a\n" ++
      if version = 0 then ascii "+b\n" else ascii "+c\n"

/-- Two requests with an edit between them; the second read answers before the first. -/
def overtakenEvents : List DiffEvent :=
  [.request, .start, .read 0, .edit, .request, .start, .read 1, .emit 1, .emit 0, .deliver, .deliver]

end DiffSession

end GitBranchManager
