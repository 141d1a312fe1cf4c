import GitBranchManager.Library.Runs
import GitBranchManager.Status.DiffFingerprints

/-! # Diff requests, the read pool and the replies

The requests of one side of one path go to the front of the shared read pool. A worker that
takes one reads the repository once and sends its reply to the interface, whose event queue
is first in, first out; a reply that is handled is merged over the one before it. The clock
counts steps, and the repository's states are numbered in the order it went through them.
-/

namespace GitBranchManager

open Library UnifiedDiffParser

structure ThreadPool (τ ρ : Type) where
  threads : Nat
  tasks : List τ := []
  active : List ρ := []
  deriving DecidableEq, Repr

namespace ThreadPool

variable {τ ρ : Type}

def defaultThreadCount (hardware : Nat) : Nat :=
  if hardware ≤ 1 then 2 else min 6 (max 2 (hardware - 1))

def post (pool : ThreadPool τ ρ) (task : τ) : ThreadPool τ ρ :=
  { pool with tasks := pool.tasks ++ [task] }

def postFront (pool : ThreadPool τ ρ) (task : τ) : ThreadPool τ ρ :=
  { pool with tasks := task :: pool.tasks }

def take (pool : ThreadPool τ ρ) (run : τ → ρ) : Option (ThreadPool τ ρ) :=
  match pool.tasks with
  | [] => none
  | task :: tasks =>
    if pool.active.length < pool.threads then
      some { pool with tasks, active := pool.active ++ [run task] }
    else none

def finish (pool : ThreadPool τ ρ) (worker : Nat) : ThreadPool τ ρ :=
  { pool with active := pool.active.eraseIdx worker }

/-- A worker that is free takes the first task. -/
theorem eq_of_take {pool pool' : ThreadPool τ ρ} {run : τ → ρ} (h : pool.take run = some pool') :
    ∃ task tasks, pool.tasks = task :: tasks ∧ pool' = { pool with tasks, active := pool.active ++ [run task] } := by
  rw [take] at h
  split at h
  · cases h
  · rename_i task tasks hTasks
    obtain ⟨-, hPool⟩ := Option.ite_none_right_eq_some.mp h
    exact ⟨task, tasks, hTasks, (Option.some.inj hPool).symm⟩

/-- What another worker than the one that goes on runs. -/
theorem mem_or_eq_of_getElem? {α : Type} {l : List α} {i : Nat} {x y : α} (hx : x ∈ l)
    (hy : l[i]? = some y) : x = y ∨ x ∈ l.eraseIdx i ∧ ∀ z, x ∈ l.set i z := by
  obtain ⟨j, hj⟩ := List.mem_iff_getElem?.mp hx
  by_cases he : j = i
  · subst he
    exact Or.inl (Option.some.inj (hj.symm.trans hy))
  · refine Or.inr ⟨List.mem_eraseIdx_iff_getElem?.mpr ⟨j, he, hj⟩, fun z => ?_⟩
    refine List.mem_of_getElem? (i := j) ?_
    rw [List.getElem?_set_ne (Ne.symm he), hj]

end ThreadPool

def kMaxCachedWorkingCopyDiffs : Nat := 4

/-- The reply goes to the end of the map, and the least recently answered are dropped. -/
def mergedDiffReply (current : InsertionMap Bytes WorkingCopyDiffReply) (reply : WorkingCopyDiffReply) :
    InsertionMap Bytes WorkingCopyDiffReply :=
  ((current.remove (workingCopyDiffKey reply.path reply.staged)).put
    (workingCopyDiffKey reply.path reply.staged) reply).keepLast kMaxCachedWorkingCopyDiffs

/-- What `emitWorkingCopyDiff` sends of a diff: of a rename's two paths only the one named. -/
def emittedDiff (path oldPath : Bytes) (staged : Bool) (parsed : ParsedDiff) : ParsedDiff :=
  if staged && !oldPath.isEmpty && oldPath != path then
    { parsed with files := parsed.files.filter fun file => file.newPath == path }
  else parsed

inductive ReadTask
  | diff (requested : Nat)
  | other
  deriving DecidableEq, Repr

/-- A running task; a diff read has a version once git has read the repository. -/
inductive RunningRead
  | diff (requested started : Nat) (version : Option Nat)
  | other
  deriving DecidableEq, Repr

structure DiffAnswer where
  requested : Nat
  started : Nat
  version : Nat
  deriving DecidableEq, Repr

/-- The side that is asked for, and the diff text git prints of it in each repository state. -/
structure DiffSide where
  path : Bytes
  oldPath : Bytes
  staged : Bool
  diffText : Nat → Bytes

def DiffSide.key (side : DiffSide) : Bytes := workingCopyDiffKey side.path side.staged

def DiffSide.reply (side : DiffSide) (answer : DiffAnswer) : WorkingCopyDiffReply where
  path := side.path
  staged := side.staged
  diff := emittedDiff side.path side.oldPath side.staged (parse {} (side.diffText answer.version))

/-- `shown` and `newest` record which answer the map holds and when the last request was made;
no step of the source reads them. -/
structure DiffSession where
  now : Nat := 0
  version : Nat := 0
  pool : ThreadPool ReadTask RunningRead
  inbox : List DiffAnswer := []
  diffs : InsertionMap Bytes WorkingCopyDiffReply := .empty
  shown : Option DiffAnswer := none
  newest : Option Nat := none

inductive DiffEvent
  | request
  | post
  | edit
  | start
  | read (worker : Nat)
  | emit (worker : Nat)
  | fail (worker : Nat)
  | finish (worker : Nat)
  | deliver
  deriving DecidableEq, Repr

namespace DiffSession

def begin (now : Nat) : ReadTask → RunningRead
  | .diff requested => .diff requested now none
  | .other => .other

def act (side : DiffSide) (s : DiffSession) : DiffEvent → Option DiffSession
  | .request =>
    some { s with pool := s.pool.postFront (.diff s.now), newest := some s.now }
  | .post => some { s with pool := s.pool.post .other }
  | .edit => some { s with version := s.version + 1 }
  | .start => (s.pool.take (begin s.now)).map fun pool => { s with pool }
  | .read worker =>
    match s.pool.active[worker]? with
    | some (.diff requested started none) =>
      some { s with pool := { s.pool with
        active := s.pool.active.set worker (.diff requested started (some s.version)) } }
    | _ => none
  | .emit worker =>
    match s.pool.active[worker]? with
    | some (.diff requested started (some version)) =>
      some { s with
        pool := s.pool.finish worker
        inbox := s.inbox ++ [{ requested, started, version }] }
    | _ => none
  | .fail worker =>
    match s.pool.active[worker]? with
    | some (.diff _ _ _) => some { s with pool := s.pool.finish worker }
    | _ => none
  | .finish worker =>
    match s.pool.active[worker]? with
    | some .other => some { s with pool := s.pool.finish worker }
    | _ => none
  | .deliver =>
    match s.inbox with
    | [] => none
    | answer :: inbox =>
      some { s with inbox, diffs := mergedDiffReply s.diffs (side.reply answer), shown := some answer }

def step (side : DiffSide) (s : DiffSession) (event : DiffEvent) : Option DiffSession :=
  (act side s event).map fun s => { s with now := s.now + 1 }

def Quiet (s : DiffSession) : Prop :=
  (∀ requested, .diff requested ∉ s.pool.tasks) ∧
    (∀ requested started version, .diff requested started version ∉ s.pool.active) ∧ s.inbox = []

end DiffSession

end GitBranchManager
