import GitBranchManager.Discovery.EndingScans
import GitBranchManager.Discovery.VisitedDirectories

/-! # What a full scan finds

A full scan puts each repository that it can reach into the index once, however its workers take
turns.
-/

namespace GitBranchManager

open Library

namespace Scan

/-- A directory that is reached from the base folder through directories that are no repositories. -/
inductive Reachable (scan : Scan) : List Text → Prop
  | base (hDepth : 0 ≤ scan.baseFolder.maxDepth) : Reachable scan []
  | child {path : List Text} {entry : DirEntry} (hParent : Reachable scan path)
      (hNoRepo : (scan.fs path).repo = none) (hEntry : entry ∈ (scan.fs path).entries)
      (hPlaceholder : entry.isCloudPlaceholder = false) (hLink : entry.isLinkLike = false)
      (hSkip : scan.shouldSkipName entry.name = false)
      (hDepth : ((path.length + 1 : Nat) : Int) ≤ scan.baseFolder.maxDepth) : Reachable scan (path ++ [entry.name])

/-- Each reachable repository is passed on once, and that is all that is done. -/
def FindsReachable (scan : Scan) (effects : List IndexEffect) : Prop :=
  ∃ found : List (List Text × ClassifiedRepo), (found.map Prod.fst).Nodup ∧
    (∀ path repo, (path, repo) ∈ found ↔ scan.Reachable path ∧ (scan.fs path).repo = some repo) ∧
    effects.Perm (found.map fun entry => .upsert (scan.recordOf entry.2))

variable {scan : Scan} {s s' : ScannerState} {n : Nat} {rows : List RepoRecord}

theorem unchanged_of_full (hFull : scan.mode = .full) (item : WorkItem) : scan.unchanged item = false := by
  rw [unchanged, hFull]
  rfl

theorem reachable_iff_visited (hFull : scan.mode = .full) {path : List Text} :
    scan.Reachable path ↔ scan.Visited path := by
  constructor
  · intro hReachable
    induction hReachable with
    | base hDepth => exact .base hDepth
    | child _ hNoRepo hEntry hPlaceholder hLink hSkip hDepth ih =>
      exact .child ih (unchanged_of_full hFull _) hNoRepo hEntry hPlaceholder hLink hSkip hDepth
  · intro hVisited
    induction hVisited with
    | base hDepth => exact .base hDepth
    | child _ _ hNoRepo hEntry hPlaceholder hLink hSkip hDepth ih =>
      exact .child ih hNoRepo hEntry hPlaceholder hLink hSkip hDepth

/-- The repository that a walk comes upon at the item. -/
def foundAt (scan : Scan) (item : WorkItem) : Option (List Text × ClassifiedRepo) :=
  if scan.admits item then (scan.fs item.path).repo.map fun repo => (item.path, repo) else none

theorem foundAt_eq_some {item : WorkItem} {path : List Text} {repo : ClassifiedRepo} :
    scan.foundAt item = some (path, repo) ↔
      scan.admits item = true ∧ item.path = path ∧ (scan.fs path).repo = some repo := by
  rw [foundAt]
  split
  next hAdmits =>
    rw [Option.map_eq_some_iff]
    constructor
    · rintro ⟨found, hFound, hPair⟩
      cases hPair
      exact ⟨hAdmits, rfl, hFound⟩
    · rintro ⟨_, rfl, hFound⟩
      exact ⟨repo, hFound, rfl⟩
  next hNot => simp [hNot]

theorem effectsBelow_root (hFull : scan.mode = .full) :
    scan.effectsBelow root =
      ((scan.walk root).filterMap scan.foundAt).map fun entry => .upsert (scan.recordOf entry.2) := by
  rw [effectsBelow, List.map_filterMap, List.filterMap_eq_flatMap_toList]
  refine List.flatMap_congr fun item _ => ?_
  rw [ownEffects, unchanged_of_full hFull, foundAt]
  cases hAdmits : scan.admits item with
  | false => rfl
  | true => cases (scan.fs item.path).repo <;> rfl

theorem findsReachable_walk (hFull : scan.mode = .full) : scan.FindsReachable (scan.effectsBelow root) := by
  refine ⟨(scan.walk root).filterMap scan.foundAt, ?_, ?_, effectsBelow_root hFull ▸ .refl _⟩
  · have hApart : (scan.walk root).Pairwise fun item other => item.path ≠ other.path :=
      List.pairwise_map.mp (nodup_unfold scan.ranked scan.named root)
    rw [List.Nodup, List.pairwise_map, List.pairwise_filterMap]
    refine hApart.imp fun hDiffer => ?_
    rintro ⟨path, repo⟩ hFound ⟨other, otherRepo⟩ hOther hSame
    obtain ⟨_, rfl, _⟩ := foundAt_eq_some.mp hFound
    obtain ⟨_, rfl, _⟩ := foundAt_eq_some.mp hOther
    exact hDiffer hSame
  · intro path repo
    rw [List.mem_filterMap]
    constructor
    · rintro ⟨item, hItem, hFound⟩
      obtain ⟨hAdmits, rfl, hRepo⟩ := foundAt_eq_some.mp hFound
      exact ⟨(reachable_iff_visited hFull).mpr ((visited_of_walked hItem).2 hAdmits), hRepo⟩
    · rintro ⟨hReachable, hRepo⟩
      obtain ⟨hWalked, hAdmits⟩ := walked_of_visited ((reachable_iff_visited hFull).mp hReachable)
      exact ⟨_, hWalked, foundAt_eq_some.mpr ⟨hAdmits, rfl, hRepo⟩⟩

theorem accounted_of_run {events : List ScanEvent} (h : Run scan.step (fun _ _ => True) (start n rows) events s) :
    scan.Accounted s :=
  h.invariant accounted_start fun _ _ _ hIs _ hStep => hIs.step hStep

theorem length_workers {events : List ScanEvent} (h : Run scan.step (fun _ _ => True) (start n rows) events s) :
    s.workers.length = n := by
  refine h.invariant (P := fun m => m.workers.length = n) List.length_replicate ?_
  intro m event m' hLength _ hStep
  obtain ⟨_, rfl⟩ | ⟨i, action, worker, next, after, before, rest, _, _, hWorkers, _, rfl⟩ := step_cases hStep
  · exact hLength
  · rw [hWorkers] at hLength
    simpa using hLength

/-- What a scan that has come to its end has done is the walk of the base folder. -/
theorem effects_of_ended {events : List ScanEvent} (h : Run scan.step (fun _ _ => True) (start n rows) events s)
    (hWorkers : 0 < n) (hClean : s.Undisturbed) (hEnded : ∀ worker ∈ s.workers, worker = .exited) (now : Int) :
    (scan.finish s now).effects.Perm (scan.effectsBelow root) := by
  have hAccounted := accounted_of_run h
  have hSome : .exited ∈ s.workers := by
    obtain ⟨worker, hMem⟩ := List.exists_mem_of_length_pos (length_workers h ▸ hWorkers)
    exact hEnded worker hMem ▸ hMem
  have hQueue := (hAccounted.ended hClean hSome).1
  have hNone : s.workers.flatMap scan.owed = [] := by
    refine List.flatMap_eq_nil_iff.mpr fun worker hMem => ?_
    rw [hEnded worker hMem]
    rfl
  refine List.perm_iff_count.mpr fun effect => ?_
  have hComplete := hAccounted.complete hClean effect
  rw [hNone, account, hQueue, List.flatMap_nil, List.append_nil, List.count_nil, Nat.add_zero] at hComplete
  exact hComplete

/-- Nobody leaves while there is something left, all who leave have found what can be reached, and all
leave. -/
theorem full_scan_finds_reachable (scan : Scan) (hFull : scan.mode = .full) {n : Nat} (hWorkers : 0 < n)
    (rows : List RepoRecord) (now : Int) :
    (∀ events s, Run scan.step (fun _ _ => True) (start n rows) events s → s.Undisturbed →
      (.exited ∈ s.workers → s.queue = [] ∧ ∀ worker ∈ s.workers, worker.isActive = false) ∧
      ((∀ worker ∈ s.workers, worker = .exited) → scan.FindsReachable (scan.finish s now).effects)) ∧
    ∀ schedule : Schedule scan.step (start n rows), scan.Fair schedule →
      ∃ t, ∀ u, t ≤ u → ∀ worker ∈ (schedule.state u).workers, worker = .exited := by
  constructor
  · intro events s hRun hClean
    constructor
    · intro hExited
      have hAccounted := accounted_of_run hRun
      obtain ⟨hQueue, hIdle⟩ := hAccounted.ended hClean hExited
      refine ⟨hQueue, fun worker hMem => ?_⟩
      rw [hAccounted.counted, List.countP_eq_zero] at hIdle
      exact Bool.not_eq_true _ ▸ hIdle worker hMem
    · intro hEnded
      obtain ⟨found, hNodup, hFound, hPerm⟩ := findsReachable_walk hFull
      exact ⟨found, hNodup, hFound, (effects_of_ended hRun hWorkers hClean hEnded now).trans hPerm⟩
  · exact fun schedule hFair => all_exit schedule hFair

/-- A base folder with one repository in it. -/
def oneRepo (path : List Text) : Directory :=
  match path with
  | [] => { entries := [{ name := ['a'] }] }
  | [['a']] => { repo := some { workDir := ['/', 'a'], gitDir := ['g'] } }
  | _ => {}

def oneRepoScan : Scan where
  baseFolder := { id := 1, path := ['/'], maxDepth := 3 }
  mode := .full
  generation := 1
  fs := oneRepo
  dirSignature _ := none
  shouldSkipName _ := false
  canonicalKey := id

/-- One worker sleeps while the other has the base folder in hand. -/
def twoWorkers : List ScanEvent :=
  [.worker 0 .pop, .worker 1 .sleep, .worker 0 (.look true), .worker 0 .list, .worker 1 .pop, .worker 0 .release,
    .worker 0 .sleep, .worker 1 (.look true), .worker 1 .list, .worker 1 .release, .worker 0 .exit, .worker 1 .exit]

theorem full_scan_finds_reachable_oneRepo : ∃ s, twoWorkers.foldlM oneRepoScan.step (start 2 []) = some s ∧
    (∀ worker ∈ s.workers, worker = .exited) ∧ (oneRepoScan.finish s 5).effects.length = 1 ∧
    oneRepoScan.FindsReachable (oneRepoScan.finish s 5).effects := by
  have h (s : ScannerState) (hs : twoWorkers.foldlM oneRepoScan.step (start 2 []) = some s) :
      Run oneRepoScan.step (fun _ _ => True) (start 2 []) twoWorkers s := .of_foldlM hs
  have hFinds := (full_scan_finds_reachable oneRepoScan rfl (by decide : 0 < 2) [] 5).1 _ _ (h _ rfl) ⟨rfl, rfl⟩
  exact ⟨_, rfl, by decide, rfl, hFinds.2 (by decide)⟩

end Scan

end GitBranchManager
