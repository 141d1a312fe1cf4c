import GitBranchManager.Discovery.FullScan
import GitBranchManager.Discovery.SeenRows

/-! # What an incremental scan misses

A directory that looks unchanged is skipped with all that lies below it, though only what lies
directly in it tells in its time. The rows that its path begins are taken for what is still there.
-/

namespace GitBranchManager

open Library RepoIndexDb

namespace Scan

/-- The scan has come to its end, and nobody cancelled and nothing failed. -/
structure Completes (scan : Scan) (rows : List RepoRecord) (s : ScannerState) : Prop where
  runs : ∃ n events, 0 < n ∧ Run scan.step (fun _ _ => True) (start n rows) events s
  undisturbed : s.Undisturbed
  ended : ∀ worker ∈ s.workers, worker = .exited

/-- A full scan of the same tree, from the same index. -/
def asFull (scan : Scan) : Scan := { scan with mode := .full }

/-- The scan comes to the repository. -/
def Finds (scan : Scan) (key : Text × Text) : Prop :=
  ∃ path repo, scan.Visited path ∧ scan.unchangedAt path = false ∧ (scan.fs path).repo = some repo ∧
    (repo.gitDir, repo.workDir) = key

/-- The path of a directory that the scan skips begins the row's. -/
def Keeps (scan : Scan) (row : RepoRecord) : Prop :=
  row.missingSince = none ∧ row.baseFolderId = scan.baseFolder.id ∧ ∃ path, scan.Visited path ∧
    scan.unchangedAt path = true ∧ Begins (scan.pathOf { path, depth := path.length }) row

end Scan

theorem ScanMove.rows_eq {scan : Scan} {s m : ScannerState} {worker next : ScanWorker} {action : ScanAction}
    {rows : List RepoRecord} (h : ScanMove scan s worker action m next)
    (hRows : s.rows = s.effects.foldl scan.applyEffect rows) : m.rows = m.effects.foldl scan.applyEffect rows := by
  cases h with
  | touch => simp only [Scan.applyEffects, hRows, List.foldl_append]
  | commit => simp only [Scan.applyEffects, hRows, List.foldl_append]
  | _ => exact hRows

namespace Scan

variable {scan : Scan} {s t : ScannerState} {rows : List RepoRecord} {key : Text × Text}

theorem Completes.rows_finish (h : scan.Completes rows s) (now : Int) :
    (scan.finish s now).rows =
      markMissing ((scan.finish s now).effects.foldl scan.applyEffect rows) scan.baseFolder.id scan.generation now := by
  obtain ⟨n, events, _, hRun⟩ := h.runs
  have hRows : s.rows = s.effects.foldl scan.applyEffect rows := by
    refine hRun.invariant (P := fun m => m.rows = m.effects.foldl scan.applyEffect rows) rfl ?_
    intro m event m' hRows _ hStep
    obtain ⟨_, rfl⟩ | ⟨_, _, _, _, after, _, _, _, hMove, _, _, rfl⟩ := step_cases hStep
    · exact hRows
    · exact hMove.rows_eq hRows
  simp only [finish, applyEffects, hRows, List.foldl_append]

theorem Completes.effects_finish (h : scan.Completes rows s) (now : Int) :
    (scan.finish s now).effects.Perm (scan.effectsBelow root) := by
  obtain ⟨n, events, hWorkers, hRun⟩ := h.runs
  exact effects_of_ended hRun hWorkers h.undisturbed h.ended now

/-- What is in the list after a scan. -/
theorem Completes.live_finish (h : scan.Completes rows s) (now : Int) :
    Live (scan.finish s now).rows key ↔
      scan.Finds key ∨ ∃ row ∈ rows, row.key = key ∧ (Stands scan row ∨ scan.Keeps row) := by
  have hMem (effect : IndexEffect) : effect ∈ (scan.finish s now).effects ↔ effect ∈ scan.effectsBelow root :=
    (h.effects_finish now).mem_iff
  rw [h.rows_finish, live_markMissing, stands_foldl]
  · refine or_congr ?_ (exists_congr fun row => and_congr_right fun _ => and_congr_right fun _ => or_congr_right ?_)
    · constructor
      · rintro ⟨record, hUpsert, hKey⟩
        obtain ⟨path, repo, hVisited, hChanged, hRepo, rfl⟩ := upsert_mem_effectsBelow_root.mp ((hMem _).mp hUpsert)
        exact ⟨path, repo, hVisited, hChanged, hRepo, hKey⟩
      · rintro ⟨path, repo, hVisited, hChanged, hRepo, hKey⟩
        exact ⟨scan.recordOf repo, (hMem _).mpr (upsert_mem_effectsBelow_root.mpr
          ⟨path, repo, hVisited, hChanged, hRepo, rfl⟩), hKey⟩
    · refine and_congr_right fun _ => and_congr_right fun _ => ?_
      constructor
      · rintro ⟨directory, hTouch, hBegins⟩
        obtain ⟨path, hVisited, hSame, rfl⟩ := touch_mem_effectsBelow_root.mp ((hMem _).mp hTouch)
        exact ⟨path, hVisited, hSame, hBegins⟩
      · rintro ⟨path, hVisited, hSame, hBegins⟩
        exact ⟨_, (hMem _).mpr (touch_mem_effectsBelow_root.mpr ⟨path, hVisited, hSame, rfl⟩), hBegins⟩
  · intro record hUpsert
    obtain ⟨path, repo, _, _, _, rfl⟩ := upsert_mem_effectsBelow_root.mp ((hMem _).mp hUpsert)
    exact Int.le_refl _

theorem unchangedAt_asFull (path : List Text) : scan.asFull.unchangedAt path = false :=
  unchanged_of_full rfl _

theorem Visited.asFull {path : List Text} (h : scan.Visited path) : scan.asFull.Visited path := by
  induction h with
  | base hDepth => exact .base hDepth
  | child _ _ hNoRepo hEntry hPlaceholder hLink hSkip hDepth ih =>
    exact .child ih (unchangedAt_asFull _) hNoRepo hEntry hPlaceholder hLink hSkip hDepth

theorem Finds.asFull (h : scan.Finds key) : scan.asFull.Finds key := by
  obtain ⟨path, repo, hVisited, _, hRepo, hKey⟩ := h
  exact ⟨path, repo, hVisited.asFull, unchangedAt_asFull path, hRepo, hKey⟩

theorem not_keeps_asFull (row : RepoRecord) : ¬ scan.asFull.Keeps row := by
  rintro ⟨_, _, path, _, hSame, _⟩
  rw [unchangedAt_asFull] at hSame
  cases hSame

/-- The repositories that are reachable and that the scan neither finds nor has a standing row of are
those of the rows that the skipped directories keep. -/
def KeepsTheReachable (scan : Scan) (rows : List RepoRecord) : Prop :=
  ∀ key, ¬ scan.Finds key → ¬ (∃ row ∈ rows, row.key = key ∧ Stands scan row) →
    ((∃ row ∈ rows, row.key = key ∧ scan.Keeps row) ↔ scan.asFull.Finds key)

/-- An incremental scan leaves what a full one would exactly when the skipped directories keep the
rows of what is reachable below them, and of nothing else. -/
theorem incremental_eq_full_iff (hScan : scan.Completes rows s) (hFull : scan.asFull.Completes rows t) (now : Int) :
    (∀ key, Live (scan.finish s now).rows key ↔ Live (scan.asFull.finish t now).rows key) ↔
      scan.KeepsTheReachable rows := by
  refine forall_congr' fun key => ?_
  rw [hScan.live_finish, hFull.live_finish]
  have hStands (row : RepoRecord) : Stands scan.asFull row ↔ Stands scan row := Iff.rfl
  have hFinds : scan.Finds key → scan.asFull.Finds key := Finds.asFull
  simp only [hStands, not_keeps_asFull, or_false, and_or_left, exists_or]
  by_cases hFound : scan.Finds key
  · simp [hFound, hFinds hFound]
  by_cases hLeft : ∃ row ∈ rows, row.key = key ∧ Stands scan row
  · simp [hLeft]
  · simp only [hFound, hLeft, false_or, or_false, not_false_eq_true, true_imp_iff]

/-- Where the events lead a scan with one worker. -/
def ranTo (scan : Scan) (rows : List RepoRecord) (events : List ScanEvent) : ScannerState :=
  (events.foldlM scan.step (start 1 rows)).getD (start 1 rows)

theorem completes_ranTo {events : List ScanEvent} (hRuns : (events.foldlM scan.step (start 1 rows)).isSome)
    (hClean : (scan.ranTo rows events).Undisturbed)
    (hEnded : ∀ worker ∈ (scan.ranTo rows events).workers, worker = .exited) :
    scan.Completes rows (scan.ranTo rows events) := by
  obtain ⟨s, hRun⟩ := Option.isSome_iff_exists.mp hRuns
  refine ⟨⟨1, events, Nat.one_pos, ?_⟩, hClean, hEnded⟩
  rw [ranTo, hRun]
  exact .of_foldlM hRun

/-- The signatures in the index after a scan. -/
def leftSignatures (scan : Scan) (s : ScannerState) : Text → Option DirSignature :=
  saveDirSignatures (if scan.mode = .full then fun _ => none else scan.dirSignature) s.signatures

/-- The next scan, of the tree as it is then. -/
def next (earlier : Scan) (s : ScannerState) (fs : FileSystem) : Scan where
  baseFolder := earlier.baseFolder
  mode := .incremental
  generation := earlier.generation + 1
  fs
  dirSignature := earlier.leftSignatures s
  shouldSkipName := earlier.shouldSkipName
  canonicalKey := earlier.canonicalKey
  separator := earlier.separator

/-- A directory has the time it had exactly when there is in it what was there. -/
def TimesTell (before after : FileSystem) : Prop :=
  ∀ path, (after path).mtimeNs = (before path).mtimeNs ↔
    (after path).entries = (before path).entries ∧ (after path).repo = (before path).repo

theorem distinct_none : (([] : List DirEntry).map DirEntry.name).Nodup := List.nodup_nil

/-- A directory `g` in the base folder. -/
def emptyGroup (path : List Text) : Directory :=
  if path.isEmpty then { mtimeNs := some 1, entries := [{ name := ['g'] }] }
  else if path = [['g']] then { mtimeNs := some 2, distinct := distinct_none }
  else { distinct := distinct_none }

/-- A repository has been made in `g`. -/
def group (path : List Text) : Directory :=
  if path.isEmpty then { mtimeNs := some 1, entries := [{ name := ['g'] }] }
  else if path = [['g']] then { mtimeNs := some 3, entries := [{ name := ['r'] }] }
  else if path = [['g'], ['r']] then
    { mtimeNs := some 4, repo := some { workDir := ['w'], gitDir := ['d'] }, distinct := distinct_none }
  else { distinct := distinct_none }

theorem timesTell_group : TimesTell emptyGroup group := by
  intro path
  rw [emptyGroup, group]
  split
  · simp
  · split
    · simp
    · split
      · simp
      · simp

def firstScan : Scan where
  baseFolder := { id := 1, path := ['/'], maxDepth := 3 }
  mode := .full
  generation := 1
  fs := emptyGroup
  dirSignature _ := none
  shouldSkipName _ := false
  canonicalKey := id

/-- One worker takes so many directories, one after another. -/
def visits : Nat → List ScanEvent
  | 0 => [.worker 0 .exit]
  | n + 1 => .worker 0 .pop :: .worker 0 (.look true) :: .worker 0 .list :: .worker 0 .release :: visits n

/-- One worker takes the base folder and need not look into it. -/
def skips : List ScanEvent := [.worker 0 .pop, .worker 0 (.look true), .worker 0 .release, .worker 0 .exit]

/-- The first scan finds nothing. -/
def firstState : ScannerState := firstScan.ranTo [] (visits 2)

def nextScan : Scan := firstScan.next firstState group

theorem firstScan_rows : (firstScan.finish firstState 1).rows = [] := rfl

theorem nextScan_rows : (nextScan.finish (nextScan.ranTo [] skips) 2).rows = [] := rfl

theorem nextScan_asFull_rows : (nextScan.asFull.finish (nextScan.asFull.ranTo [] (visits 3)) 2).rows =
    [{ baseFolderId := 1, workDir := ['w'], gitDir := ['d'], lastSeenGeneration := 2 }] := rfl

theorem completes_firstScan : firstScan.Completes [] firstState := completes_ranTo rfl ⟨rfl, rfl⟩ (by decide)

theorem completes_nextScan : nextScan.Completes [] (nextScan.ranTo [] skips) :=
  completes_ranTo rfl ⟨rfl, rfl⟩ (by decide)

theorem completes_nextScan_asFull : nextScan.asFull.Completes [] (nextScan.asFull.ranTo [] (visits 3)) :=
  completes_ranTo rfl ⟨rfl, rfl⟩ (by decide)

/-- Nothing keeps the repository that has been made. -/
theorem incremental_eq_full_iff_nextScan : ¬ nextScan.KeepsTheReachable [] := by
  intro hKeeps
  have hSame := (incremental_eq_full_iff completes_nextScan completes_nextScan_asFull 2).mpr hKeeps (['d'], ['w'])
  rw [nextScan_rows, nextScan_asFull_rows] at hSame
  obtain ⟨row, hRow, _⟩ := hSame.mpr ⟨_, List.mem_singleton_self _, rfl, rfl⟩
  cases hRow

/-- The base folder looks as it did, and so a repository that is new two levels down is not found. -/
theorem new_repository_missed : ¬ ∀ (earlier : Scan) (rows : List RepoRecord) (s t u : ScannerState) (fs : FileSystem)
    (now later : Int), earlier.Completes rows s → TimesTell earlier.fs fs →
    (earlier.next s fs).Completes (earlier.finish s now).rows t →
    (earlier.next s fs).asFull.Completes (earlier.finish s now).rows u →
    ∀ key, Live ((earlier.next s fs).finish t later).rows key ↔
      Live ((earlier.next s fs).asFull.finish u later).rows key := by
  intro h
  have hNext := completes_nextScan
  have hFull := completes_nextScan_asFull
  rw [← firstScan_rows] at hNext hFull
  have hSame := h firstScan [] firstState _ _ group 1 2 completes_firstScan timesTell_group hNext hFull (['d'], ['w'])
  change Live (nextScan.finish _ 2).rows _ ↔ Live (nextScan.asFull.finish _ 2).rows _ at hSame
  rw [firstScan_rows, nextScan_rows, nextScan_asFull_rows] at hSame
  obtain ⟨row, hRow, _⟩ := hSame.mpr ⟨_, List.mem_singleton_self _, rfl, rfl⟩
  cases hRow

end Scan

end GitBranchManager
