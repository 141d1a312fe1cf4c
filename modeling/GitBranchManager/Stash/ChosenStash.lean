import GitBranchManager.Library.Runs
import GitBranchManager.Stash.StashOps

/-! # Stash requests in the operation queue

A request names its stash by the index of the row that was chosen, in any list read so far. The
queue runs one request after another, and a request that waits may be cancelled.
-/

namespace GitBranchManager

inductive StashAction
  | apply (pop : Bool)
  | drop
  | branch (branchName : Bytes)
  deriving DecidableEq, Repr

def StashAction.run {ρ : Type} (action : StashAction) (index : Int32) (git : ProcessRunner ρ) (s : ρ) :
    OperationOutcome × ρ :=
  match action with
  | .apply pop => StashApplyRequest.run { index, pop } git s
  | .drop => StashDropRequest.run { index } git s
  | .branch branchName => StashBranchRequest.run { index, branchName } git s

/-- The rows that were read when the list had gone through the first `seen` of its changes. -/
structure StashRows where
  entries : List StashEntry
  seen : Nat
  deriving DecidableEq, Repr

/-- A row of a list, counted from the top. -/
structure ChosenRow where
  row : Nat
  entry : StashEntry
  seen : Nat
  deriving DecidableEq, Repr

/-- Only the index of the row goes with a request. -/
inductive StashRequest
  | save (request : StashSaveRequest)
  | act (action : StashAction) (chosen : ChosenRow)
  deriving DecidableEq, Repr

/-- What a request did; `target` is the stash that git took it for. -/
structure StashRun where
  chosen : ChosenRow
  target : Option Stash
  outcome : OperationOutcome
  before : StashRepo
  after : StashRepo
  deriving DecidableEq, Repr

/-- `runs` records what the requests did, and no step reads it. -/
structure StashSession where
  repo : StashRepo
  lists : List StashRows := []
  queue : List StashRequest := []
  runs : List StashRun := []
  deriving DecidableEq, Repr

inductive StashEvent
  | refreshStashes (answer : StashAnswer)
  | saveStash (request : StashSaveRequest)
  | submit (action : StashAction) (list row : Nat)
  | cancel (i : Nat)
  | run (answer : StashAnswer)

namespace StashSession

def target (s : StashSession) (chosen : ChosenRow) : Option Stash :=
  (s.repo.resolve (stashName chosen.entry.index)).bind fun i => s.repo.stashes[i]?

def step (s : StashSession) : StashEvent → Option StashSession
  | .refreshStashes answer =>
    match StashStore.list (StashRepo.git answer) s.repo with
    | (.error _, repo) => some { s with repo }
    | (.ok entries, repo) => some { s with repo, lists := s.lists ++ [{ entries, seen := repo.changes.length }] }
  | .saveStash request => some { s with queue := s.queue ++ [.save request] }
  | .submit action list row =>
    match s.lists[list]? with
    | none => none
    | some rows =>
      (rows.entries[row]?).map fun entry =>
        { s with queue := s.queue ++ [.act action { row, entry, seen := rows.seen }] }
  | .cancel i => some { s with queue := s.queue.eraseIdx i }
  | .run answer =>
    match s.queue with
    | [] => none
    | .save request :: queue => some { s with repo := (request.run (StashRepo.git answer) s.repo).2, queue }
    | .act action chosen :: queue =>
      let (outcome, after) := action.run chosen.entry.index (StashRepo.git answer) s.repo
      some { s with
        repo := after
        queue
        runs := s.runs ++ [{ chosen, target := s.target chosen, outcome, before := s.repo, after }] }

end StashSession

/-- The request acted on the stash of its row, or failed and changed nothing. -/
def StashRun.HitsChosen (run : StashRun) : Prop :=
  run.target.map Stash.oid = some run.chosen.entry.oid ∨ run.outcome.succeeded = false ∧ run.after = run.before

instance (run : StashRun) : Decidable run.HitsChosen :=
  inferInstanceAs (Decidable (_ ∨ _))

end GitBranchManager

/-! ## The stash that a request hits

Where a row's stash has gone follows from the changes of the list since it was read, and git
takes the request for the stash at the index that the row had.
-/

namespace GitBranchManager

open Library

section Requests

variable {ρ : Type} (git : ProcessRunner ρ) (s : ρ)

theorem runStashCommand_snd (command : GitCommand) (done : Bytes) :
    (runStashCommand command done git s).2 = (git s command).2 := by
  rw [runStashCommand]
  split
  · rename_i hGit
    rw [hGit]
  · rename_i hGit
    rw [hGit]

theorem StashSaveRequest.run_snd (request : StashSaveRequest) :
    (request.run git s).2 = (git s request.args).2 := by
  rw [run]
  split
  · rename_i hGit
    rw [hGit]
  · rename_i hGit
    rw [hGit]
    split <;> rfl

def StashAction.verb : StashAction → Bytes
  | .apply pop => ascii (if pop then "pop" else "apply")
  | .drop => ascii "drop"
  | .branch _ => ascii "branch"

/-- The command of a request on a chosen stash. -/
def StashAction.command (action : StashAction) (index : Int32) : GitCommand :=
  match action with
  | .branch branchName => [ascii "stash", action.verb, branchName, stashName index]
  | _ => [ascii "stash", action.verb, stashName index]

theorem StashAction.run_eq (action : StashAction) (index : Int32) :
    ∃ done, action.run index git s = runStashCommand (action.command index) done git s := by
  cases action with
  | apply pop => exact ⟨_, rfl⟩
  | drop => exact ⟨_, rfl⟩
  | branch branchName => exact ⟨_, rfl⟩

theorem StashAction.getD_command (action : StashAction) (index : Int32) :
    (action.command index).getD 1 [] = action.verb := by
  cases action <;> rfl

theorem StashAction.verb_ne (action : StashAction) : action.verb ≠ ascii "list" ∧ action.verb ≠ ascii "push" := by
  cases action with
  | apply pop => cases pop <;> decide
  | drop => decide
  | branch branchName =>
    rw [verb]
    decide

theorem StashAction.getLastD_command (action : StashAction) (index : Int32) :
    (action.command index).getLastD [] = stashName index := by
  cases action <;> rfl

end Requests

namespace StashRepo

/-- The stash that was at `row` after `seen` changes has the id `oid` wherever it is now. -/
structure Placed (s : StashRepo) (seen row : Nat) (oid : Bytes) : Prop where
  read : seen ≤ s.changes.length
  found : ∀ i, ListChange.track (s.changes.drop seen) row = some i → s.stashes[i]?.map Stash.oid = some oid

variable {s s' : StashRepo} {seen row : Nat} {oid : Bytes}

theorem Placed.evolves (h : s.Placed seen row oid) (hEvolves : s.Evolves s') : s'.Placed seen row oid := by
  rcases hEvolves with ⟨hStashes, hChanges⟩ | ⟨change, hLeads, hChanges⟩
  · refine ⟨?_, ?_⟩
    · rw [hChanges]
      exact h.read
    · rw [hChanges, hStashes]
      exact h.found
  · refine ⟨?_, fun i hTrack => ?_⟩
    · rw [hChanges, List.length_append]
      exact Nat.le_add_right_of_le h.read
    · rw [hChanges, List.drop_append_of_le_length h.read, ListChange.track_concat] at hTrack
      obtain ⟨before, hBefore, hMove⟩ := Option.bind_eq_some_iff.mp hTrack
      rw [ListChange.getElem?_of_move hLeads hMove]
      exact h.found before hBefore

end StashRepo

namespace StashSession

open StashRepo

variable {s s' : StashSession}

/-- The rows of the lists and of the requests that wait show what was there when they were read. -/
structure Shown (s : StashSession) : Prop where
  lists : ∀ rows ∈ s.lists, ∀ (row : Nat) (entry : StashEntry), rows.entries[row]? = some entry →
    s.repo.Placed rows.seen row entry.oid
  queue : ∀ action chosen, .act action chosen ∈ s.queue → s.repo.Placed chosen.seen chosen.row chosen.entry.oid

/-- git refuses the request, finds no stash at its index, or finds the chosen one there: of the changes
since its list was read, as many put a stash above it as took one away above it, and none took it. -/
def Admits (s : StashSession) : StashEvent → Prop
  | .run answer => ∀ action chosen, s.queue.head? = some (.act action chosen) →
    answer.Refuses ∨ s.repo.resolve (stashName chosen.entry.index) = none ∨
      ∃ i, ListChange.track (s.repo.changes.drop chosen.seen) chosen.row = some i ∧ chosen.entry.index.toInt = i
  | _ => True

theorem Shown.evolves (h : s.Shown) {repo : StashRepo} (hEvolves : s.repo.Evolves repo) : Shown { s with repo } :=
  ⟨fun rows hRows row entry hEntry => (h.lists rows hRows row entry hEntry).evolves hEvolves,
    fun action chosen hMem => (h.queue action chosen hMem).evolves hEvolves⟩

theorem Shown.subset (h : s.Shown) {queue : List StashRequest} (hQueue : queue ⊆ s.queue) {runs : List StashRun} :
    Shown { s with queue, runs } :=
  ⟨h.lists, fun action chosen hMem => h.queue action chosen (hQueue hMem)⟩

theorem placed_read (repo : StashRepo) {row : Nat} {entry : StashEntry}
    (h : (StashStore.readEntries repo.listing)[row]? = some entry) :
    repo.Placed repo.changes.length row entry.oid := by
  refine ⟨Nat.le_refl _, fun i hTrack => ?_⟩
  rw [List.drop_length, ListChange.track_nil] at hTrack
  obtain rfl := Option.some.inj hTrack
  rw [← List.getElem?_map, ← oid_readEntries, List.getElem?_map, h]
  rfl

theorem Shown.refreshStashes (h : s.Shown) (answer : StashAnswer) (hStep : s.step (.refreshStashes answer) = some s') :
    s'.Shown ∧ s'.runs = s.runs := by
  obtain ⟨stored, workTree, removes, error, out⟩ := answer
  cases error with
  | some e =>
    obtain rfl := Option.some.inj hStep
    exact ⟨h, rfl⟩
  | none =>
    obtain rfl := Option.some.inj hStep
    refine ⟨⟨fun rows hRows row entry hEntry => ?_, h.queue⟩, rfl⟩
    rcases List.mem_append.mp hRows with hOld | hNew
    · exact h.lists rows hOld row entry hEntry
    · obtain rfl := List.mem_singleton.mp hNew
      exact placed_read s.repo hEntry

theorem Shown.submit (h : s.Shown) {action : StashAction} {list row : Nat}
    (hStep : s.step (.submit action list row) = some s') : s'.Shown ∧ s'.runs = s.runs := by
  rw [step] at hStep
  split at hStep
  · cases hStep
  · rename_i rows hRows
    obtain ⟨entry, hEntry, rfl⟩ := Option.map_eq_some_iff.mp hStep
    refine ⟨⟨h.lists, fun other chosen hMem => ?_⟩, rfl⟩
    rcases List.mem_append.mp hMem with hOld | hNew
    · exact h.queue other chosen hOld
    · obtain ⟨-, rfl⟩ := StashRequest.act.inj (List.mem_singleton.mp hNew)
      exact h.lists rows (List.mem_of_getElem? hRows) row entry hEntry

/-- What the front request does while the rows are right about it. -/
theorem hitsChosen_run {action : StashAction} {chosen : ChosenRow} {answer : StashAnswer}
    (hPlaced : s.repo.Placed chosen.seen chosen.row chosen.entry.oid)
    (hAdmits : answer.Refuses ∨ s.repo.resolve (stashName chosen.entry.index) = none ∨
      ∃ i, ListChange.track (s.repo.changes.drop chosen.seen) chosen.row = some i ∧ chosen.entry.index.toInt = i) :
    StashRun.HitsChosen
      { chosen
        target := s.target chosen
        outcome := (action.run chosen.entry.index (StashRepo.git answer) s.repo).1
        before := s.repo
        after := (action.run chosen.entry.index (StashRepo.git answer) s.repo).2 } := by
  obtain ⟨done, hRun⟩ := action.run_eq (StashRepo.git answer) s.repo chosen.entry.index
  have hIdle (h : answer.Refuses ∨ s.repo.resolve (stashName chosen.entry.index) = none) :
      (action.run chosen.entry.index (StashRepo.git answer) s.repo).1.succeeded = false ∧
        (action.run chosen.entry.index (StashRepo.git answer) s.repo).2 = s.repo := by
    obtain ⟨e, hGit⟩ : ∃ e, StashRepo.git answer s.repo (action.command chosen.entry.index) = (.error e, s.repo) := by
      apply git_idle
      · rw [action.getD_command]
        exact action.verb_ne.1
      · rw [action.getD_command]
        exact action.verb_ne.2
      · rw [action.getLastD_command]
        exact h
    rw [hRun, runStashCommand, hGit]
    exact ⟨rfl, rfl⟩
  rcases hAdmits with hRefuses | hNowhere | ⟨i, hTrack, hIndex⟩
  · exact .inr (hIdle (.inl hRefuses))
  · exact .inr (hIdle (.inr hNowhere))
  · left
    have hFound := hPlaced.found i hTrack
    obtain ⟨stash, hStash, -⟩ := Option.map_eq_some_iff.mp hFound
    have hLess : i < s.repo.stashes.length := (List.getElem?_eq_some_iff.mp hStash).1
    rw [StashSession.target, stashName_eq hIndex, resolve_placeName hLess, Option.bind_some]
    exact hFound

structure Right (s : StashSession) : Prop extends Shown s where
  runs : ∀ run ∈ s.runs, run.HitsChosen

theorem Right.step (h : s.Right) {event : StashEvent} (hAdmits : s.Admits event) (hStep : s.step event = some s') :
    s'.Right := by
  cases event with
  | refreshStashes answer =>
    obtain ⟨hShown, hRuns⟩ := h.toShown.refreshStashes answer hStep
    exact ⟨hShown, hRuns ▸ h.runs⟩
  | saveStash request =>
    obtain rfl := Option.some.inj hStep
    refine ⟨⟨h.lists, fun action chosen hMem => ?_⟩, h.runs⟩
    rcases List.mem_append.mp hMem with hOld | hNew
    · exact h.queue action chosen hOld
    · cases List.mem_singleton.mp hNew
  | submit action list row =>
    obtain ⟨hShown, hRuns⟩ := h.toShown.submit hStep
    exact ⟨hShown, hRuns ▸ h.runs⟩
  | cancel i =>
    obtain rfl := Option.some.inj hStep
    exact ⟨h.toShown.subset List.eraseIdx_subset, h.runs⟩
  | run answer =>
    rw [StashSession.step] at hStep
    split at hStep
    · cases hStep
    · rename_i request queue hQueue
      obtain rfl := Option.some.inj hStep
      have hEvolves : s.repo.Evolves (request.run (StashRepo.git answer) s.repo).2 := by
        rw [request.run_snd]
        exact evolves_git answer s.repo _
      have hRest : queue ⊆ s.queue := hQueue ▸ List.subset_cons_self _ _
      exact ⟨(h.toShown.subset hRest).evolves hEvolves, h.runs⟩
    · rename_i action chosen queue hQueue
      obtain rfl := Option.some.inj hStep
      have hEvolves : s.repo.Evolves (action.run chosen.entry.index (StashRepo.git answer) s.repo).2 := by
        obtain ⟨done, hRun⟩ := action.run_eq (StashRepo.git answer) s.repo chosen.entry.index
        rw [hRun, runStashCommand_snd]
        exact evolves_git answer s.repo _
      have hRest : queue ⊆ s.queue := hQueue ▸ List.subset_cons_self _ _
      have hFront : .act action chosen ∈ s.queue := hQueue ▸ List.mem_cons_self
      refine ⟨(h.toShown.subset hRest).evolves hEvolves, fun run hMem => ?_⟩
      rcases List.mem_append.mp hMem with hOld | hNew
      · exact h.runs run hOld
      · obtain rfl := List.mem_singleton.mp hNew
        exact hitsChosen_run (h.queue action chosen hFront) (hAdmits action chosen (hQueue ▸ rfl))

section Sample

def three : StashRepo where
  stashes := [{ oid := ascii "a" }, { oid := ascii "b" }, { oid := ascii "c" }]

def dropped : StashAnswer := { removes := true }

def submitDrops (rows : List Nat) : List StashEvent := .refreshStashes {} :: rows.map fun row => .submit .drop 0 row

/-- The first two rows of the list are dropped, from the top. -/
def dropTwo : List StashEvent := submitDrops [0, 1] ++ [.run dropped, .run dropped]

def row (i : Nat) : ChosenRow where
  row := i
  entry := { index := Int32.ofNat i, oid := [97 + i.toUInt8] }
  seen := 0

def shown : StashRows where
  entries := [(row 0).entry, (row 1).entry, (row 2).entry]
  seen := 0

/-- The second row is to be dropped, and then the first. -/
def upwards : StashSession where
  repo := three
  lists := [shown]
  queue := [.act .drop (row 1), .act .drop (row 0)]

theorem run_upwards : Run step Admits { repo := three } (submitDrops [1, 0]) upwards := by
  have hSteps : (submitDrops [1, 0]).foldlM step { repo := three } = some upwards := by decide +kernel
  refine (Run.of_foldlM hSteps).admitted fun event hEvent m => ?_
  rcases List.mem_cons.mp hEvent with rfl | hSubmit
  · trivial
  · obtain ⟨row, -, rfl⟩ := List.mem_map.mp hSubmit
    trivial

end Sample

end StashSession

end GitBranchManager
