import GitBranchManager.Library.Recent
import GitBranchManager.Operations.WorkerSteps
import GitBranchManager.Refs.UndoPoints
import Mathlib.Data.List.Range

/-! # The undo journal over a run of the queue

An entry is recorded just before its operation runs, and takes its id from how many the journal
then holds. The journal is cut to its bound after each entry.
-/

namespace GitBranchManager

open Library

/-- `recorded` lists every entry with whether its operation reached `run`. -/
structure JournaledRunner where
  operations : OperationRunner := {}
  undoJournal : List UndoEntry := []
  recorded : List (UndoEntry × Bool) := []

/-- What HEAD and the clock say comes with the event; an exception comes before or after the entry
is recorded. -/
inductive JournalEvent
  | begin (head : Option HeadInfo) (timestamp : Int)
  | beginThrows (point : Option (Option HeadInfo × Int))
  | other (event : OperationRunner.RunnerEvent)

namespace JournaledRunner

open OperationRunner

def record (s : JournaledRunner) (operation : Operation) (head : Option HeadInfo) (timestamp : Int)
    (reachesRun : Bool) : JournaledRunner :=
  let entry := UndoEntry.of s.undoJournal operation timestamp head
  { s with undoJournal := UndoEntry.push s.undoJournal entry, recorded := s.recorded ++ [(entry, reachesRun)] }

/-- The first part of the `try` block of `runQueued`, which only an operation that is not housekeeping
records itself in. -/
def recordHeld (s : JournaledRunner) (head : Option HeadInfo) (timestamp : Int) (reachesRun : Bool) :
    JournaledRunner :=
  match s.operations.worker with
  | .busy queued _ =>
    if queued.operation.isHousekeeping then s else s.record queued.operation head timestamp reachesRun
  | _ => s

def step (s : JournaledRunner) : JournalEvent → Option JournaledRunner
  | .begin head timestamp =>
    (s.operations.step (.worker .begin)).map fun operations =>
      { s.recordHeld head timestamp true with operations }
  | .beginThrows none =>
    (s.operations.step (.worker .beginThrows)).map fun operations => { s with operations }
  | .beginThrows (some (head, timestamp)) =>
    (s.operations.step (.worker .beginThrows)).map fun operations =>
      { s.recordHeld head timestamp false with operations }
  | .other event =>
    if event = .worker .begin ∨ event = .worker .beginThrows then none
    else (s.operations.step event).map fun operations => { s with operations }

/-- The entries of the operations that reached `run`, in the order in which they did. -/
def reached (s : JournaledRunner) : List UndoEntry := (s.recorded.filter Prod.snd).map Prod.fst

/-- The journal holds the last of what was recorded, and each entry was numbered by how many the
journal held. -/
structure Journaled (s : JournaledRunner) : Prop where
  journal : s.undoJournal = (s.recorded.map Prod.fst).rtake UndoEntry.kMaxUndoEntries
  ids : s.recorded.map (fun r => r.1.id) =
    (List.range s.recorded.length).map fun i => min UndoEntry.kMaxUndoEntries i + 1

theorem Journaled.record {s : JournaledRunner} (h : s.Journaled) (operation : Operation) (head : Option HeadInfo)
    (timestamp : Int) (reachesRun : Bool) : (s.record operation head timestamp reachesRun).Journaled := by
  constructor
  · rw [JournaledRunner.record, UndoEntry.push_eq_drop, List.map_append, h.journal]
    exact rtake_concat_cut (by decide) _
  · rw [JournaledRunner.record, List.map_append, h.ids, List.length_append, List.length_singleton, List.range_succ,
      List.map_append]
    congr 1
    rw [List.map_singleton, List.map_singleton, UndoEntry.of, h.journal, length_rtake, List.length_map]

theorem Journaled.recordHeld {s : JournaledRunner} (h : s.Journaled) (head : Option HeadInfo) (timestamp : Int)
    (reachesRun : Bool) : (s.recordHeld head timestamp reachesRun).Journaled := by
  rw [JournaledRunner.recordHeld]
  split
  · split
    · exact h
    · exact h.record _ head timestamp reachesRun
  · exact h

theorem Journaled.step {s s' : JournaledRunner} {event : JournalEvent} (h : s.Journaled)
    (hStep : s.step event = some s') : s'.Journaled := by
  cases event with
  | begin head timestamp =>
    obtain ⟨operations, -, rfl⟩ := Option.map_eq_some_iff.mp hStep
    have hRecorded := h.recordHeld head timestamp true
    exact ⟨hRecorded.journal, hRecorded.ids⟩
  | beginThrows point =>
    cases point with
    | none =>
      obtain ⟨operations, -, rfl⟩ := Option.map_eq_some_iff.mp hStep
      exact ⟨h.journal, h.ids⟩
    | some point =>
      obtain ⟨operations, -, rfl⟩ := Option.map_eq_some_iff.mp hStep
      have hRecorded := h.recordHeld point.1 point.2 false
      exact ⟨hRecorded.journal, hRecorded.ids⟩
  | other event =>
    rw [JournaledRunner.step] at hStep
    split at hStep
    · cases hStep
    · obtain ⟨operations, -, rfl⟩ := Option.map_eq_some_iff.mp hStep
      exact ⟨h.journal, h.ids⟩

theorem journaled_run {first : Nat} {events : List JournalEvent} {s : JournaledRunner}
    (hRun : Run step (fun _ _ => True) { operations := { nextId := first } } events s) : s.Journaled :=
  hRun.invariant ⟨(List.rtake_nil _).symm, rfl⟩ fun _ _ _ h _ hStep => h.step hStep

/-- From the entry after the bound on, the last two have one id. -/
theorem Journaled.nodup_iff {s : JournaledRunner} (h : s.Journaled) :
    (s.undoJournal.map UndoEntry.id).Nodup ↔ s.recorded.length ≤ UndoEntry.kMaxUndoEntries + 1 := by
  have hIds : s.undoJournal.map UndoEntry.id =
      ((List.range s.recorded.length).map fun i => min UndoEntry.kMaxUndoEntries i + 1).rtake
        UndoEntry.kMaxUndoEntries := by
    rw [h.journal, ← h.ids, map_rtake, map_rtake, List.map_map]
    rfl
  rw [hIds]
  constructor
  · intro hNodup
    by_contra hMany
    obtain ⟨k, hLength⟩ : ∃ k, s.recorded.length = UndoEntry.kMaxUndoEntries + k + 1 + 1 :=
      ⟨s.recorded.length - UndoEntry.kMaxUndoEntries - 2, by omega⟩
    have hTwice : [UndoEntry.kMaxUndoEntries + 1, UndoEntry.kMaxUndoEntries + 1] <:+
        (List.range s.recorded.length).map fun i => min UndoEntry.kMaxUndoEntries i + 1 := by
      rw [hLength, List.range_succ, List.range_succ, List.append_assoc, List.map_append]
      refine ⟨(List.range (UndoEntry.kMaxUndoEntries + k)).map fun i => min UndoEntry.kMaxUndoEntries i + 1, ?_⟩
      congr 1
      simp only [List.singleton_append, List.map_cons, List.map_nil]
      rw [Nat.min_eq_left (by omega), Nat.min_eq_left (by omega)]
    have hSuffix := List.suffix_of_suffix_length_le hTwice (rtake_suffix UndoEntry.kMaxUndoEntries _)
      (by rw [length_rtake, List.length_map, List.length_range, hLength]; simp [UndoEntry.kMaxUndoEntries])
    exact absurd (hNodup.sublist hSuffix.sublist) (by decide)
  · intro hFew
    refine List.Nodup.sublist (rtake_suffix _ _).sublist ?_
    refine (List.nodup_map_iff_inj_on List.nodup_range).mpr fun i hI j hJ hSame => ?_
    rw [List.mem_range] at hI hJ
    omega

/-- The first two entries are told apart by their ids. -/
theorem Journaled.first_ne_second {s : JournaledRunner} (h : s.Journaled) {first second : UndoEntry × Bool}
    {rest : List (UndoEntry × Bool)} (hRecorded : s.recorded = first :: second :: rest) : second.1 ≠ first.1 := by
  have hIds := h.ids
  rw [hRecorded, List.length_cons, List.length_cons, List.range_succ_eq_map, List.range_succ_eq_map] at hIds
  simp only [List.map_cons, List.cons.injEq] at hIds
  obtain ⟨hFirst, hSecond, -⟩ := hIds
  intro hSame
  rw [hSame, hFirst] at hSecond
  exact absurd hSecond (by decide)

/-- Up to the entry that pushes out the first, the journal holds what it should as long as none of
its operations was given up before `run`. -/
theorem Journaled.contents_iff {s : JournaledRunner} (h : s.Journaled)
    (hFew : s.recorded.length ≤ UndoEntry.kMaxUndoEntries + 1) :
    s.undoJournal = s.reached.rtake UndoEntry.kMaxUndoEntries ↔
      ∀ r ∈ s.recorded.rtake UndoEntry.kMaxUndoEntries, r.2 = true := by
  rw [h.journal, reached, map_rtake, map_rtake]
  constructor
  · intro hSame
    by_contra hSome
    push Not at hSome
    obtain ⟨lost, hLost, hNot⟩ := hSome
    have hFewer : (s.recorded.filter Prod.snd).length < s.recorded.length :=
      List.length_filter_lt_length_iff_exists.mpr ⟨lost, (rtake_suffix _ _).mem hLost, hNot⟩
    have hLengths := congrArg List.length hSame
    rw [List.length_map, List.length_map, length_rtake, length_rtake] at hLengths
    have hFull : s.recorded.length = UndoEntry.kMaxUndoEntries + 1 := by omega
    have hKept : (s.recorded.filter Prod.snd).length = UndoEntry.kMaxUndoEntries := by omega
    obtain ⟨first, second, rest, hRecorded⟩ : ∃ first second rest, s.recorded = first :: second :: rest := by
      cases hCases : s.recorded with
      | nil =>
        rw [hCases] at hFull
        cases hFull
      | cons first tail =>
        cases tail with
        | nil =>
          rw [hCases] at hFull
          cases hFull
        | cons second rest => exact ⟨first, second, rest, rfl⟩
    have hTail : s.recorded.rtake UndoEntry.kMaxUndoEntries = second :: rest := by
      rw [List.rtake, hFull, Nat.add_sub_cancel_left, hRecorded]
      rfl
    rw [rtake_eq_self hKept.le, hTail, hRecorded] at hSame
    rw [hTail] at hLost
    rw [hRecorded] at hKept hFull
    cases hFirst : first.2 with
    | false =>
      rw [List.filter_cons_of_neg (by rw [hFirst]; exact Bool.false_ne_true)] at hKept
      have hShort : ((second :: rest).filter Prod.snd).length < (second :: rest).length :=
        List.length_filter_lt_length_iff_exists.mpr ⟨lost, hLost, hNot⟩
      rw [List.length_cons] at hFull
      omega
    | true =>
      rw [List.filter_cons_of_pos hFirst] at hSame
      exact h.first_ne_second hRecorded (List.head_eq_of_cons_eq hSame)
  · intro hAll
    rw [rtake_filter hAll]

/-- The journal is right in exactly the runs in which no more was recorded than one entry past its
bound, and what it holds reached `run`. -/
theorem journal_right_iff {first : Nat} {events : List JournalEvent} {s : JournaledRunner}
    (hRun : Run step (fun _ _ => True) { operations := { nextId := first } } events s) :
    (s.undoJournal = s.reached.rtake UndoEntry.kMaxUndoEntries ∧ (s.undoJournal.map UndoEntry.id).Nodup) ↔
      s.recorded.length ≤ UndoEntry.kMaxUndoEntries + 1 ∧
        ∀ r ∈ s.recorded.rtake UndoEntry.kMaxUndoEntries, r.2 = true := by
  have h := journaled_run hRun
  rw [h.nodup_iff, and_comm]
  exact and_congr_right h.contents_iff

/-- A commit that is submitted to an idle queue and runs. -/
def commitRun : List JournalEvent :=
  [.other (.submit { describe := ascii "Commit" }), .other (.worker .pop), .other (.worker .mark),
    .other (.worker .check), .other (.worker (.preflight {})), .begin (some {}) 0,
    .other (.worker (.finishRun (some { succeeded := true }))), .other (.worker (.deliver false)),
    .other (.worker .release)]

theorem journal_right_iff_commitRun : ∃ s, commitRun.foldlM step {} = some s ∧ s.recorded.length = 1 ∧
    ((s.undoJournal = s.reached.rtake UndoEntry.kMaxUndoEntries ∧ (s.undoJournal.map UndoEntry.id).Nodup) ↔
      s.recorded.length ≤ UndoEntry.kMaxUndoEntries + 1 ∧
        ∀ r ∈ s.recorded.rtake UndoEntry.kMaxUndoEntries, r.2 = true) := by
  have h (s : JournaledRunner) (hs : commitRun.foldlM step {} = some s) :
      Run step (fun _ _ => True) { operations := { nextId := 1 } } commitRun s := .of_foldlM hs
  exact ⟨_, rfl, rfl, journal_right_iff (h _ rfl)⟩

/-- Nothing is queued or held, and nothing has been cancelled. -/
structure Quiet (s : JournaledRunner) : Prop where
  worker : s.operations.worker = .idle
  queue : s.operations.queue = []
  running : s.operations.stopping = false
  opened : s.operations.preparingForShutdown = false
  tripped : s.operations.tripped = []

theorem Quiet.commitRun {s : JournaledRunner} (h : s.Quiet) :
    ∃ s', commitRun.foldlM step s = some s' ∧ s'.Quiet ∧ s'.recorded.length = s.recorded.length + 1 := by
  obtain ⟨⟨queue, worker, runningId, runningKillable, runningDescription, stopping, preparing, nextId, tripped, log⟩,
    undoJournal, recorded⟩ := s
  obtain ⟨rfl, rfl, rfl, rfl, rfl⟩ := h
  refine ⟨_, rfl, ⟨rfl, rfl, rfl, rfl, rfl⟩, ?_⟩
  exact List.length_append

theorem commits_recorded (n : Nat) : ∃ s, (List.replicate n commitRun).flatten.foldlM step {} = some s ∧ s.Quiet ∧
    s.recorded.length = n := by
  induction n with
  | zero => exact ⟨{}, rfl, ⟨rfl, rfl, rfl, rfl, rfl⟩, rfl⟩
  | succ n ih =>
    obtain ⟨m, hRun, hQuiet, hCount⟩ := ih
    obtain ⟨s, hMore, hStill, hLast⟩ := hQuiet.commitRun
    refine ⟨s, ?_, hStill, by omega⟩
    rw [List.replicate_succ', List.flatten_append, List.foldlM_append, hRun]
    simpa using hMore

/-- The last two of 202 commits have one id. -/
theorem ids_repeat_after_cap : ¬ ∀ (events : List JournalEvent) (s : JournaledRunner),
    Run step (fun _ _ => True) {} events s →
      s.undoJournal = s.reached.rtake UndoEntry.kMaxUndoEntries ∧ (s.undoJournal.map UndoEntry.id).Nodup := by
  intro h
  obtain ⟨s, hRun, -, hCount⟩ := commits_recorded 202
  have hAll : Run step (fun _ _ => True) {} (List.replicate 202 commitRun).flatten s := .of_foldlM hRun
  have hJournaled : s.Journaled := @journaled_run 1 _ s hAll
  have hFew := hJournaled.nodup_iff.mp (h _ s hAll).2
  rw [hCount] at hFew
  exact absurd hFew (by decide)

end JournaledRunner

end GitBranchManager
