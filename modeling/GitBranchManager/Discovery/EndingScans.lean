import GitBranchManager.Discovery.AccountedScans
import GitBranchManager.Library.Runs
import Mathlib.Algebra.BigOperators.Ring.List
import Mathlib.Algebra.Ring.Nat

/-! # Every scan ends

Each move but sleeping takes something from what is left to do. A worker sleeps only while another
is active, so workers that are all given their turns all leave.
-/

namespace GitBranchManager

open Library

namespace Scan

variable (scan : Scan)

/-- The moves that an item takes, with all that lies below it. -/
def weight (item : WorkItem) : Nat := 6 * (scan.walk item).length

def childWeight (items : List WorkItem) : Nat := (items.map scan.weight).sum

/-- The moves that a worker has left for what it has in hand, and to leave. -/
def burden : ScanWorker → Nat
  | .polling => 1
  | .holding item => 6 + scan.childWeight (scan.expand item)
  | .flushing item => 5 + scan.childWeight (scan.children item)
  | .committing item _ => 4 + scan.childWeight (scan.children item)
  | .listing item => 3 + scan.childWeight (scan.children item)
  | .releasing => 2
  | .leaving => 1
  | .exited => 0

def movesLeft (s : ScannerState) : Nat := scan.childWeight s.queue + (s.workers.map scan.burden).sum

theorem weight_eq (item : WorkItem) : scan.weight item = 6 + scan.childWeight (scan.expand item) := by
  have hWeight : scan.weight = fun item => 6 * (scan.walk item).length := rfl
  rw [childWeight, hWeight]
  simp only [walk]
  rw [unfold_eq scan.ranked, List.length_cons, List.length_flatMap, List.sum_map_mul_left]
  omega

end Scan

/-- A worker that is not asleep comes nearer to its end. -/
theorem ScanMove.lowers {scan : Scan} {s m : ScannerState} {worker next : ScanWorker} {action : ScanAction}
    (h : ScanMove scan s worker action m next) :
    action = .sleep ∧ worker = .polling ∧ s.activeWorkers ≠ 0 ∧ m = s ∧ next = worker ∨
      scan.childWeight m.queue + scan.burden next < scan.childWeight s.queue + scan.burden worker := by
  cases h with
  | sleep _ hBusy => exact .inl ⟨rfl, rfl, hBusy, rfl, rfl⟩
  | pop item queue hQueue =>
    refine .inr ?_
    have hWeight := scan.weight_eq item
    simp only [hQueue, Scan.burden, Scan.childWeight, List.map_cons, List.sum_cons] at hWeight ⊢
    omega
  | enter item ok hAdmits hSame =>
    refine .inr ?_
    simp only [Scan.burden, Scan.expand, hAdmits, hSame]
    simp
  | find item ok repo next hAdmits hSame _ hNext =>
    refine .inr ?_
    have hLess : scan.burden next < 6 + scan.childWeight (scan.children item) := by
      cases hNext with
      | inl hFlush => rw [hFlush, Scan.burden]; omega
      | inr hList => rw [hList, Scan.burden]; omega
    simpa only [Scan.burden, Scan.expand, hAdmits, hSame, Bool.not_false, Bool.and_self, if_true] using
      Nat.add_lt_add_left hLess _
  | list item =>
    refine .inr ?_
    simp only [Scan.burden, Scan.childWeight, List.map_append, List.sum_append]
    omega
  | throws worker hActive =>
    refine .inr ?_
    have hPositive : 0 < scan.burden worker := by
      cases worker with
      | exited => cases hActive
      | _ => simp only [Scan.burden]; omega
    exact Nat.add_lt_add_left hPositive _
  | _ =>
    refine .inr ?_
    simp only [Scan.burden, Scan.applyEffects]
    omega

namespace Scan

variable {scan : Scan} {s s' : ScannerState} {event : ScanEvent} {n : Nat} {rows : List RepoRecord}

theorem step_lowers (h : scan.step s event = some s') :
    (event = .cancel ∧ s' = { s with cancelled := true }) ∨
    (∃ i, event = .worker i .sleep ∧ s.workers[i]? = some .polling ∧ s.activeWorkers ≠ 0 ∧ s' = s) ∨
    scan.movesLeft s' < scan.movesLeft s := by
  obtain hCancel | ⟨i, action, worker, next, m, before, after, rfl, hMove, hWorkers, hAt, rfl⟩ := step_cases h
  · exact .inl hCancel
  refine .inr ?_
  obtain ⟨rfl, rfl, hBusy, rfl, rfl⟩ | hLess := hMove.lowers
  · refine .inl ⟨i, rfl, ?_, hBusy, by rw [← hWorkers]⟩
    rw [hWorkers, List.getElem?_append_right (Nat.le_of_eq hAt), hAt, Nat.sub_self]
    rfl
  · refine .inr ?_
    rw [movesLeft, movesLeft, hWorkers]
    simp only [List.map_append, List.map_cons, List.sum_append, List.sum_cons]
    omega

/-- A worker that has not left has its turn again. -/
def Fair (scan : Scan) (schedule : Schedule scan.step s) : Prop :=
  ∀ t i worker, (schedule.state t).workers[i]? = some worker → worker ≠ .exited →
    ∃ u, t ≤ u ∧ ∃ action, schedule.event u = some (.worker i action)

/-- From some time on nobody does anything but sleep, and so everybody has left. -/
theorem all_exit (schedule : Schedule scan.step (start n rows)) (hFair : scan.Fair schedule) :
    ∃ t, ∀ u, t ≤ u → ∀ worker ∈ (schedule.state u).workers, worker = .exited := by
  have hCounted (t : Nat) : (schedule.state t).activeWorkers =
      (schedule.state t).workers.countP ScanWorker.isActive := by
    obtain ⟨events, hRun⟩ := schedule.exists_run t
    exact (hRun.invariant accounted_start fun _ _ _ hIs _ hStep => hIs.step hStep).counted
  have hLowers (t : Nat) (event : ScanEvent) (hEvent : schedule.event t = some event) :=
    step_lowers (schedule.moves t event hEvent)
  obtain ⟨t, hSettled⟩ := schedule.settles scan.movesLeft fun t event hEvent => by
    obtain ⟨_, hSame⟩ | ⟨_, _, _, _, hSame⟩ | hLess := hLowers t event hEvent
    · rw [hSame]; exact Nat.le_refl _
    · rw [hSame]
    · exact Nat.le_of_lt hLess
  have hSleeps (u i : Nat) (action : ScanAction) (hLater : t ≤ u)
      (hEvent : schedule.event u = some (.worker i action)) :
      (schedule.state u).workers[i]? = some .polling ∧ (schedule.state u).activeWorkers ≠ 0 := by
    obtain ⟨hCancel, _⟩ | ⟨j, hSleep, hPolling, hBusy, _⟩ | hLess := hLowers u _ hEvent
    · cases hCancel
    · cases hSleep
      exact ⟨hPolling, hBusy⟩
    · exact absurd (hSettled u hLater) (Nat.ne_of_lt hLess)
  have hSame (u : Nat) (hLater : t ≤ u) : (schedule.state u).workers = (schedule.state t).workers := by
    refine schedule.keeps (P := fun m => m.workers = (schedule.state t).workers) ?_ rfl u hLater
    intro v event hAfter hEvent hWorkers
    obtain ⟨_, hNext⟩ | ⟨_, _, _, _, hNext⟩ | hLess := hLowers v event hEvent
    · rw [hNext]; exact hWorkers
    · rw [hNext]; exact hWorkers
    · exact absurd (hSettled v hAfter) (Nat.ne_of_lt hLess)
  refine ⟨t, fun u hLater worker hMem => ?_⟩
  by_contra hStays
  obtain ⟨i, hAt⟩ := List.mem_iff_getElem?.mp hMem
  obtain ⟨v, hV, action, hEvent⟩ := hFair u i worker hAt hStays
  obtain ⟨_, hBusy⟩ := hSleeps v i action (hLater.trans hV) hEvent
  rw [hCounted v, Nat.ne_zero_iff_zero_lt, List.countP_pos_iff] at hBusy
  obtain ⟨other, hOther, hActive⟩ := hBusy
  obtain ⟨j, hJ⟩ := List.mem_iff_getElem?.mp hOther
  obtain ⟨w, hW, move, hMove⟩ := hFair v j other hJ (by rintro rfl; cases hActive)
  obtain ⟨hPolling, _⟩ := hSleeps w j move ((hLater.trans hV).trans hW) hMove
  rw [hSame w ((hLater.trans hV).trans hW), ← hSame v (hLater.trans hV), hJ] at hPolling
  cases hPolling
  cases hActive

end Scan

end GitBranchManager
