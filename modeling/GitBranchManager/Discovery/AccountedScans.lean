import GitBranchManager.Discovery.ScannerSteps

/-! # Nothing is lost between the workers

While nobody cancels and nothing fails, what is done, what waits and what is owed make up the walk of
the base folder. A worker is gone only when there is nothing left.
-/

namespace GitBranchManager

open Library

def ScannerState.Undisturbed (s : ScannerState) : Prop := s.cancelled = false ∧ s.failed = false

namespace Scan

/-- What the worker has in hand for the index. -/
def owed (scan : Scan) : ScanWorker → List IndexEffect
  | .holding item => scan.effectsBelow item
  | .flushing item => (scan.children item).flatMap scan.effectsBelow
  | .committing item batch => batch.map .upsert ++ (scan.children item).flatMap scan.effectsBelow
  | .listing item => (scan.children item).flatMap scan.effectsBelow
  | _ => []

/-- What is done, what waits for a batch, and what waits in the queue. -/
def account (scan : Scan) (s : ScannerState) : List IndexEffect :=
  s.effects ++ s.pending.map .upsert ++ s.queue.flatMap scan.effectsBelow

structure Accounted (scan : Scan) (s : ScannerState) : Prop where
  counted : s.activeWorkers = s.workers.countP ScanWorker.isActive
  complete : s.Undisturbed → ∀ effect,
    (scan.account s).count effect + (s.workers.flatMap scan.owed).count effect = (scan.effectsBelow root).count effect
  staying : s.Undisturbed → .leaving ∉ s.workers
  ended : s.Undisturbed → .exited ∈ s.workers → s.queue = [] ∧ s.activeWorkers = 0

variable {scan : Scan} {s s' m : ScannerState} {worker next : ScanWorker} {action : ScanAction} {event : ScanEvent}

theorem effectsBelow_of_passed {item : WorkItem} (hAdmits : scan.admits item = false) :
    scan.effectsBelow item = [] := by
  simp [effectsBelow_eq, ownEffects, expand, hAdmits]

theorem effectsBelow_of_unchanged {item : WorkItem} (hAdmits : scan.admits item = true)
    (hSame : scan.unchanged item = true) : scan.effectsBelow item = [.touch (scan.pathOf item)] := by
  simp [effectsBelow_eq, ownEffects, expand, hAdmits, hSame]

theorem effectsBelow_of_entered {item : WorkItem} (hAdmits : scan.admits item = true)
    (hSame : scan.unchanged item = false) :
    scan.effectsBelow item = (scan.fs item.path).repo.toList.map (fun repo => .upsert (scan.recordOf repo)) ++
      (scan.children item).flatMap scan.effectsBelow := by
  simp [effectsBelow_eq scan item, ownEffects, expand, hAdmits, hSame]

end Scan

namespace ScanMove

variable {scan : Scan} {s m : ScannerState} {worker next : ScanWorker} {action : ScanAction}

theorem undisturbed (h : ScanMove scan s worker action m next) (hClean : m.Undisturbed) : s.Undisturbed := by
  cases h with
  | touchFails => cases hClean.2
  | commitFails => cases hClean.2
  | throws => cases hClean.2
  | _ => exact hClean

/-- A worker turns back only from a scan that is cancelled or has failed. -/
theorem next_ne_leaving (h : ScanMove scan s worker action m next) (hClean : m.Undisturbed) : next ≠ .leaving := by
  rintro rfl
  cases h with
  | turnBack item ok hCancelled => exact absurd (hClean.1.symm.trans hCancelled) Bool.false_ne_true
  | touchFails => cases hClean.2
  | commitFails => cases hClean.2
  | find item ok repo next _ _ _ hNext =>
    cases hNext with
    | inl hFlush => cases hFlush
    | inr hList => cases hList

/-- What one worker does is taken from what it owes, or put there. -/
theorem account_eq (h : ScanMove scan s worker action m next) (hClean : m.Undisturbed) (effect : IndexEffect) :
    (scan.account m).count effect + (scan.owed next).count effect =
      (scan.account s).count effect + (scan.owed worker).count effect := by
  cases h with
  | pop item queue hQueue =>
    simp only [Scan.account, Scan.owed, hQueue, List.flatMap_cons, List.count_append, List.count_nil]
    omega
  | sleep => rfl
  | exit => rfl
  | turnBack item ok hCancelled => exact absurd (hClean.1.symm.trans hCancelled) Bool.false_ne_true
  | passOver item ok hAdmits => simp only [Scan.owed, Scan.effectsBelow_of_passed hAdmits]
  | touch item hAdmits hSame =>
    simp only [Scan.account, Scan.owed, Scan.applyEffects, Scan.effectsBelow_of_unchanged hAdmits hSame,
      List.count_append, List.count_nil]
    omega
  | touchFails => cases hClean.2
  | enter item ok hAdmits hSame hRepo =>
    simp [Scan.owed, Scan.effectsBelow_of_entered hAdmits hSame, hRepo]
  | find item ok repo next hAdmits hSame hRepo hNext =>
    have hOwed : scan.owed next = (scan.children item).flatMap scan.effectsBelow := by
      cases hNext with
      | inl hFlush => rw [hFlush, Scan.owed]
      | inr hList => rw [hList, Scan.owed]
    rw [hOwed]
    simp only [Scan.account, Scan.owed, Scan.effectsBelow_of_entered hAdmits hSame, hRepo, Option.toList_some,
      List.map_append, List.map_cons, List.map_nil, List.count_append]
    omega
  | swapNone => rfl
  | swap item =>
    simp only [Scan.account, Scan.owed, List.map_nil, List.count_append, List.count_nil]
    omega
  | commit item batch =>
    simp only [Scan.account, Scan.owed, Scan.applyEffects, List.count_append]
    omega
  | commitFails => cases hClean.2
  | list item =>
    simp only [Scan.account, Scan.owed, List.flatMap_append, List.count_append, List.count_nil]
    omega
  | release => rfl
  | leave => rfl
  | throws => cases hClean.2

/-- `activeWorkers` goes with the worker. -/
theorem activeWorkers_eq (h : ScanMove scan s worker action m next)
    (hOne : worker.isActive = true → 0 < s.activeWorkers) :
    m.activeWorkers + worker.isActive.toNat = s.activeWorkers + next.isActive.toNat := by
  cases h with
  | find item ok repo next _ _ _ hNext =>
    cases hNext with
    | inl hFlush => rw [hFlush]; rfl
    | inr hList => rw [hList]; rfl
  | release => exact Nat.sub_add_cancel (hOne rfl)
  | leave => exact Nat.sub_add_cancel (hOne rfl)
  | throws _ hActive =>
    rw [hActive]
    exact Nat.sub_add_cancel (hOne hActive)
  | _ => rfl

/-- A worker that goes leaves nothing behind, unless something has failed. -/
theorem exits_idle (h : ScanMove scan s worker action m .exited) (hClean : m.Undisturbed) (hStays : worker ≠ .leaving) :
    m.queue = [] ∧ m.activeWorkers = 0 := by
  cases h with
  | exit hQueue hIdle => exact ⟨hQueue, hIdle⟩
  | find item ok repo next _ _ _ hNext =>
    cases hNext with
    | inl hFlush => cases hFlush
    | inr hList => cases hList
  | leave => exact absurd rfl hStays
  | throws => cases hClean.2

/-- Where nothing is queued and no worker is active, the others can only go. -/
theorem of_idle (h : ScanMove scan s worker action m next) (hQueue : s.queue = []) (hIdle : s.activeWorkers = 0)
    (hOne : worker.isActive = true → 0 < s.activeWorkers) : m = s ∧ next = .exited := by
  cases h with
  | pop item queue hSome => exact absurd (hQueue.symm.trans hSome) (List.cons_ne_nil item queue).symm
  | sleep _ hBusy => exact absurd hIdle hBusy
  | exit => exact ⟨rfl, rfl⟩
  | throws _ hActive => exact absurd (hOne hActive) (by omega)
  | _ => exact absurd (hOne rfl) (by omega)

end ScanMove

namespace Scan

variable {scan : Scan} {s s' : ScannerState} {event : ScanEvent}

theorem accounted_start {workers : Nat} {rows : List RepoRecord} : scan.Accounted (start workers rows) where
  counted := by
    rw [start, List.countP_replicate]
    rfl
  complete := by
    intro _ effect
    have hNone : (List.replicate workers ScanWorker.polling).flatMap scan.owed = [] := by
      refine List.flatMap_eq_nil_iff.mpr fun worker hMem => ?_
      rw [List.eq_of_mem_replicate hMem]
      rfl
    simp [account, start, hNone]
  staying := by
    intro _ hMem
    cases List.eq_of_mem_replicate hMem
  ended := by
    intro _ hMem
    cases List.eq_of_mem_replicate hMem

theorem Accounted.step (h : scan.Accounted s) (hStep : scan.step s event = some s') : scan.Accounted s' := by
  obtain ⟨rfl, rfl⟩ | ⟨i, action, worker, next, m, before, after, rfl, hMove, hWorkers, _, rfl⟩ := step_cases hStep
  · have hNot : ¬ ScannerState.Undisturbed { s with cancelled := true } := fun hClean => nomatch hClean.1
    exact ⟨h.counted, fun hClean => absurd hClean hNot, fun hClean => absurd hClean hNot,
      fun hClean => absurd hClean hNot⟩
  have hCounted := h.counted
  rw [hWorkers, List.countP_append, List.countP_cons] at hCounted
  have hOne : worker.isActive = true → 0 < s.activeWorkers := by
    intro hActive
    rw [hCounted, if_pos hActive]
    omega
  constructor
  · have hActive := hMove.activeWorkers_eq hOne
    simp only [List.countP_append, List.countP_cons]
    cases hWas : worker.isActive <;> cases hIs : next.isActive <;> simp_all <;> omega
  · intro hClean effect
    have hBefore := h.complete (hMove.undisturbed hClean) effect
    have hSame := hMove.account_eq hClean effect
    rw [hWorkers] at hBefore
    simp only [List.flatMap_append, List.flatMap_cons, List.count_append] at hBefore ⊢
    change (scan.account m).count effect + _ = _
    omega
  · intro hClean hMem
    have hStays := h.staying (hMove.undisturbed hClean)
    rw [hWorkers] at hStays
    have hNext := hMove.next_ne_leaving hClean
    simp only [List.mem_append, List.mem_cons, not_or] at hStays hMem
    obtain hBefore | hIs | hAfter := hMem
    · exact hStays.1 hBefore
    · exact hNext hIs.symm
    · exact hStays.2.2 hAfter
  · intro hClean hMem
    have hStays := h.staying (hMove.undisturbed hClean)
    have hEnded := h.ended (hMove.undisturbed hClean)
    rw [hWorkers] at hStays hEnded
    simp only [List.mem_append, List.mem_cons, not_or] at hStays hEnded hMem
    obtain hBefore | rfl | hAfter := hMem
    · obtain ⟨hQueue, hIdle⟩ := hEnded (.inl hBefore)
      obtain ⟨rfl, _⟩ := hMove.of_idle hQueue hIdle hOne
      exact ⟨hQueue, hIdle⟩
    · exact hMove.exits_idle hClean (Ne.symm hStays.2.1)
    · obtain ⟨hQueue, hIdle⟩ := hEnded (.inr (.inr hAfter))
      obtain ⟨rfl, _⟩ := hMove.of_idle hQueue hIdle hOne
      exact ⟨hQueue, hIdle⟩

end Scan

end GitBranchManager
