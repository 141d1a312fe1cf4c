import GitBranchManager.Refresh.HistoryRefresh

/-! # What one step of the history refresh does -/

namespace GitBranchManager

namespace HistoryRefresh

def isPosted : WalkStage → Bool
  | .dispatching _ => false
  | _ => true

def isToBegin : WalkStage → Bool
  | .dispatching _ | .queued => true
  | _ => false

theorem isPosted_of_begun {stage : WalkStage} (h : isToBegin stage = false) : isPosted stage = true := by
  cases stage with
  | dispatching => cases h
  | _ => rfl

/-- A walk is posted, begins its load, goes on in silence or with a report, or ends. -/
inductive Proceeds (s : HistoryRefresh) (walk : RefreshWalk) : HistoryRefresh → Prop
  | posted : Proceeds s walk ((s.move walk .queued).write (.dispatched walk.generation walk.coversRequest))
  | began (hPosted : isPosted walk.stage = true) :
      Proceeds s walk ((s.move walk .loading).write (.loadBegan walk.generation walk.coversRequest))
  | moved (stage : WalkStage) (publishedGeneration : Nat) (hBegun : isToBegin walk.stage = false) :
      Proceeds s walk { s.move walk stage with publishedGeneration }
  | failed (hBegun : isToBegin walk.stage = false) :
      Proceeds s walk ((s.move walk .finishing).write .errorOccurred)
  | updated (hBegun : isToBegin walk.stage = false) :
      Proceeds s walk ((s.move walk .walking).write (.refsUpdated walk.generation walk.coversRequest))
  | finished (hBegun : isToBegin walk.stage = false) : Proceeds s walk (s.finishRefresh walk)

inductive Steps (s : HistoryRefresh) : HistoryEvent → HistoryRefresh → Prop
  | tick (elapsed : Nat) : Steps s (.tick elapsed) { s with clock := s.clock + elapsed }
  | refreshHistory : Steps s .refreshHistory s.refreshHistory
  | arm : Steps s .arm (arm { s with arms := s.arms - 1 } kRefreshDelay)
  | armAtOnce : Steps s .armAtOnce (arm { s with zeroArms := s.zeroArms - 1 } 0)
  | expire {deadline : Nat} (hDeadline : s.deadline = some deadline) (hReached : deadline ≤ s.clock) :
      Steps s .expire { s with deadline := none, fired := true }
  | onRefreshTimerFired : Steps s .onRefreshTimerFired s.onRefreshTimerFired
  | setHistoryFilter : Steps s .setHistoryFilter s.setHistoryFilter
  | proceed {walk : RefreshWalk} {ok : Bool} {s' : HistoryRefresh} (hMem : walk ∈ s.walks)
      (hProceeds : Proceeds s walk s') : Steps s (.proceed walk ok) s'

theorem proceeds_fail (s : HistoryRefresh) {walk : RefreshWalk} (hBegun : isToBegin walk.stage = false) :
    Proceeds s walk (s.fail walk) := by
  rw [fail]
  split
  · exact .moved .finishing s.publishedGeneration hBegun
  · exact .failed hBegun

theorem proceeds_claimPublish (s : HistoryRefresh) {walk : RefreshWalk} (hBegun : isToBegin walk.stage = false) :
    Proceeds s walk (s.claimPublish walk) := by
  rw [claimPublish]
  split
  · exact .moved .finishing s.publishedGeneration hBegun
  · exact .moved .publishing walk.generation hBegun

theorem proceeds_proceed (s : HistoryRefresh) (walk : RefreshWalk) (ok : Bool) :
    Proceeds s walk (s.proceed walk ok) := by
  rw [proceed]
  cases hStage : walk.stage with
  | dispatching => exact .posted
  | queued => exact .began (by rw [hStage]; rfl)
  | loading =>
    have hBegun : isToBegin walk.stage = false := by
      rw [hStage]
      rfl
    cases ok with
    | true => exact proceeds_claimPublish s hBegun
    | false => exact proceeds_fail s hBegun
  | publishing => exact .updated (by rw [hStage]; rfl)
  | walking =>
    have hBegun : isToBegin walk.stage = false := by
      rw [hStage]
      rfl
    cases ok with
    | true => exact .moved .finishing s.publishedGeneration hBegun
    | false => exact proceeds_fail s hBegun
  | finishing => exact .finished (by rw [hStage]; rfl)

theorem steps_of_step {s s' : HistoryRefresh} {event : HistoryEvent} (h : s.step event = some s') :
    Steps s event s' := by
  cases event with
  | tick elapsed =>
    obtain rfl := Option.some.inj h
    exact .tick elapsed
  | refreshHistory =>
    obtain rfl := Option.some.inj h
    exact .refreshHistory
  | setHistoryFilter =>
    obtain rfl := Option.some.inj h
    exact .setHistoryFilter
  | arm =>
    obtain ⟨-, hEq⟩ := Option.ite_none_right_eq_some.mp h
    obtain rfl := Option.some.inj hEq
    exact .arm
  | armAtOnce =>
    obtain ⟨-, hEq⟩ := Option.ite_none_right_eq_some.mp h
    obtain rfl := Option.some.inj hEq
    exact .armAtOnce
  | onRefreshTimerFired =>
    obtain ⟨-, hEq⟩ := Option.ite_none_right_eq_some.mp h
    obtain rfl := Option.some.inj hEq
    exact .onRefreshTimerFired
  | proceed walk ok =>
    obtain ⟨hMem, hEq⟩ := Option.ite_none_right_eq_some.mp h
    obtain rfl := Option.some.inj hEq
    exact .proceed hMem (proceeds_proceed s walk ok)
  | expire =>
    rw [step] at h
    split at h
    · rename_i deadline hDeadline
      obtain ⟨hOver, hEq⟩ := Option.ite_none_right_eq_some.mp h
      obtain rfl := Option.some.inj hEq
      exact .expire hDeadline (of_decide_eq_true (Bool.and_eq_true _ _ ▸ hOver).2)
    · cases h

end HistoryRefresh

end GitBranchManager

/-! ## What the number of a refresh says

A walk covers the requests made before it was posted, and no later one.
-/

namespace GitBranchManager

namespace HistoryRefresh

/-- The walk was posted, and requests made since are not covered by it. -/
def DispatchedSince (log : List HistoryRecord) (generation covers : Nat) : Prop :=
  ∃ since before, log = since ++ .dispatched generation covers :: before ∧
    ∀ n, .requested n ∈ since → covers < n

structure Numbered (s : HistoryRefresh) : Prop where
  covers : ∀ walk ∈ s.walks, walk.coversRequest ≤ s.refreshRequestSeq
  dispatched : ∀ walk ∈ s.walks, isPosted walk.stage = true →
    DispatchedSince s.log walk.generation walk.coversRequest
  updated : ∀ generation covers later earlier, s.log = later ++ .refsUpdated generation covers :: earlier →
    covers ≤ s.refreshRequestSeq ∧ ∃ since before, earlier = since ++ .dispatched generation covers :: before ∧
      ∀ n, .requested n ∈ later ++ since → covers < n

variable {s : HistoryRefresh}

section Numbered

theorem DispatchedSince.cons {log : List HistoryRecord} {generation covers : Nat}
    (h : DispatchedSince log generation covers) {record : HistoryRecord}
    (hLate : ∀ n, record = .requested n → covers < n) : DispatchedSince (record :: log) generation covers := by
  obtain ⟨since, before, rfl, hSince⟩ := h
  refine ⟨record :: since, before, rfl, fun n hMem => ?_⟩
  rcases List.mem_cons.mp hMem with hIs | hMem
  · exact hLate n hIs.symm
  · exact hSince n hMem

/-- A record that is neither a request nor an update of the refs. -/
theorem Numbered.write (h : Numbered s) {record : HistoryRecord} (hRequest : ∀ n, record ≠ .requested n)
    (hUpdate : ∀ generation covers, record = .refsUpdated generation covers →
      covers ≤ s.refreshRequestSeq ∧ DispatchedSince s.log generation covers) : Numbered (s.write record) := by
  refine ⟨h.covers, fun walk hWalk hPosted => (h.dispatched walk hWalk hPosted).cons fun n hIs =>
    absurd hIs (hRequest n), fun generation covers later earlier hLog => ?_⟩
  cases later with
  | nil =>
    obtain ⟨hIs, rfl⟩ := List.cons.inj hLog
    obtain ⟨hCovers, since, before, hSince, hLate⟩ := hUpdate generation covers hIs
    exact ⟨hCovers, since, before, hSince, hLate⟩
  | cons first later =>
    obtain ⟨rfl, hRest⟩ := List.cons.inj hLog
    obtain ⟨hCovers, since, before, hEarlier, hLate⟩ := h.updated generation covers later earlier hRest
    refine ⟨hCovers, since, before, hEarlier, fun n hMem => ?_⟩
    rcases List.mem_cons.mp hMem with hIs | hMem
    · exact absurd hIs.symm (hRequest n)
    · exact hLate n hMem

theorem Numbered.move (h : Numbered s) {walk : RefreshWalk} (hMem : walk ∈ s.walks) {stage : WalkStage}
    (hPosted : isPosted stage = true → DispatchedSince s.log walk.generation walk.coversRequest) :
    Numbered (s.move walk stage) := by
  refine ⟨fun other hOther => ?_, fun other hOther hStage => ?_, h.updated⟩
  · rcases List.mem_cons.mp hOther with rfl | hOther
    · exact h.covers walk hMem
    · exact h.covers other (List.mem_of_mem_erase hOther)
  · rcases List.mem_cons.mp hOther with rfl | hOther
    · exact hPosted hStage
    · exact h.dispatched other (List.mem_of_mem_erase hOther) hStage

/-- Walks that are gone, and no record. -/
theorem Numbered.subset (h : Numbered s) {s' : HistoryRefresh} (hWalks : s'.walks ⊆ s.walks) (hLog : s'.log = s.log)
    (hSeq : s'.refreshRequestSeq = s.refreshRequestSeq) : Numbered s' :=
  ⟨fun walk hWalk => hSeq ▸ h.covers walk (hWalks hWalk),
    fun walk hWalk hPosted => hLog ▸ h.dispatched walk (hWalks hWalk) hPosted, hLog ▸ hSeq ▸ h.updated⟩

theorem Numbered.start (h : Numbered s) (generation : Nat) (c : RefreshCoalescer) (onTimer : Bool) :
    Numbered (s.start generation c onTimer) := by
  refine ⟨fun walk hWalk => ?_, fun walk hWalk hPosted => ?_, h.updated⟩
  · rcases List.mem_cons.mp hWalk with rfl | hWalk
    · exact Nat.le_refl _
    · exact h.covers walk hWalk
  · rcases List.mem_cons.mp hWalk with rfl | hWalk
    · cases hPosted
    · exact h.dispatched walk hWalk hPosted

theorem Numbered.refreshHistory (h : Numbered s) : Numbered s.refreshHistory := by
  have hWalk : ∀ walk ∈ s.walks, walk.coversRequest < s.refreshRequestSeq + 1 := fun walk hMem =>
    Nat.lt_succ_of_le (h.covers walk hMem)
  refine ⟨fun walk hMem => Nat.le_of_lt (hWalk walk hMem), fun walk hMem hPosted =>
    (h.dispatched walk hMem hPosted).cons fun n hIs => ?_, fun generation covers later earlier hLog => ?_⟩
  · exact HistoryRecord.requested.inj hIs ▸ hWalk walk hMem
  · cases later with
    | nil => cases (List.cons.inj hLog).1
    | cons first later =>
      obtain ⟨rfl, hRest⟩ := List.cons.inj hLog
      obtain ⟨hCovers, since, before, hEarlier, hLate⟩ := h.updated generation covers later earlier hRest
      refine ⟨Nat.le_succ_of_le hCovers, since, before, hEarlier, fun n hMem => ?_⟩
      rcases List.mem_cons.mp hMem with hIs | hMem
      · exact HistoryRecord.requested.inj hIs ▸ Nat.lt_succ_of_le hCovers
      · exact hLate n hMem

theorem Numbered.proceeds (h : Numbered s) {walk : RefreshWalk} (hMem : walk ∈ s.walks) {s' : HistoryRefresh}
    (hProceeds : Proceeds s walk s') : Numbered s' := by
  have hMove (stage : WalkStage) (hPosted : isPosted walk.stage = true) : Numbered (s.move walk stage) :=
    h.move hMem fun _ => h.dispatched walk hMem hPosted
  cases hProceeds with
  | posted =>
    have hWritten : Numbered (s.write (.dispatched walk.generation walk.coversRequest)) :=
      h.write (fun _ hIs => by cases hIs) fun _ _ hIs => by cases hIs
    exact hWritten.move hMem fun _ => ⟨[], s.log, rfl, fun _ hNone => absurd hNone List.not_mem_nil⟩
  | began hPosted => exact (hMove .loading hPosted).write (fun _ hIs => by cases hIs) fun _ _ hIs => by cases hIs
  | moved stage _ hBegun => exact (hMove stage (isPosted_of_begun hBegun)).subset (List.Subset.refl _) rfl rfl
  | failed hBegun =>
    exact (hMove .finishing (isPosted_of_begun hBegun)).write (fun _ hIs => by cases hIs) fun _ _ hIs => by cases hIs
  | updated hBegun =>
    have hPosted := isPosted_of_begun hBegun
    refine (hMove .walking hPosted).write (fun _ hIs => by cases hIs) fun generation covers hIs => ?_
    obtain ⟨rfl, rfl⟩ := HistoryRecord.refsUpdated.inj hIs
    exact ⟨h.covers walk hMem, h.dispatched walk hMem hPosted⟩
  | finished => exact h.subset List.erase_subset rfl rfl

theorem Numbered.step (h : Numbered s) {event : HistoryEvent} {s' : HistoryRefresh} (hSteps : Steps s event s') :
    Numbered s' := by
  have hSame {m : HistoryRefresh} (hWalks : m.walks = s.walks) (hLog : m.log = s.log)
      (hSeq : m.refreshRequestSeq = s.refreshRequestSeq) : Numbered m :=
    h.subset (hWalks ▸ List.Subset.refl _) hLog hSeq
  cases hSteps with
  | tick | arm | armAtOnce | expire => exact hSame rfl rfl rfl
  | refreshHistory => exact h.refreshHistory
  | onRefreshTimerFired =>
    rw [HistoryRefresh.onRefreshTimerFired]
    split
    · exact hSame rfl rfl rfl
    · exact (hSame (m := { s with fired := false }) rfl rfl rfl).start _ _ _
  | setHistoryFilter =>
    exact (hSame (m := { s with historyCancel := s.historyCancel + 1 }) rfl rfl rfl).start _ _ _
  | proceed hMem hProceeds => exact h.proceeds hMem hProceeds

theorem numbered_new (first : Nat) : Numbered { clock := first } := by
  refine ⟨fun _ hNone => absurd hNone List.not_mem_nil, fun _ hNone => absurd hNone List.not_mem_nil,
    fun _ _ later earlier hLog => ?_⟩
  cases later <;> cases hLog

end Numbered

end HistoryRefresh

end GitBranchManager
