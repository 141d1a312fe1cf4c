import GitBranchManager.Draft.DraftSteps

/-! # The marker of a commit that was sent -/

namespace GitBranchManager

open Library

namespace DraftController

/-- The submit is the draft's pending commit, and if the marker of its head counts as stored, it
is. -/
structure Trusts (c : DraftController) (submit : SubmittedCommit) : Prop where
  head : c.draft.pendingCommitHead = some submit.head
  headKnown : c.draft.pendingCommitHeadKnown = submit.headKnown
  mounted : c.mounted = true
  trusted : c.markerOnDisk = true → c.markerHead = some submit.head →
    c.bound .pendingCommit = some (WorkingCopyDraft.marker submit.head submit.headKnown)

/-- When no round follows, the marker that is being written is the submit's. -/
structure Awaits (c : DraftController) (submit : SubmittedCommit) : Prop extends Trusts c submit where
  written : c.dirty = false → ∀ value, c.inFlight = some ⟨.pendingCommit, value⟩ →
    value = some (WorkingCopyDraft.marker submit.head submit.headKnown)

structure MarkerInv (c : DraftController) : Prop where
  waiting : ∀ submit ∈ c.waiting, Awaits c submit
  completed : ∀ entry ∈ c.completed, entry.2 = some (WorkingCopyDraft.marker entry.1.head entry.1.headKnown)

variable {c : DraftController} {submit : SubmittedCommit}

theorem Trusts.startRound (h : Trusts c submit) (hQuiet : c.bound .pendingCommit = c.prefs.pendingCommit) :
    Awaits c.startRound submit := by
  obtain ⟨onDisk, write, hEq, hWrite⟩ := startRound_eq c
  have hKey : write.key ≠ .pendingCommit := by
    rcases hWrite with ⟨rfl, -⟩ | ⟨rfl, -⟩
    · simp
    · simp
  rw [hEq]
  refine ⟨⟨h.head, h.headKnown, h.mounted, fun hOnDisk hHead => ?_⟩, fun _ value hFlight => ?_⟩
  · rw [← h.trusted hOnDisk hHead, hQuiet, bound]
    simp [hKey.symm, DraftPrefs.get]
  · rw [Option.some.inj hFlight] at hKey
    exact absurd rfl hKey

theorem Trusts.persist (h : Trusts c submit) : Awaits c.persist submit := by
  rcases persist_cases c with ⟨-, hEq⟩ | ⟨hIdle, hEq⟩
  · rw [hEq]
    exact ⟨⟨h.head, h.headKnown, h.mounted, h.trusted⟩, fun hClean => absurd hClean (by simp)⟩
  · rw [hEq]
    exact h.startRound (bound_of_idle hIdle _)

theorem waiting_persist (c : DraftController) : c.persist.waiting = c.waiting := by
  rcases persist_cases c with ⟨-, hEq⟩ | ⟨-, hEq⟩
  · rw [hEq]
  · obtain ⟨onDisk, write, hStart, -⟩ := startRound_eq c
    rw [hEq, hStart]

theorem completed_persist (c : DraftController) : c.persist.completed = c.completed := by
  rcases persist_cases c with ⟨-, hEq⟩ | ⟨-, hEq⟩
  · rw [hEq]
  · obtain ⟨onDisk, write, hStart, -⟩ := startRound_eq c
    rw [hEq, hStart]

theorem MarkerInv.edits {c' : DraftController} (h : MarkerInv c) (hEdits : Edits c c') : MarkerInv c' := by
  induction hEdits with
  | none => exact h
  | quiet _ hSame ih =>
    refine ⟨fun submit hSubmit => ?_, ih.completed⟩
    have hAwaits := ih.waiting submit hSubmit
    exact ⟨⟨hSame.head.trans hAwaits.head, hSame.headKnown.trans hAwaits.headKnown, hAwaits.mounted,
      hAwaits.trusted⟩, hAwaits.written⟩
  | saved _ hHead hKnown ih =>
    refine ⟨fun submit hSubmit => ?_, (completed_persist _).symm ▸ ih.completed⟩
    have hAwaits := ih.waiting submit (by rwa [waiting_persist] at hSubmit)
    exact Trusts.persist ⟨hHead.trans hAwaits.head, hKnown.trans hAwaits.headKnown, hAwaits.mounted, hAwaits.trusted⟩

/-- Where no submit waits the draft may change at will. -/
theorem MarkerInv.settles {c' : DraftController} (h : MarkerInv c) (hSettles : Settles c c')
    (hNone : c.waiting = []) : MarkerInv c' := by
  cases hSettles with
  | none => exact h
  | cleared d =>
    refine ⟨fun submit hSubmit => ?_, (completed_persist _).symm ▸ h.completed⟩
    rw [waiting_persist] at hSubmit
    rw [show (c.setDraft d).waiting = [] from hNone] at hSubmit
    cases hSubmit

theorem MarkerInv.submitted (h : MarkerInv c) (hMounted : c.mounted = true) {seq : Int} {head : Utf16}
    {headKnown : Bool} (hSame : ∀ other ∈ c.waiting, other = ⟨head, headKnown⟩)
    (hTrusted : c.markerOnDisk = true → c.markerHead = some head →
      c.bound .pendingCommit = some (WorkingCopyDraft.marker head headKnown)) :
    MarkerInv (c.commitSubmitted seq head headKnown) := by
  rw [commitSubmitted]
  have hAwaits : ∀ d : WorkingCopyDraft, d.pendingCommitHead = some head → d.pendingCommitHeadKnown = headKnown →
      Awaits (c.setDraft d).persist ⟨head, headKnown⟩ := fun d hHead hKnown =>
    Trusts.persist ⟨hHead, hKnown, hMounted, hTrusted⟩
  refine ⟨fun submit hSubmit => ?_, ?_⟩
  · have hIs : submit = ⟨head, headKnown⟩ := by
      simp only [List.mem_append, List.mem_singleton, waiting_persist] at hSubmit
      exact hSubmit.elim (hSame submit) id
    obtain ⟨hTrusts, hWritten⟩ := hAwaits
      { c.draft with
        pendingCommitSeq := some seq
        pendingCommitHead := some head
        pendingCommitHeadKnown := headKnown
        pendingCommitFromDisk := false } rfl rfl
    rw [hIs]
    exact ⟨⟨hTrusts.head, hTrusts.headKnown, hTrusts.mounted, hTrusts.trusted⟩, hWritten⟩
  · simp only [completed_persist]
    exact h.completed

section Writes

theorem MarkerInv.finish (h : MarkerInv c) (hStored : ∀ submit ∈ c.waiting,
    c.prefs.pendingCommit = some (WorkingCopyDraft.marker submit.head submit.headKnown)) : MarkerInv c.finish := by
  refine ⟨fun submit hNone => absurd hNone List.not_mem_nil, fun entry hEntry => ?_⟩
  rcases List.mem_append.mp hEntry with hOld | hNew
  · exact h.completed entry hOld
  · obtain ⟨submit, hSubmit, rfl⟩ := List.mem_map.mp hNew
    exact hStored submit hSubmit

theorem MarkerInv.endRound (h : MarkerInv c) (hQuiet : c.bound .pendingCommit = c.prefs.pendingCommit)
    (hStored : c.dirty = false → ∀ submit ∈ c.waiting,
      c.prefs.pendingCommit = some (WorkingCopyDraft.marker submit.head submit.headKnown)) :
    MarkerInv c.endRound := by
  rw [DraftController.endRound]
  split
  · obtain ⟨onDisk, write, hEq, -⟩ := startRound_eq c
    refine ⟨fun submit hSubmit => ?_, fun entry hEntry => ?_⟩
    · refine (h.waiting submit ?_).toTrusts.startRound hQuiet
      rwa [hEq] at hSubmit
    · rw [hEq] at hEntry
      exact h.completed entry hEntry
  · rename_i hEnd
    refine h.finish fun submit hSubmit => hStored ?_ submit hSubmit
    rw [(h.waiting submit hSubmit).mounted, Bool.true_and] at hEnd
    exact Bool.eq_false_iff.mpr hEnd

theorem MarkerInv.writeMarker (h : MarkerInv c) (hQuiet : c.bound .pendingCommit = c.prefs.pendingCommit) :
    MarkerInv c.writeMarker := by
  rw [DraftController.writeMarker]
  split
  · rename_i head hHead
    have hIs : ∀ submit ∈ c.waiting, submit.head = head := fun submit hSubmit =>
      Option.some.inj ((h.waiting submit hSubmit).head.symm.trans hHead)
    split
    · refine ⟨fun submit hSubmit => ?_, h.completed⟩
      have hAwaits := h.waiting submit hSubmit
      have hValue : some (WorkingCopyDraft.marker head c.draft.pendingCommitHeadKnown) =
          some (WorkingCopyDraft.marker submit.head submit.headKnown) := by
        rw [hIs submit hSubmit, hAwaits.headKnown]
      refine ⟨⟨hAwaits.head, hAwaits.headKnown, hAwaits.mounted, fun _ _ => hValue⟩, fun _ value hFlight => ?_⟩
      rw [← hValue]
      exact (DraftWrite.mk.inj (Option.some.inj hFlight)).2.symm
    · rename_i hSkip
      simp only [Bool.or_eq_true, Bool.not_eq_true', bne_iff_ne, not_or, Bool.not_eq_false, ne_eq, not_not] at hSkip
      refine h.endRound hQuiet fun _ submit hSubmit => ?_
      rw [← hQuiet]
      exact (h.waiting submit hSubmit).trusted hSkip.1 (hSkip.2.trans (by rw [hIs submit hSubmit]))
  · rename_i hNone
    have hNoWaiting : ∀ submit, submit ∉ c.waiting := fun submit hSubmit => by
      have hHead := (h.waiting submit hSubmit).head
      rw [hNone] at hHead
      cases hHead
    split
    · exact ⟨fun submit hSubmit => absurd hSubmit (hNoWaiting submit), h.completed⟩
    · exact h.endRound hQuiet fun _ submit hSubmit => absurd hSubmit (hNoWaiting submit)

/-- The rest of the drain, once the write that ran is stored. -/
theorem MarkerInv.afterWrite (h : MarkerInv c) {write : DraftWrite} (hFlight : c.inFlight = some write)
    (hQuiet : c.bound .pendingCommit = c.prefs.pendingCommit) : MarkerInv (c.afterWrite write.key) := by
  have hEnds (hEnd : ¬ c.mounted = true) : MarkerInv c.finish :=
    h.finish fun submit hSubmit => absurd (h.waiting submit hSubmit).mounted hEnd
  rcases write with ⟨key, value⟩
  cases key with
  | episode =>
    rw [DraftController.afterWrite]
    split
    · refine ⟨fun submit hSubmit => ?_, h.completed⟩
      have hAwaits := h.waiting submit hSubmit
      refine ⟨⟨hAwaits.head, hAwaits.headKnown, hAwaits.mounted, fun hOnDisk hHead => ?_⟩, fun _ _ hOther => ?_⟩
      · rw [← hAwaits.trusted hOnDisk hHead, hQuiet]
        rfl
      · exact absurd (DraftWrite.mk.inj (Option.some.inj hOther)).1 (by simp)
    · rename_i hEnd
      exact hEnds hEnd
  | draft =>
    rw [DraftController.afterWrite]
    split
    · exact h.writeMarker hQuiet
    · rename_i hEnd
      exact hEnds hEnd
  | pendingCommit =>
    refine h.endRound hQuiet fun hClean submit hSubmit => ?_
    rw [← hQuiet, bound_of_write hFlight]
    exact (h.waiting submit hSubmit).written hClean value hFlight

theorem MarkerInv.writeDone {c' : DraftController} (h : MarkerInv c) {ok : Bool}
    (hDone : c.writeDone ok = some c') : MarkerInv c' := by
  rw [DraftController.writeDone] at hDone
  split at hDone
  · cases hDone
  · rename_i write hFlight
    split at hDone
    · obtain rfl := Option.some.inj hDone
      have hBound := bound_stored hFlight .pendingCommit
      refine MarkerInv.afterWrite (c := { c with prefs := c.prefs.store write })
        ⟨fun submit hSubmit => ?_, h.completed⟩ hFlight ?_
      · have hAwaits := h.waiting submit hSubmit
        exact ⟨⟨hAwaits.head, hAwaits.headKnown, hAwaits.mounted, fun hOnDisk hHead =>
          hBound.trans (hAwaits.trusted hOnDisk hHead)⟩, hAwaits.written⟩
      · rw [hBound, bound_of_write hFlight]
        rfl
    · obtain rfl := Option.some.inj hDone
      exact ⟨fun _ hNone => absurd hNone List.not_mem_nil, h.completed⟩

end Writes

/-- A submit finds the marker that counts as stored for its head to be its own; while one waits no
other commit is submitted, none is settled and the controller stays. -/
def KeepsSubmit (c : DraftController) : DraftEvent → Prop
  | .commitSubmitted _ head headKnown =>
    (∀ other ∈ c.waiting, other = ⟨head, headKnown⟩) ∧
      (c.markerOnDisk = true → c.markerHead = some head →
        c.bound .pendingCommit = some (WorkingCopyDraft.marker head headKnown))
  | .settleCommit outcomeSeq _ _ _ => c.waiting = [] ∨ ∃ seq, c.draft.pendingCommitSeq = some seq ∧ outcomeSeq ≤ seq
  | .commitLanded | .commitAbandoned | .reset | .dispose => c.waiting = []
  | _ => True

theorem MarkerInv.step {c' : DraftController} (h : MarkerInv c) {event : DraftEvent} (hOk : KeepsSubmit c event)
    (hStep : c.step event = some c') : MarkerInv c' := by
  cases event with
  | updateSummary | updateDescription | beginAmend | applyAmendedMessage | cancelAmend | reconcilePreparedMessage =>
    exact h.edits (edits_of_step hStep rfl)
  | commitSubmitted seq head headKnown =>
    have hMounted := mounted_of_step hStep rfl
    rw [DraftController.step, hMounted] at hStep
    obtain rfl := Option.some.inj hStep
    exact h.submitted hMounted hOk.1 hOk.2
  | settleCommit outcomeSeq lastSucceeded refsLoaded head =>
    have hMounted := mounted_of_step hStep rfl
    rw [DraftController.step, hMounted] at hStep
    obtain rfl := Option.some.inj hStep
    rcases hOk with hNone | ⟨seq, hSeq, hEarly⟩
    · exact h.settles (settles_settleCommit _ _ _ _ _) hNone
    · rw [settleCommit, hSeq]
      simp only [if_pos hEarly]
      exact h
  | commitLanded =>
    have hMounted := mounted_of_step hStep rfl
    rw [DraftController.step, hMounted] at hStep
    obtain rfl := Option.some.inj hStep
    exact h.settles (settles_commitLanded c) hOk
  | commitAbandoned =>
    have hMounted := mounted_of_step hStep rfl
    rw [DraftController.step, hMounted] at hStep
    obtain rfl := Option.some.inj hStep
    exact h.settles (settles_commitAbandoned c) hOk
  | reset =>
    have hMounted := mounted_of_step hStep rfl
    rw [DraftController.step, hMounted] at hStep
    obtain rfl := Option.some.inj hStep
    exact h.settles (.cleared {} rfl) hOk
  | writeDone ok => exact h.writeDone hStep
  | dispose =>
    have hMounted := mounted_of_step hStep rfl
    rw [DraftController.step, hMounted] at hStep
    obtain rfl := Option.some.inj hStep
    refine ⟨fun submit hSubmit => ?_, h.completed⟩
    rw [show c.waiting = [] from hOk] at hSubmit
    cases hSubmit

theorem markerInv_open (prefs : DraftPrefs) : MarkerInv (DraftController.open prefs) := by
  rw [DraftController.open]
  simp only
  split
  · refine ⟨fun submit hSubmit => ?_, fun entry hEntry => ?_⟩
    · rw [waiting_persist] at hSubmit
      cases hSubmit
    · rw [completed_persist] at hEntry
      cases hEntry
  · exact ⟨fun _ hNone => absurd hNone List.not_mem_nil, fun _ hNone => absurd hNone List.not_mem_nil⟩

/-- In every run in which the submits are kept, whichever writes fail. -/
theorem submitted_marker_on_disk {prefs : DraftPrefs} {events : List DraftEvent}
    (hRun : Run step KeepsSubmit (DraftController.open prefs) events c) :
    ∀ entry ∈ c.completed, entry.2 = some (WorkingCopyDraft.marker entry.1.head entry.1.headKnown) :=
  (hRun.invariant (markerInv_open prefs) fun _ _ _ h hOk hStep => h.step hOk hStep).completed

/-- The write of the marker fails; the second submit of the commit finds it noted as stored. -/
def failedRetry : List DraftEvent :=
  [.commitSubmitted 0 (utf16 "deadbeef") true, .writeDone true, .writeDone false,
    .commitSubmitted 0 (utf16 "deadbeef") true, .writeDone true]

theorem failedRetry_without_marker : ¬ ∀ prefs events c,
    Run step (fun _ _ => True) (DraftController.open prefs) events c →
      ∀ entry ∈ c.completed, entry.2 = some (WorkingCopyDraft.marker entry.1.head entry.1.headKnown) := by
  intro h
  obtain ⟨c, hc, hCompleted⟩ : ∃ c, failedRetry.foldlM step (DraftController.open {}) = some c ∧
      c.completed = [(⟨utf16 "deadbeef", true⟩, none)] := ⟨_, rfl, rfl⟩
  have hMarker := h {} failedRetry c (.of_foldlM hc) (⟨utf16 "deadbeef", true⟩, none)
    (hCompleted ▸ List.mem_singleton_self _)
  cases hMarker

theorem submitted_marker_on_disk_once : ∃ c : DraftController,
    c.completed.map Prod.fst = [⟨utf16 "deadbeef", true⟩] ∧
    ∀ entry ∈ c.completed, entry.2 = some (WorkingCopyDraft.marker entry.1.head entry.1.headKnown) := by
  have hKept : KeepsSubmit (DraftController.open {}) (.commitSubmitted 0 (utf16 "deadbeef") true) :=
    ⟨fun _ hNone => absurd hNone List.not_mem_nil, fun hOnDisk => absurd hOnDisk (by decide)⟩
  have hStart : Run step KeepsSubmit (DraftController.open {}) [] (DraftController.open {}) := .start _
  have hSubmit := hStart.next hKept rfl
  have hDraft := hSubmit.next (show KeepsSubmit _ (.writeDone true) from trivial) rfl
  have hMarker := hDraft.next (show KeepsSubmit _ (.writeDone true) from trivial) rfl
  exact ⟨_, rfl, submitted_marker_on_disk hMarker⟩

end DraftController

end GitBranchManager
