import GitBranchManager.Prunes.WorktreePrunes

/-! # Prunes that nobody asked for stay silent

Nothing that reaches the handler of a prune tells an automatic one from the user's, so a failure is
shown whenever its event carries it.
-/

namespace GitBranchManager

open Library

/-- A prune that was cancelled is not a failed one. -/
def PruneRecord.failed (record : PruneRecord) : Bool :=
  !record.payload.succeeded && !isUserCancel record.payload.error

/-- Who hears of the outcome. -/
structure PruneRecord.Attributed (record : PruneRecord) : Prop where
  silent : record.origin = .automatic → record.payload.succeeded = false → record.written = none
  shown : record.origin = .user → record.failed = true →
    ∃ error, record.payload.error = some error ∧ record.written = some error

namespace WorktreePrunes

variable {s s' : WorktreePrunes} {event : PruneEvent} {events : List PruneEvent}

/-- A failure is carried to the session if and only if the user asked for the prune. -/
def Admits (s : WorktreePrunes) : PruneEvent → Prop
  | .pruneFinished i decodes succeeded error => succeeded = false → isUserCancel error = false →
    ∀ origin ∈ s.submitted[i]?, (origin = .user ↔ decodes = true ∧ error.isSome = true)
  | _ => True

def Silent (s : WorktreePrunes) : Prop := ∀ record ∈ s.log, record.Attributed

section Written

variable (error : Option ReportedError)

theorem writtenError_of_cancel (backgroundFetch : Bool) (h : isUserCancel error = true) :
    CompletionPayload.writtenError { succeeded := false, error } backgroundFetch = none := by
  simp [CompletionPayload.writtenError, h]

theorem writtenError_of_failed (h : isUserCancel error = false) :
    CompletionPayload.writtenError { succeeded := false, error } false = error := by
  simp [CompletionPayload.writtenError, h]

end Written

/-- The record of a prune is right if and only if its outcome was admitted. -/
theorem attributed_iff (origin : PruneOrigin) (decodes succeeded : Bool) (error : Option ReportedError) :
    PruneRecord.Attributed
        { origin
          decodes
          payload := { succeeded, error }
          written := if decodes then CompletionPayload.writtenError { succeeded, error } false else none } ↔
      (succeeded = false → isUserCancel error = false →
        (origin = .user ↔ decodes = true ∧ error.isSome = true)) := by
  constructor
  · rintro ⟨hSilent, hShown⟩ rfl hFailed
    rw [writtenError_of_failed error hFailed] at hSilent hShown
    cases origin with
    | automatic =>
      refine iff_of_false (by simp) fun ⟨hDecodes, hSome⟩ => ?_
      have hNone : (if decodes then error else none) = none := hSilent rfl rfl
      rw [if_pos hDecodes] at hNone
      rw [hNone] at hSome
      cases hSome
    | user =>
      obtain ⟨shown, hError, hWritten⟩ := hShown rfl (by simp [PruneRecord.failed, hFailed])
      refine iff_of_true rfl ⟨?_, Option.isSome_of_eq_some hError⟩
      cases decodes with
      | true => rfl
      | false => cases hWritten
  · intro hOnly
    constructor
    · rintro rfl rfl
      cases hCancel : isUserCancel error with
      | true => rw [writtenError_of_cancel error false hCancel, ite_self]
      | false =>
        rw [writtenError_of_failed error hCancel]
        split
        · next hDecodes =>
          have hNot : ¬ (decodes = true ∧ error.isSome = true) := fun hCarried => by
            cases (hOnly rfl hCancel).mpr hCarried
          exact Option.not_isSome_iff_eq_none.mp fun hSome => hNot ⟨hDecodes, hSome⟩
        · rfl
    · rintro rfl hFailed
      obtain ⟨hSucceeded, hCancel⟩ := Bool.and_eq_true_iff.mp hFailed
      obtain rfl : succeeded = false := by simpa using hSucceeded
      have hCancel : isUserCancel error = false := by simpa using hCancel
      obtain ⟨hDecodes, hSome⟩ := (hOnly rfl hCancel).mp rfl
      obtain ⟨shown, hError⟩ := Option.isSome_iff_exists.mp hSome
      refine ⟨shown, hError, ?_⟩
      rw [if_pos hDecodes, writtenError_of_failed error hCancel, hError]

theorem log_autoPruneWorktrees (s : WorktreePrunes) (worktrees : List WorktreeInfo) :
    (s.autoPruneWorktrees worktrees).log = s.log := by
  rw [autoPruneWorktrees]
  split
  · rfl
  · rfl

theorem log_handleOperationOutcome (s : WorktreePrunes) (error : Option ReportedError) :
    (s.handleOperationOutcome error).log = s.log := by
  cases error with
  | none => rfl
  | some error =>
    rw [handleOperationOutcome]
    split
    · rfl
    · split
      · rfl
      · rfl

/-- Every other step leaves the prunes that have come back alone. -/
theorem silent_step (h : s.step event = some s') : Silent s' ↔ Silent s ∧ Admits s event := by
  have hOther (hLog : s'.log = s.log) (hAdmits : Admits s event) : Silent s' ↔ Silent s ∧ Admits s event := by
    rw [Silent, Silent, hLog, and_iff_left hAdmits]
  cases event with
  | publishWorktrees worktrees =>
    obtain rfl := Option.some.inj h
    exact hOther (log_autoPruneWorktrees _ worktrees) trivial
  | pruneWorktrees =>
    obtain rfl := Option.some.inj h
    exact hOther rfl trivial
  | workingCopyOperationFinished payload backgroundFetch =>
    obtain rfl := Option.some.inj h
    exact hOther rfl trivial
  | operationFinished error =>
    obtain rfl := Option.some.inj h
    exact hOther (log_handleOperationOutcome s error) trivial
  | clearError =>
    obtain rfl := Option.some.inj h
    exact hOther rfl trivial
  | pruneFinished i decodes succeeded error =>
    obtain ⟨origin, hAt, rfl⟩ := Option.map_eq_some_iff.mp h
    have hOnly : Admits s (.pruneFinished i decodes succeeded error) ↔
        (succeeded = false → isUserCancel error = false →
          (origin = .user ↔ decodes = true ∧ error.isSome = true)) := by
      simp [Admits, hAt]
    rw [hOnly, ← attributed_iff origin decodes succeeded error, and_comm]
    exact List.forall_mem_cons

section Stale

def staleWorktree : WorktreeInfo where
  path := "/worktrees/gone"
  isPrunable := true

def pruneFailure : ReportedError where
  codeName := "Unknown"
  message := "fatal: could not remove .git/worktrees/gone"
  argv := ["git", "worktree", "prune", "--verbose"]

def staleEvents : List PruneEvent :=
  [.publishWorktrees [staleWorktree], .pruneWorktrees, .pruneFinished 0 true true none,
    .pruneFinished 0 true false (some pruneFailure)]

end Stale

end WorktreePrunes

end GitBranchManager
