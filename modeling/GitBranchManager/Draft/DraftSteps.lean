import GitBranchManager.Draft.DraftController
import GitBranchManager.Library.Runs

/-! # What an operation does to the draft

Whatever an operation changes of the stored parts of the draft, it asks for a round of writes.
-/

namespace GitBranchManager

def DraftPrefs.get (prefs : DraftPrefs) : DraftKey → Option (List Utf16)
  | .draft => prefs.draft
  | .episode => prefs.episode
  | .pendingCommit => prefs.pendingCommit

theorem DraftPrefs.get_store (prefs : DraftPrefs) (write : DraftWrite) (key : DraftKey) :
    (prefs.store write).get key = if key = write.key then write.value else prefs.get key := by
  rcases write with ⟨written, value⟩
  cases written <;> cases key <;> rfl

namespace WorkingCopyDraft

/-- The episode that belongs on disk. -/
def storedEpisode (d : WorkingCopyDraft) : Option (List Utf16) :=
  if d.preparedEpisodeActive && d.preparedFilled then some d.episode else none

/-- The marker that belongs on disk. -/
def storedMarker (d : WorkingCopyDraft) : Option (List Utf16) :=
  d.pendingCommitHead.map fun head => marker head d.pendingCommitHeadKnown

/-- Two drafts that differ in memory only. -/
structure SameStored (d d' : WorkingCopyDraft) : Prop where
  summary : d'.summary = d.summary
  description : d'.description = d.description
  episode : d'.storedEpisode = d.storedEpisode
  head : d'.pendingCommitHead = d.pendingCommitHead
  headKnown : d'.pendingCommitHeadKnown = d.pendingCommitHeadKnown

theorem SameStored.message {d d' : WorkingCopyDraft} (h : SameStored d d') : d'.message = d.message := by
  rw [WorkingCopyDraft.message, h.summary, h.description]
  rfl

theorem SameStored.marker {d d' : WorkingCopyDraft} (h : SameStored d d') : d'.storedMarker = d.storedMarker := by
  rw [storedMarker, h.head, h.headKnown]
  rfl

end WorkingCopyDraft

namespace DraftController

open WorkingCopyDraft (SameStored)

/-- What a key holds once the write that runs is done. -/
def bound (c : DraftController) (key : DraftKey) : Option (List Utf16) :=
  match c.inFlight with
  | some write => if key = write.key then write.value else c.prefs.get key
  | none => c.prefs.get key

theorem bound_of_idle {c : DraftController} (h : c.inFlight = none) (key : DraftKey) :
    c.bound key = c.prefs.get key := by
  rw [bound, h]

theorem bound_of_write {c : DraftController} {write : DraftWrite} (h : c.inFlight = some write) (key : DraftKey) :
    c.bound key = (c.prefs.store write).get key := by
  rw [bound, h, DraftPrefs.get_store]

theorem bound_stored {c : DraftController} {write : DraftWrite} (h : c.inFlight = some write) (key : DraftKey) :
    ({ c with prefs := c.prefs.store write } : DraftController).bound key = c.bound key := by
  rw [bound_of_write h, bound]
  simp only [h]
  rw [DraftPrefs.get_store]
  split
  · rfl
  · rfl

/-- A round starts with the episode, or with the message where no episode is or was. -/
theorem startRound_eq (c : DraftController) : ∃ onDisk write,
    c.startRound = { c with dirty := false, episodeOnDisk := onDisk, inFlight := some write } ∧
    (write = ⟨.episode, c.draft.storedEpisode⟩ ∧ onDisk = c.draft.storedEpisode.isSome ∨
      write = ⟨.draft, c.draft.message⟩ ∧ onDisk = false ∧ c.episodeOnDisk = false ∧ c.draft.storedEpisode = none) := by
  rw [startRound, WorkingCopyDraft.storedEpisode]
  simp only
  split
  · exact ⟨true, _, rfl, .inl ⟨rfl, rfl⟩⟩
  · split
    · exact ⟨false, _, rfl, .inl ⟨rfl, rfl⟩⟩
    · rename_i hNone
      have hOnDisk : c.episodeOnDisk = false := Bool.eq_false_iff.mpr hNone
      exact ⟨false, _, by rw [writeDraft, hOnDisk], .inr ⟨rfl, rfl, hOnDisk, rfl⟩⟩

theorem persist_cases (c : DraftController) :
    (∃ write, c.inFlight = some write) ∧ c.persist = { c with dirty := true } ∨
      c.inFlight = none ∧ c.persist = c.startRound := by
  rw [persist]
  cases hFlight : c.inFlight with
  | some write => exact .inl ⟨⟨write, rfl⟩, rfl⟩
  | none => exact .inr ⟨rfl, rfl⟩

@[simp] theorem draft_persist (c : DraftController) : c.persist.draft = c.draft := by
  rcases persist_cases c with ⟨-, hEq⟩ | ⟨-, hEq⟩
  · rw [hEq]
  · obtain ⟨onDisk, write, hStart, -⟩ := startRound_eq c
    rw [hEq, hStart]

section Edits

/-- A row of changes that leave the submitted commit alone: in memory, or followed by a round. -/
inductive Edits (c : DraftController) : DraftController → Prop
  | none : Edits c c
  | quiet {c' : DraftController} {d : WorkingCopyDraft} (h : Edits c c') (hSame : SameStored c'.draft d) :
      Edits c (c'.setDraft d)
  | saved {c' : DraftController} {d : WorkingCopyDraft} (h : Edits c c')
      (hHead : d.pendingCommitHead = c'.draft.pendingCommitHead)
      (hKnown : d.pendingCommitHeadKnown = c'.draft.pendingCommitHeadKnown) : Edits c (c'.setDraft d).persist

variable {c : DraftController}

theorem edits_cancelAmend (c : DraftController) : Edits c c.cancelAmend := by
  rw [cancelAmend]
  split
  · exact .none
  · exact .saved .none rfl rfl

def starts : PreparedMessageAction → Bool
  | .startAndRequest | .cancelAmendAndStart => true
  | _ => false

theorem starts_abortRule (context : PreparedMessageContext) : starts (abortRule context) = false := by
  rw [abortRule]
  split
  · rfl
  · rfl

theorem starts_endedWithoutAppCommit (context : PreparedMessageContext) :
    starts (endedWithoutAppCommit context) = false := by
  rw [endedWithoutAppCommit]
  repeat' split
  all_goals first | rfl | exact starts_abortRule context

theorem starts_revalidating (context : PreparedMessageContext) : starts (revalidating context) = false := by
  rw [revalidating]
  repeat' split
  all_goals rfl

/-- An episode starts only where none is active. -/
theorem not_active_of_starts {context : PreparedMessageContext}
    (h : starts (decidePreparedMessageAction context) = true) : context.episodeActive = false := by
  cases hActive : context.episodeActive with
  | false => rfl
  | true =>
    rw [decidePreparedMessageAction, hActive] at h
    split at h
    · rw [starts_revalidating] at h
      cases h
    · simp only [Bool.not_true, Bool.false_eq_true, if_false] at h
      repeat' split at h
      all_goals first
        | cases h
        | rw [starts_endedWithoutAppCommit] at h
          cases h
        | rw [starts_abortRule] at h
          cases h

theorem sameStored_start {d d' : WorkingCopyDraft} (hActive : d.preparedEpisodeActive = false)
    (h : d' = { d with preparedEpisodeActive := true, preparedFilled := false }) : SameStored d d' := by
  subst h
  refine ⟨rfl, rfl, ?_, rfl, rfl⟩
  rw [WorkingCopyDraft.storedEpisode, WorkingCopyDraft.storedEpisode, hActive]
  rfl

theorem edits_apply (c : DraftController) {action : PreparedMessageAction} (input : PreparedMessageInput)
    (hStarts : starts action = true → c.draft.preparedEpisodeActive = false) : Edits c (c.apply action input) := by
  cases action with
  | nothing => exact .none
  | checkHead | checkParent | revalidate | keepValidated => exact .quiet .none ⟨rfl, rfl, rfl, rfl, rfl⟩
  | startAndRequest => exact .quiet .none (sameStored_start (hStarts rfl) rfl)
  | cancelAmendAndStart =>
    refine .quiet (edits_cancelAmend c) (sameStored_start ?_ rfl)
    rw [cancelAmend]
    split
    · exact hStarts rfl
    · rw [draft_persist]
      exact hStarts rfl
  | replace | replaceAsNew | keep | restoreAndEnd | clearAndEnd | «end» => exact .saved .none rfl rfl

theorem Edits.trans {c c' c'' : DraftController} (h : Edits c c') (h' : Edits c' c'') : Edits c c'' := by
  induction h' with
  | none => exact h
  | quiet _ hSame ih => exact ih.quiet hSame
  | saved _ hHead hKnown ih => exact ih.saved hHead hKnown

theorem edits_reconcile (c : DraftController) (input : PreparedMessageInput) :
    Edits c (c.reconcilePreparedMessage input).2 := by
  rw [reconcilePreparedMessage]
  simp only
  split
  · exact .trans (.quiet (d := c.draft.clearEndChecks) .none ⟨rfl, rfl, rfl, rfl, rfl⟩)
      (edits_apply _ input fun hStarts => not_active_of_starts hStarts)
  · exact edits_apply _ input fun hStarts => not_active_of_starts hStarts

def isEdit : DraftEvent → Bool
  | .updateSummary _ | .updateDescription _ | .beginAmend | .applyAmendedMessage _ _ | .cancelAmend
  | .reconcilePreparedMessage _ => true
  | _ => false

def isWriteDone : DraftEvent → Bool
  | .writeDone _ => true
  | _ => false

theorem mounted_of_step {c c' : DraftController} {event : DraftEvent} (hStep : c.step event = some c')
    (hCall : isWriteDone event = false) : c.mounted = true := by
  cases hMounted : c.mounted with
  | true => rfl
  | false =>
    cases event with
    | writeDone ok => cases hCall
    | _ =>
      rw [step, hMounted] at hStep
      cases hStep

theorem edits_of_step {c c' : DraftController} {event : DraftEvent} (hStep : c.step event = some c')
    (hEdit : isEdit event = true) : Edits c c' := by
  have hMounted : c.mounted = true := mounted_of_step hStep (by cases event <;> first | rfl | cases hEdit)
  cases event with
  | updateSummary | updateDescription =>
    rw [step, hMounted] at hStep
    obtain rfl := Option.some.inj hStep
    exact .saved .none rfl rfl
  | beginAmend =>
    rw [step, hMounted] at hStep
    obtain rfl := Option.some.inj hStep
    rw [beginAmend]
    split
    · exact .none
    · exact .quiet .none ⟨rfl, rfl, rfl, rfl, rfl⟩
  | applyAmendedMessage =>
    rw [step, hMounted] at hStep
    obtain rfl := Option.some.inj hStep
    rw [applyAmendedMessage]
    split
    · exact .none
    · exact .saved .none rfl rfl
  | cancelAmend =>
    rw [step, hMounted] at hStep
    obtain rfl := Option.some.inj hStep
    exact edits_cancelAmend c
  | reconcilePreparedMessage input =>
    rw [step, hMounted] at hStep
    obtain rfl := Option.some.inj hStep
    exact edits_reconcile c input
  | commitSubmitted | settleCommit | commitLanded | commitAbandoned | reset | writeDone | dispose => cases hEdit

/-- The commit is settled: nothing happens, or the draft loses it. -/
inductive Settles (c : DraftController) : DraftController → Prop
  | none : Settles c c
  | cleared (d : WorkingCopyDraft) (hHead : d.pendingCommitHead = none) : Settles c (c.setDraft d).persist

theorem settles_commitLanded (c : DraftController) : Settles c c.commitLanded := by
  rw [commitLanded]
  split
  · exact .none
  · exact .cleared _ rfl

theorem settles_commitAbandoned (c : DraftController) : Settles c c.commitAbandoned := by
  rw [commitAbandoned]
  split
  · exact .none
  · exact .cleared _ rfl

theorem settles_settleCommit (c : DraftController) (outcomeSeq : Int) (lastSucceeded refsLoaded : Bool)
    (head : Utf16) : Settles c (c.settleCommit outcomeSeq lastSucceeded refsLoaded head) := by
  rw [settleCommit]
  repeat' split
  all_goals first
    | exact .none
    | exact settles_commitLanded c
    | exact settles_commitAbandoned c

end Edits

end DraftController

end GitBranchManager
