import GitBranchManager.Draft.DraftSteps

/-! # The user's words and a merge

An episode fills the box once, and remembers what it put there and what was there before. What it
puts back is that, and only where the box holds what it put there.
-/

namespace GitBranchManager

open Library

/-- The actions that put a prepared message into the box. -/
def fills : PreparedMessageAction → Bool
  | .replace | .replaceAsNew => true
  | _ => false

/-- What holds where an action that fills or restores the box, or starts an episode, is chosen. -/
def Allows (c : PreparedMessageContext) : PreparedMessageAction → Prop
  | .startAndRequest => c.episodeActive = false
  | .cancelAmendAndStart => c.episodeActive = false ∧ c.amending = true
  | .replace =>
    c.episodeActive = true ∧ c.filled = false ∧ c.needsRevalidation = false ∧ (c.overwrite || c.boxEmpty) = true
  | .replaceAsNew => c.episodeActive = true ∧ c.needsRevalidation = true ∧ (c.overwrite || c.boxEmpty) = true
  | .restoreAndEnd => c.boxMatchesAutofill = true
  | _ => True

section Decisions

variable {c : PreparedMessageContext}

theorem allows_abortRule (c : PreparedMessageContext) : Allows c (abortRule c) := by
  rw [abortRule]
  split
  case isTrue hMatches => exact hMatches
  case isFalse => trivial

theorem allows_endedWithoutAppCommit (c : PreparedMessageContext) : Allows c (endedWithoutAppCommit c) := by
  rw [endedWithoutAppCommit]
  repeat' split
  all_goals first | exact allows_abortRule c | trivial

theorem allows_revalidating (hActive : c.episodeActive = true) (hNeeds : c.needsRevalidation = true) :
    Allows c (revalidating c) := by
  rw [revalidating]
  repeat' split
  all_goals first | exact ⟨hActive, hNeeds, by assumption⟩ | trivial

theorem allows_decide (c : PreparedMessageContext) : Allows c (decidePreparedMessageAction c) := by
  rw [decidePreparedMessageAction]
  split
  case isTrue hAgain =>
    rw [Bool.and_eq_true] at hAgain
    exact allows_revalidating hAgain.1 hAgain.2
  case isFalse hAgain =>
    split
    case isTrue hEnded =>
      repeat' split
      all_goals first | exact allows_abortRule c | exact allows_endedWithoutAppCommit c | trivial
    case isFalse =>
      split
      case isTrue hInactive =>
        have hNone : c.episodeActive = false := by simpa using hInactive
        split
        case isTrue hAmending => exact ⟨hNone, hAmending⟩
        case isFalse => exact hNone
      case isFalse hActive =>
        have hOne : c.episodeActive = true := by simpa using hActive
        have hRead : c.needsRevalidation = false := by simpa [hOne] using hAgain
        split
        case isTrue => trivial
        case isFalse hFilled =>
          have hEmpty : c.filled = false := by simpa using hFilled
          repeat' split
          all_goals first | exact ⟨hOne, hEmpty, hRead, by assumption⟩ | trivial

end Decisions

namespace WorkingCopyDraft

/-- What the box holds. -/
def box (d : WorkingCopyDraft) : Utf16 × Utf16 := (d.summary, d.description)

/-- What the box held before amend mode. -/
def preAmend (d : WorkingCopyDraft) : Utf16 × Utf16 := (d.preAmendSummary, d.preAmendDescription)

/-- What the episode filled the box with. -/
def autofilled (d : WorkingCopyDraft) : Utf16 × Utf16 := (d.autofilledSummary, d.autofilledDescription)

/-- What the box held before that. -/
def prePrepared (d : WorkingCopyDraft) : Utf16 × Utf16 := (d.prePreparedSummary, d.prePreparedDescription)

def Blank (d : WorkingCopyDraft) : Prop := (trim d.summary).isEmpty ∧ (trim d.description).isEmpty

/-- There is no episode to end. -/
def NoEpisode (d : WorkingCopyDraft) : Prop := d.endEpisode = d

theorem noEpisode_readMessage (stored : Option (List Utf16)) : (readMessage stored).NoEpisode := by
  unfold readMessage
  split
  all_goals rfl

theorem NoEpisode.withPendingCommit {d : WorkingCopyDraft} (h : d.NoEpisode) (marker : Option (List Utf16)) :
    (WorkingCopyDraft.withPendingCommit marker d).NoEpisode := by
  unfold WorkingCopyDraft.withPendingCommit
  split
  case h_2 => exact h
  case h_1 head known =>
    split
    case isFalse => exact h
    case isTrue =>
      rw [NoEpisode] at h ⊢
      rw [← h]
      rfl

/-- A draft that is read back without an episode has none. -/
theorem noEpisode_read {prefs : DraftPrefs} (h : (read prefs).preparedEpisodeActive = false) :
    (read prefs).NoEpisode := by
  have hPlain := (noEpisode_readMessage prefs.draft).withPendingCommit prefs.pendingCommit
  revert h
  unfold read withEpisode
  split
  case h_2 => exact fun _ => hPlain
  case h_1 =>
    split
    case isFalse => exact fun _ => hPlain
    case isTrue => exact fun hActive => nomatch hActive

/-- Two drafts of one stage of one episode. -/
structure SameEpisode (d d' : WorkingCopyDraft) : Prop where
  active : d'.preparedEpisodeActive = d.preparedEpisodeActive
  filled : d'.preparedFilled = d.preparedFilled
  hasAutofill : d'.hasAutofill = d.hasAutofill
  autofilled : d'.autofilled = d.autofilled
  prePrepared : d'.prePrepared = d.prePrepared
  needsRevalidation : d'.needsRevalidation = d.needsRevalidation

/-- The episode goes on as it was, or the draft was reset. -/
def Dropped (d d' : WorkingCopyDraft) : Prop := d' = {} ∨ SameEpisode d d'

theorem SameEpisode.refl (d : WorkingCopyDraft) : SameEpisode d d := ⟨rfl, rfl, rfl, rfl, rfl, rfl⟩

theorem SameEpisode.trans {d e f : WorkingCopyDraft} (h : SameEpisode d e) (h' : SameEpisode e f) :
    SameEpisode d f where
  active := h'.active.trans h.active
  filled := h'.filled.trans h.filled
  hasAutofill := h'.hasAutofill.trans h.hasAutofill
  autofilled := h'.autofilled.trans h.autofilled
  prePrepared := h'.prePrepared.trans h.prePrepared
  needsRevalidation := h'.needsRevalidation.trans h.needsRevalidation

end WorkingCopyDraft

namespace DraftController

open WorkingCopyDraft (SameEpisode Dropped Blank NoEpisode)

variable {c c' : DraftController}

section Steps

theorem draft_startRound (c : DraftController) : c.startRound.draft = c.draft := by
  obtain ⟨onDisk, write, hStart, -⟩ := startRound_eq c
  rw [hStart]

theorem draft_endRound (c : DraftController) : c.endRound.draft = c.draft := by
  rw [endRound]
  split
  · exact draft_startRound c
  · rfl

theorem draft_writeMarker (c : DraftController) : c.writeMarker.draft = c.draft := by
  rw [writeMarker]
  repeat' split
  all_goals first | rfl | exact draft_endRound c

theorem draft_afterWrite (c : DraftController) (key : DraftKey) : (c.afterWrite key).draft = c.draft := by
  cases key with
  | pendingCommit => exact draft_endRound c
  | episode | draft =>
    rw [afterWrite]
    split
    all_goals first | rfl | exact draft_writeMarker c

theorem draft_writeDone {ok : Bool} (h : c.writeDone ok = some c') : c'.draft = c.draft := by
  rw [writeDone] at h
  split at h
  case h_1 => exact nomatch h
  case h_2 write hFlight =>
    split at h
    all_goals obtain rfl := Option.some.inj h
    · exact draft_afterWrite _ _
    · rfl

theorem sameEpisode_saved {d : WorkingCopyDraft} (h : SameEpisode c.draft d) :
    SameEpisode c.draft (c.setDraft d).persist.draft := by
  rw [draft_persist]
  exact h

theorem dropped_commitLanded (c : DraftController) : Dropped c.draft c.commitLanded.draft := by
  rw [commitLanded]
  split
  · exact .inr (.refl _)
  · exact .inl (draft_persist _)

theorem dropped_commitAbandoned (c : DraftController) : Dropped c.draft c.commitAbandoned.draft := by
  rw [commitAbandoned]
  right
  split
  · exact .refl _
  · exact sameEpisode_saved ⟨rfl, rfl, rfl, rfl, rfl, rfl⟩

theorem dropped_settleCommit (c : DraftController) (outcomeSeq : Int) (lastSucceeded refsLoaded : Bool)
    (head : Utf16) : Dropped c.draft (c.settleCommit outcomeSeq lastSucceeded refsLoaded head).draft := by
  rw [settleCommit]
  repeat' split
  all_goals first
    | exact .inr (.refl _)
    | exact dropped_commitLanded c
    | exact dropped_commitAbandoned c

theorem sameEpisode_cancelAmend (c : DraftController) : SameEpisode c.draft c.cancelAmend.draft := by
  rw [cancelAmend]
  split
  · exact .refl _
  · exact sameEpisode_saved ⟨rfl, rfl, rfl, rfl, rfl, rfl⟩

/-- Only `reconcilePreparedMessage` takes an episode further; a commit that landed drops it. -/
theorem dropped_of_step {event : DraftEvent} (hStep : c.step event = some c')
    (hOther : ∀ input, event ≠ .reconcilePreparedMessage input) : Dropped c.draft c'.draft := by
  by_cases hDone : isWriteDone event = true
  · cases event with
    | writeDone ok =>
      right
      rw [draft_writeDone hStep]
      exact .refl _
    | _ => cases hDone
  · have hMounted := mounted_of_step hStep (Bool.eq_false_iff.mpr hDone)
    cases event with
    | writeDone ok => exact absurd rfl hDone
    | reconcilePreparedMessage input => exact absurd rfl (hOther input)
    | updateSummary | updateDescription =>
      rw [step, hMounted] at hStep
      obtain rfl := Option.some.inj hStep
      exact .inr (sameEpisode_saved ⟨rfl, rfl, rfl, rfl, rfl, rfl⟩)
    | beginAmend =>
      rw [step, hMounted] at hStep
      obtain rfl := Option.some.inj hStep
      rw [beginAmend]
      split
      · exact .inr (.refl _)
      · exact .inr ⟨rfl, rfl, rfl, rfl, rfl, rfl⟩
    | applyAmendedMessage =>
      rw [step, hMounted] at hStep
      obtain rfl := Option.some.inj hStep
      rw [applyAmendedMessage]
      split
      · exact .inr (.refl _)
      · exact .inr (sameEpisode_saved ⟨rfl, rfl, rfl, rfl, rfl, rfl⟩)
    | cancelAmend =>
      rw [step, hMounted] at hStep
      obtain rfl := Option.some.inj hStep
      exact .inr (sameEpisode_cancelAmend c)
    | commitSubmitted seq head headKnown =>
      rw [step, hMounted] at hStep
      obtain rfl := Option.some.inj hStep
      exact .inr (sameEpisode_saved ⟨rfl, rfl, rfl, rfl, rfl, rfl⟩)
    | settleCommit outcomeSeq lastSucceeded refsLoaded head =>
      rw [step, hMounted] at hStep
      obtain rfl := Option.some.inj hStep
      exact dropped_settleCommit c outcomeSeq lastSucceeded refsLoaded head
    | commitLanded =>
      rw [step, hMounted] at hStep
      obtain rfl := Option.some.inj hStep
      exact dropped_commitLanded c
    | commitAbandoned =>
      rw [step, hMounted] at hStep
      obtain rfl := Option.some.inj hStep
      exact dropped_commitAbandoned c
    | reset =>
      rw [step, hMounted] at hStep
      obtain rfl := Option.some.inj hStep
      exact .inl (draft_persist _)
    | dispose =>
      rw [step, hMounted] at hStep
      obtain rfl := Option.some.inj hStep
      exact .inr (.refl _)

end Steps

section Reconciling

variable {input : PreparedMessageInput}

/-- What a call of `reconcilePreparedMessage` finds once it has dropped the checks of an end. -/
structure Reconciles (c : DraftController) (input : PreparedMessageInput) (d : DraftController) : Prop where
  episode : SameEpisode c.draft d.draft
  box : d.draft.box = c.draft.box
  amending : d.draft.amending = c.draft.amending
  preAmend : d.draft.preAmend = c.draft.preAmend
  allows : Allows (preparedMessageContext d.draft input) (c.reconcilePreparedMessage input).1
  result : (c.reconcilePreparedMessage input).2 = d.apply (c.reconcilePreparedMessage input).1 input

theorem exists_reconciles (c : DraftController) (input : PreparedMessageInput) : ∃ d, Reconciles c input d := by
  by_cases hChecks : (input.pending && (c.draft.headCheckRequest.isSome || c.draft.parentCheckHead.isSome)) = true
  · have hEq : c.reconcilePreparedMessage input =
        (decidePreparedMessageAction (preparedMessageContext c.draft.clearEndChecks input),
          (c.setDraft c.draft.clearEndChecks).apply
            (decidePreparedMessageAction (preparedMessageContext c.draft.clearEndChecks input)) input) := by
      rw [reconcilePreparedMessage, if_pos hChecks]
      rfl
    refine ⟨c.setDraft c.draft.clearEndChecks, ⟨rfl, rfl, rfl, rfl, rfl, rfl⟩, rfl, rfl, rfl, ?_, ?_⟩
    · rw [hEq]
      exact allows_decide _
    · rw [hEq]
  · have hEq : c.reconcilePreparedMessage input =
        (decidePreparedMessageAction (preparedMessageContext c.draft input),
          c.apply (decidePreparedMessageAction (preparedMessageContext c.draft input)) input) := by
      rw [reconcilePreparedMessage, if_neg hChecks]
    refine ⟨c, .refl _, rfl, rfl, rfl, ?_, ?_⟩
    · rw [hEq]
      exact allows_decide _
    · rw [hEq]

/-- The actions that leave the box alone. -/
def sparesBox : PreparedMessageAction → Bool
  | .replace | .replaceAsNew | .restoreAndEnd | .clearAndEnd | .cancelAmendAndStart => false
  | _ => true

theorem box_apply (c : DraftController) {action : PreparedMessageAction} (input : PreparedMessageInput)
    (h : sparesBox action = true) : (c.apply action input).draft.box = c.draft.box := by
  cases action with
  | nothing | checkHead | checkParent | startAndRequest | revalidate | keepValidated => rfl
  | keep | «end» =>
    rw [apply, draft_persist]
    rfl
  | replace | replaceAsNew | restoreAndEnd | clearAndEnd | cancelAmendAndStart => cases h

theorem box_cancelAmend (h : c.draft.amending = true) : c.cancelAmend.draft.box = c.draft.preAmend := by
  rw [cancelAmend, h, Bool.not_true, if_neg Bool.false_ne_true, draft_persist]
  rfl

/-- A call that changes the box fills it, restores it, clears it or leaves amend mode. -/
theorem box_reconcile (c : DraftController) (input : PreparedMessageInput) :
    (c.reconcilePreparedMessage input).2.draft.box = c.draft.box ∨
      fills (c.reconcilePreparedMessage input).1 = true ∨
      (c.reconcilePreparedMessage input).1 = .restoreAndEnd ∨ (c.reconcilePreparedMessage input).1 = .clearAndEnd ∨
      (c.reconcilePreparedMessage input).1 = .cancelAmendAndStart ∧ c.draft.amending = true ∧
        (c.reconcilePreparedMessage input).2.draft.box = c.draft.preAmend := by
  obtain ⟨d, hReconciles⟩ := exists_reconciles c input
  have hAllows := hReconciles.allows
  have hResult := hReconciles.result
  revert hAllows hResult
  generalize (c.reconcilePreparedMessage input).1 = action
  intro hAllows hResult
  cases action with
  | replace | replaceAsNew => exact .inr (.inl rfl)
  | restoreAndEnd => exact .inr (.inr (.inl rfl))
  | clearAndEnd => exact .inr (.inr (.inr (.inl rfl)))
  | cancelAmendAndStart =>
    obtain ⟨-, hAmending⟩ := hAllows
    have hBox : (d.apply .cancelAmendAndStart input).draft.box = d.draft.preAmend := box_cancelAmend hAmending
    refine .inr (.inr (.inr (.inr ⟨rfl, hReconciles.amending ▸ hAmending, ?_⟩)))
    rw [hResult, hBox, hReconciles.preAmend]
  | _ =>
    left
    rw [hResult, box_apply d input rfl, hReconciles.box]

theorem Reconciles.blank {d : DraftController} (h : Reconciles c input d)
    (hEither : ((preparedMessageContext d.draft input).overwrite ||
      (preparedMessageContext d.draft input).boxEmpty) = true)
    (hKeep : input.overwrite = false) : c.draft.Blank := by
  obtain ⟨hSummary, hDescription⟩ := Prod.mk.inj h.box
  have hEmpty : ((trim d.draft.summary).isEmpty && (trim d.draft.description).isEmpty) = true := by
    simpa [preparedMessageContext, hKeep] using hEither
  rw [hSummary, hDescription, Bool.and_eq_true] at hEmpty
  exact hEmpty

/-- Unless the user has it overwritten, the box is filled only where it is blank. -/
theorem blank_of_fills (hFills : fills (c.reconcilePreparedMessage input).1 = true) (hKeep : input.overwrite = false) :
    c.draft.Blank := by
  obtain ⟨d, hReconciles⟩ := exists_reconciles c input
  have hAllows := hReconciles.allows
  cases hAction : (c.reconcilePreparedMessage input).1 with
  | replace =>
    rw [hAction] at hAllows
    exact hReconciles.blank hAllows.2.2.2 hKeep
  | replaceAsNew =>
    rw [hAction] at hAllows
    exact hReconciles.blank hAllows.2.2 hKeep
  | _ =>
    rw [hAction] at hFills
    cases hFills

/-- What the episode put into the box is there, and goes for what was there before. -/
theorem restores (hAction : (c.reconcilePreparedMessage input).1 = .restoreAndEnd) :
    c.draft.hasAutofill = true ∧ c.draft.box = c.draft.autofilled ∧
      (c.reconcilePreparedMessage input).2.draft.box = c.draft.prePrepared := by
  obtain ⟨d, hReconciles⟩ := exists_reconciles c input
  have hAllows := hReconciles.allows
  have hResult := hReconciles.result
  rw [hAction] at hAllows hResult
  have hMatches : d.draft.hasAutofill = true ∧ d.draft.summary = d.draft.autofilledSummary ∧
      d.draft.description = d.draft.autofilledDescription := by
    simpa [Allows, preparedMessageContext, and_assoc] using hAllows
  obtain ⟨hHas, hSummary, hDescription⟩ := hMatches
  refine ⟨hReconciles.episode.hasAutofill ▸ hHas, ?_, ?_⟩
  · rw [← hReconciles.box, ← hReconciles.episode.autofilled]
    exact Prod.ext hSummary hDescription
  · rw [hResult, ← hReconciles.episode.prePrepared, apply, draft_persist]
    rfl

/-- How an episode that was not read back from disk goes on. -/
inductive Advances (d : WorkingCopyDraft) (input : PreparedMessageInput) :
    PreparedMessageAction → WorkingCopyDraft → Prop
  | waits {action : PreparedMessageAction} {d' : WorkingCopyDraft} (hAction : fills action = false)
    (hSame : SameEpisode d d') : Advances d input action d'
  | starts {action : PreparedMessageAction} {d' : WorkingCopyDraft} (hAction : fills action = false)
    (hInactive : d.preparedEpisodeActive = false) (hAutofill : d'.hasAutofill = d.hasAutofill)
    (hRead : d'.needsRevalidation = false) : Advances d input action d'
  | fills {d' : WorkingCopyDraft} (hActive : d.preparedEpisodeActive = true) (hEmpty : d.preparedFilled = false)
    (hGoesOn : d'.preparedEpisodeActive = true) (hFilled : d'.preparedFilled = true)
    (hAutofilled : d'.autofilled = (input.summary, input.description)) (hBefore : d'.prePrepared = d.box)
    (hRead : d'.needsRevalidation = false) : Advances d input .replace d'
  | keeps {action : PreparedMessageAction} {d' : WorkingCopyDraft} (hAction : fills action = false)
    (hAutofill : d'.hasAutofill = false) (hFilled : d'.preparedFilled = true)
    (hRead : d'.needsRevalidation = false) : Advances d input action d'
  | ends {action : PreparedMessageAction} {d' : WorkingCopyDraft} (hAction : fills action = false)
    (hAutofill : d'.hasAutofill = false) (hInactive : d'.preparedEpisodeActive = false)
    (hRead : d'.needsRevalidation = false) : Advances d input action d'

theorem Advances.of_sameEpisode {d e d' : WorkingCopyDraft} {action : PreparedMessageAction}
    (h : Advances e input action d') (hSame : SameEpisode d e) (hBox : e.box = d.box) : Advances d input action d' := by
  cases h with
  | waits hAction hLater => exact .waits hAction (hSame.trans hLater)
  | starts hAction hInactive hAutofill hRead =>
    exact .starts hAction (hSame.active ▸ hInactive) (hAutofill.trans hSame.hasAutofill) hRead
  | fills hActive hEmpty hGoesOn hFilled hAutofilled hBefore hRead =>
    exact .fills (hSame.active ▸ hActive) (hSame.filled ▸ hEmpty) hGoesOn hFilled hAutofilled (hBefore.trans hBox) hRead
  | keeps hAction hAutofill hFilled hRead => exact .keeps hAction hAutofill hFilled hRead
  | ends hAction hAutofill hInactive hRead => exact .ends hAction hAutofill hInactive hRead

theorem advances (h : c.draft.needsRevalidation = false) (input : PreparedMessageInput) :
    Advances c.draft input (c.reconcilePreparedMessage input).1 (c.reconcilePreparedMessage input).2.draft := by
  obtain ⟨d, hReconciles⟩ := exists_reconciles c input
  have hAllows := hReconciles.allows
  have hSame := hReconciles.episode
  have hRead : d.draft.needsRevalidation = false := hSame.needsRevalidation.trans h
  rw [hReconciles.result]
  apply Advances.of_sameEpisode ?_ hSame hReconciles.box
  revert hAllows
  generalize (c.reconcilePreparedMessage input).1 = action
  intro hAllows
  cases action with
  | nothing | checkHead | checkParent | revalidate => exact .waits rfl ⟨rfl, rfl, rfl, rfl, rfl, rfl⟩
  | keepValidated => exact .waits rfl ⟨rfl, rfl, rfl, rfl, rfl, hRead.symm⟩
  | startAndRequest => exact .starts rfl hAllows rfl hRead
  | cancelAmendAndStart =>
    have hLeft := sameEpisode_cancelAmend d
    exact .starts rfl hAllows.1 hLeft.hasAutofill (hLeft.needsRevalidation.trans hRead)
  | replace =>
    obtain ⟨hActive, hEmpty, -, -⟩ := hAllows
    rw [apply, replace, draft_persist]
    exact .fills hActive hEmpty hActive rfl rfl rfl rfl
  | replaceAsNew => exact absurd (hAllows.2.1.symm.trans hRead) (by decide)
  | keep =>
    rw [apply, draft_persist]
    exact .keeps rfl rfl rfl rfl
  | restoreAndEnd | clearAndEnd | «end» =>
    rw [apply, draft_persist]
    exact .ends rfl rfl rfl rfl

end Reconciling

section Runs

variable {start : DraftController} {events : List DraftEvent}

/-- An event that comes while an episode runs. -/
def inEpisode (c : DraftController) (_ : DraftEvent) : Prop := c.draft.preparedEpisodeActive = true

/-- The call with `fill` in the state `p` filled the box, and the episode has gone on since. -/
def FilledSince (start : DraftController) (events : List DraftEvent) (c p : DraftController)
    (fill : PreparedMessageInput) : Prop :=
  ∃ before during, events = before ++ .reconcilePreparedMessage fill :: during ∧
    Run step (fun _ _ => True) start before p ∧ fills (p.reconcilePreparedMessage fill).1 = true ∧
    Run step inEpisode (p.reconcilePreparedMessage fill).2 during c

/-- What an episode remembers is what its fill found and put there. -/
structure Remembers (start : DraftController) (events : List DraftEvent) (c : DraftController) : Prop where
  read : c.draft.needsRevalidation = false
  active : c.draft.hasAutofill = true → c.draft.preparedEpisodeActive = true
  filled : c.draft.hasAutofill = true → ∃ p fill, FilledSince start events c p fill ∧
    c.draft.autofilled = (fill.summary, fill.description) ∧ c.draft.prePrepared = p.draft.box

theorem FilledSince.next {p : DraftController} {fill : PreparedMessageInput} {event : DraftEvent}
    (h : FilledSince start events c p fill) (hActive : c.draft.preparedEpisodeActive = true)
    (hStep : c.step event = some c') : FilledSince start (events ++ [event]) c' p fill := by
  obtain ⟨before, during, rfl, hBefore, hFills, hDuring⟩ := h
  refine ⟨before, during ++ [event], ?_, hBefore, hFills, hDuring.next hActive hStep⟩
  rw [List.append_assoc, List.cons_append]

theorem noEpisode_open {prefs : DraftPrefs} (h : (DraftController.open prefs).draft.preparedEpisodeActive = false) :
    (DraftController.open prefs).draft.NoEpisode := by
  have hDraft : (DraftController.open prefs).draft = .read prefs := by
    unfold DraftController.open
    simp only
    split
    · exact draft_persist _
    · rfl
  rw [hDraft] at h ⊢
  exact WorkingCopyDraft.noEpisode_read h

theorem remembers_start (h : start.draft.NoEpisode) : Remembers start [] start where
  read := (congrArg WorkingCopyDraft.needsRevalidation h).symm
  active hHas := by
    rw [← h] at hHas
    cases hHas
  filled hHas := by
    rw [← h] at hHas
    cases hHas

theorem Remembers.same {event : DraftEvent} (h : Remembers start events c) (hSame : SameEpisode c.draft c'.draft)
    (hStep : c.step event = some c') : Remembers start (events ++ [event]) c' where
  read := hSame.needsRevalidation.trans h.read
  active hHas := hSame.active.trans (h.active (hSame.hasAutofill ▸ hHas))
  filled hHas := by
    have hBefore : c.draft.hasAutofill = true := hSame.hasAutofill ▸ hHas
    obtain ⟨p, fill, hSince, hAutofilled, hPrePrepared⟩ := h.filled hBefore
    exact ⟨p, fill, hSince.next (h.active hBefore) hStep, hSame.autofilled.trans hAutofilled,
      hSame.prePrepared.trans hPrePrepared⟩

theorem Remembers.none (hRead : c.draft.needsRevalidation = false) (hNone : c.draft.hasAutofill = false) :
    Remembers start events c where
  read := hRead
  active hHas := absurd (hNone.symm.trans hHas) Bool.false_ne_true
  filled hHas := absurd (hNone.symm.trans hHas) Bool.false_ne_true

theorem Remembers.reconcile {input : PreparedMessageInput} (h : Remembers start events c)
    (hRun : Run step (fun _ _ => True) start events c)
    (hStep : c.step (.reconcilePreparedMessage input) = some (c.reconcilePreparedMessage input).2) :
    Remembers start (events ++ [.reconcilePreparedMessage input]) (c.reconcilePreparedMessage input).2 := by
  have hAdvances := advances h.read input
  generalize hAction : (c.reconcilePreparedMessage input).1 = action at hAdvances
  cases hAdvances with
  | waits _ hSame => exact h.same hSame hStep
  | starts _ hInactive hAutofill hRead =>
    have hNone : c.draft.hasAutofill = false := by
      cases hHas : c.draft.hasAutofill with
      | false => rfl
      | true => exact absurd (hInactive.symm.trans (h.active hHas)) Bool.false_ne_true
    exact .none hRead (hAutofill.trans hNone)
  | fills _ _ hGoesOn _ hAutofilled hBefore hRead =>
    have hFills : fills (c.reconcilePreparedMessage input).1 = true := by
      rw [hAction]
      rfl
    refine ⟨hRead, fun _ => hGoesOn, fun _ => ⟨c, input, ?_, hAutofilled, hBefore⟩⟩
    exact ⟨events, [], rfl, hRun, hFills, .start _⟩
  | keeps _ hAutofill _ hRead => exact .none hRead hAutofill
  | ends _ hAutofill _ hRead => exact .none hRead hAutofill

theorem step_reconcile {input : PreparedMessageInput} (hStep : c.step (.reconcilePreparedMessage input) = some c') :
    c' = (c.reconcilePreparedMessage input).2 := by
  have hMounted := mounted_of_step hStep rfl
  rw [step, hMounted] at hStep
  exact (Option.some.inj hStep).symm

theorem remembers (hNone : start.draft.NoEpisode) (h : Run step (fun _ _ => True) start events c) :
    Remembers start events c := by
  induction h with
  | start => exact remembers_start hNone
  | @next m c' events event hRun _ hStep ih =>
    by_cases hReconcile : ∃ input, event = .reconcilePreparedMessage input
    · obtain ⟨input, rfl⟩ := hReconcile
      obtain rfl := step_reconcile hStep
      exact ih.reconcile hRun hStep
    · obtain hReset | hSame := dropped_of_step hStep fun input hEvent => hReconcile ⟨input, hEvent⟩
      · exact .none (by rw [hReset]) (by rw [hReset])
      · exact ih.same hSame hStep

/-- Filled, and not read back from disk. -/
def Spent (c : DraftController) : Prop :=
  c.draft.needsRevalidation = false ∧ (c.draft.preparedEpisodeActive = true → c.draft.preparedFilled = true)

theorem Spent.step {event : DraftEvent} (h : c.Spent) (hActive : inEpisode c event) (hStep : c.step event = some c') :
    c'.Spent := by
  by_cases hReconcile : ∃ input, event = .reconcilePreparedMessage input
  · obtain ⟨input, rfl⟩ := hReconcile
    obtain rfl := step_reconcile hStep
    have hAdvances := advances h.1 input
    generalize (c.reconcilePreparedMessage input).1 = action at hAdvances
    cases hAdvances with
    | waits _ hSame => exact ⟨hSame.needsRevalidation.trans h.1, fun _ => hSame.filled.trans (h.2 hActive)⟩
    | starts _ hInactive => exact absurd (hInactive.symm.trans hActive) Bool.false_ne_true
    | fills _ _ _ hFilled _ _ hRead => exact ⟨hRead, fun _ => hFilled⟩
    | keeps _ _ hFilled hRead => exact ⟨hRead, fun _ => hFilled⟩
    | ends _ _ hInactive hRead =>
      exact ⟨hRead, fun hGoesOn => absurd (hInactive.symm.trans hGoesOn) Bool.false_ne_true⟩
  · obtain hReset | hSame := dropped_of_step hStep fun input hEvent => hReconcile ⟨input, hEvent⟩
    · refine ⟨by rw [hReset], fun hGoesOn => ?_⟩
      rw [hReset] at hGoesOn
      cases hGoesOn
    · exact ⟨hSame.needsRevalidation.trans h.1, fun _ => hSame.filled.trans (h.2 hActive)⟩

/-- An episode that was not read back from disk fills the box once. -/
theorem filled_once {p m : DraftController} {fill : PreparedMessageInput} {during : List DraftEvent}
    (hRead : p.draft.needsRevalidation = false) (hFills : fills (p.reconcilePreparedMessage fill).1 = true)
    (h : Run step inEpisode (p.reconcilePreparedMessage fill).2 during m) (input : PreparedMessageInput) :
    fills (m.reconcilePreparedMessage input).1 = false := by
  have hAdvances := advances hRead fill
  have hSpent : (p.reconcilePreparedMessage fill).2.Spent := by
    generalize (p.reconcilePreparedMessage fill).1 = action at hAdvances hFills
    cases hAdvances with
    | fills _ _ _ hFilled _ _ hRead => exact ⟨hRead, fun _ => hFilled⟩
    | waits hAction | starts hAction | keeps hAction | ends hAction =>
      rw [hAction] at hFills
      cases hFills
  have hLast : m.Spent := h.invariant hSpent fun _ _ _ hBefore hActive hStep => hBefore.step hActive hStep
  have hNext := advances hLast.1 input
  generalize (m.reconcilePreparedMessage input).1 = action at hNext ⊢
  cases hNext with
  | fills hActive hEmpty => exact absurd (hEmpty.symm.trans (hLast.2 hActive)) Bool.false_ne_true
  | waits hAction | starts hAction | keeps hAction | ends hAction => exact hAction

/-- In every run from a draft with no episode: the box changes in five ways, goes back to what it
held before the fill and only where the fill is untouched, is filled over nothing the user has
not agreed to lose, and is filled once in an episode. -/
theorem merge_keeps_words (hNone : start.draft.NoEpisode) (h : Run step (fun _ _ => True) start events c)
    (input : PreparedMessageInput) :
    ((c.reconcilePreparedMessage input).2.draft.box = c.draft.box ∨
      fills (c.reconcilePreparedMessage input).1 = true ∨
      (c.reconcilePreparedMessage input).1 = .restoreAndEnd ∨ (c.reconcilePreparedMessage input).1 = .clearAndEnd ∨
      (c.reconcilePreparedMessage input).1 = .cancelAmendAndStart ∧ c.draft.amending = true ∧
        (c.reconcilePreparedMessage input).2.draft.box = c.draft.preAmend) ∧
    ((c.reconcilePreparedMessage input).1 = .restoreAndEnd →
      ∃ p fill, FilledSince start events c p fill ∧ c.draft.box = (fill.summary, fill.description) ∧
        (c.reconcilePreparedMessage input).2.draft.box = p.draft.box) ∧
    (fills (c.reconcilePreparedMessage input).1 = true → input.overwrite = false → c.draft.Blank) ∧
    (fills (c.reconcilePreparedMessage input).1 = true →
      ∀ during m, Run step inEpisode (c.reconcilePreparedMessage input).2 during m →
        ∀ again, fills (m.reconcilePreparedMessage again).1 = false) := by
  have hRemembers := remembers hNone h
  refine ⟨box_reconcile c input, fun hAction => ?_, blank_of_fills, ?_⟩
  · obtain ⟨hHas, hUntouched, hRestored⟩ := restores hAction
    obtain ⟨p, fill, hSince, hAutofilled, hPrePrepared⟩ := hRemembers.filled hHas
    exact ⟨p, fill, hSince, hUntouched.trans hAutofilled, hRestored.trans hPrePrepared⟩
  · intro hFills during m hDuring again
    exact filled_once hRemembers.read hFills hDuring again

/-- What the session knows of a merge whose message overwrites the box. -/
def mergeInput (pending : Bool) (reply : PreparedReplyStatus) : PreparedMessageInput where
  pending := pending
  reply := reply
  summary := utf16 "Merge branch"
  description := []
  raw := utf16 "Merge branch"
  head := utf16 "deadbeef"
  overwrite := true
  lastErrorPresent := true

/-- The box is filled over what was typed, and the merge is aborted. -/
def abortedMerge : List DraftEvent :=
  [.updateSummary (utf16 "mine"), .reconcilePreparedMessage (mergeInput true .none),
    .reconcilePreparedMessage (mergeInput true .message), .reconcilePreparedMessage (mergeInput false .none)]

/-- What was typed comes back. -/
theorem aborted_merge_keeps_words : ∃ c, Run step (fun _ _ => True) (.open {}) abortedMerge c ∧
    c.draft.box = (utf16 "Merge branch", []) ∧
    (c.reconcilePreparedMessage (mergeInput false .none)).1 = .restoreAndEnd ∧
    (c.reconcilePreparedMessage (mergeInput false .none)).2.draft.box = (utf16 "mine", []) ∧
    ∃ p fill, FilledSince (.open {}) abortedMerge c p fill ∧ p.draft.box = (utf16 "mine", []) := by
  have h (c) (hc : abortedMerge.foldlM step (.open {}) = some c) :
      Run step (fun _ _ => True) (.open {}) abortedMerge c := .of_foldlM hc
  obtain ⟨c, hc, hBox, hAction, hRestored⟩ : ∃ c, abortedMerge.foldlM step (DraftController.open {}) = some c ∧
      c.draft.box = (utf16 "Merge branch", []) ∧
      (c.reconcilePreparedMessage (mergeInput false .none)).1 = .restoreAndEnd ∧
      (c.reconcilePreparedMessage (mergeInput false .none)).2.draft.box = (utf16 "mine", []) :=
    ⟨_, rfl, rfl, rfl, rfl⟩
  have hNone : (DraftController.open {}).draft.NoEpisode := noEpisode_open rfl
  obtain ⟨p, fill, hSince, -, hBefore⟩ := (merge_keeps_words hNone (h c hc) (mergeInput false .none)).2.1 hAction
  exact ⟨c, h c hc, hBox, hAction, hRestored, p, fill, hSince, hBefore.symm.trans hRestored⟩

end Runs

end DraftController

end GitBranchManager
