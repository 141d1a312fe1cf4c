import GitBranchManager.Draft.DraftSteps

/-! # What is on disk when no write runs -/

namespace GitBranchManager

open Library

namespace WorkingCopyDraft

theorem flag_of_isFlag {text : Utf16} (h : isFlag text = true) : flag (text == utf16 "1") = text := by
  rw [isFlag, Bool.or_eq_true, beq_iff_eq, beq_iff_eq] at h
  rcases h with rfl | rfl
  · rfl
  · rfl

theorem readMessage_message (d : WorkingCopyDraft) :
    (readMessage d.message).summary = d.summary ∧ (readMessage d.message).description = d.description := by
  rw [message]
  split
  · rename_i hEmpty
    rw [Bool.and_eq_true, List.isEmpty_iff, List.isEmpty_iff] at hEmpty
    exact ⟨hEmpty.1.symm, hEmpty.2.symm⟩
  · exact ⟨rfl, rfl⟩

theorem active_of_storedEpisode {d : WorkingCopyDraft} {episode : List Utf16} (h : d.storedEpisode = some episode) :
    d.preparedEpisodeActive = true := by
  rw [storedEpisode] at h
  split at h
  · rename_i hBoth
    exact (Bool.and_eq_true _ _ ▸ hBoth).1
  · cases h

section Read

variable (prefs : DraftPrefs)

theorem withEpisode_frame (episode : Option (List Utf16)) (d : WorkingCopyDraft) :
    (withEpisode episode d).summary = d.summary ∧ (withEpisode episode d).description = d.description ∧
      (withEpisode episode d).pendingCommitHead = d.pendingCommitHead ∧
      (withEpisode episode d).pendingCommitHeadKnown = d.pendingCommitHeadKnown := by
  rw [withEpisode.eq_def]
  split
  · split
    · exact ⟨rfl, rfl, rfl, rfl⟩
    · exact ⟨rfl, rfl, rfl, rfl⟩
  · exact ⟨rfl, rfl, rfl, rfl⟩

theorem withPendingCommit_frame (marker : Option (List Utf16)) (d : WorkingCopyDraft) :
    (withPendingCommit marker d).summary = d.summary ∧ (withPendingCommit marker d).description = d.description ∧
      (withPendingCommit marker d).preparedEpisodeActive = d.preparedEpisodeActive := by
  rw [withPendingCommit.eq_def]
  split
  · split
    · exact ⟨rfl, rfl, rfl⟩
    · exact ⟨rfl, rfl, rfl⟩
  · exact ⟨rfl, rfl, rfl⟩

theorem readMessage_plain (stored : Option (List Utf16)) :
    (readMessage stored).preparedEpisodeActive = false ∧ (readMessage stored).pendingCommitHead = none := by
  rw [readMessage.eq_def]
  split
  · exact ⟨rfl, rfl⟩
  · exact ⟨rfl, rfl⟩

theorem read_message : (read prefs).summary = (readMessage prefs.draft).summary ∧
    (read prefs).description = (readMessage prefs.draft).description := by
  obtain ⟨hSummary, hDescription, -⟩ := withEpisode_frame prefs.episode
    (withPendingCommit prefs.pendingCommit (readMessage prefs.draft))
  obtain ⟨hSummary', hDescription', -⟩ := withPendingCommit_frame prefs.pendingCommit (readMessage prefs.draft)
  exact ⟨hSummary.trans hSummary', hDescription.trans hDescription'⟩

/-- An episode that is read is the one on disk. -/
theorem read_episode (h : (read prefs).preparedEpisodeActive = true) :
    (read prefs).storedEpisode = prefs.episode := by
  have hPlain : (withPendingCommit prefs.pendingCommit (readMessage prefs.draft)).preparedEpisodeActive = false :=
    (withPendingCommit_frame _ _).2.2.trans (readMessage_plain _).1
  rw [read, withEpisode.eq_def] at h ⊢
  split at h
  · split at h
    · rename_i hEpisode hFlag
      rw [hEpisode]
      simp only [hFlag, if_true, storedEpisode, episode, flag_of_isFlag hFlag, Bool.and_self]
    · rw [hPlain] at h
      cases h
  · rw [hPlain] at h
    cases h

/-- A marker that is read is the one on disk. -/
theorem read_marker {head : Utf16} (h : (read prefs).pendingCommitHead = some head) :
    prefs.pendingCommit = some (marker head (read prefs).pendingCommitHeadKnown) := by
  obtain ⟨-, -, hHead, hKnown⟩ := withEpisode_frame prefs.episode
    (withPendingCommit prefs.pendingCommit (readMessage prefs.draft))
  rw [read, hHead] at h
  rw [read, hKnown]
  rw [withPendingCommit.eq_def] at h ⊢
  split at h
  · split at h
    · rename_i hMarker hFlag
      rw [hMarker]
      obtain rfl := Option.some.inj h
      simp only [hFlag, if_true, marker, flag_of_isFlag hFlag]
    · rw [(readMessage_plain _).2] at h
      cases h
  · rw [(readMessage_plain _).2] at h
    cases h

end Read

end WorkingCopyDraft

namespace DraftController

def MessageStored (c : DraftController) : Prop :=
  (WorkingCopyDraft.readMessage c.prefs.draft).summary = c.draft.summary ∧
    (WorkingCopyDraft.readMessage c.prefs.draft).description = c.draft.description

/-- The disk holds the message, the episode and the marker of the draft. -/
structure Stored (c : DraftController) : Prop where
  message : MessageStored c
  episode : c.prefs.episode = c.draft.storedEpisode
  marker : c.prefs.pendingCommit = c.draft.storedMarker

/-- What the flags say of a key holds once the write that runs is done. -/
structure Flags (c : DraftController) : Prop where
  mounted : c.mounted = true
  episode : c.episodeOnDisk = false → c.bound .episode = none
  marker : c.markerOnDisk = false → c.bound .pendingCommit = none
  trusted : c.markerOnDisk = true → ∀ head, c.markerHead = some head → c.draft.pendingCommitHead = some head →
    c.bound .pendingCommit = some (WorkingCopyDraft.marker head c.draft.pendingCommitHeadKnown)

/-- Unless another round follows, each key holds the draft's own value from its write on. -/
structure DraftInv (c : DraftController) : Prop extends Flags c where
  idle : c.inFlight = none → c.dirty = false ∧ Stored c
  writesEpisode : ∀ value, c.inFlight = some ⟨.episode, value⟩ → c.dirty = false → value = c.draft.storedEpisode
  writesDraft : ∀ value, c.inFlight = some ⟨.draft, value⟩ → c.dirty = false →
    value = c.draft.message ∧ c.prefs.episode = c.draft.storedEpisode
  writesMarker : ∀ value, c.inFlight = some ⟨.pendingCommit, value⟩ → c.dirty = false →
    value = c.draft.storedMarker ∧ c.prefs.episode = c.draft.storedEpisode ∧ MessageStored c

variable {c : DraftController}

/-- What the draft has to say for a key. -/
def own (d : WorkingCopyDraft) : DraftKey → Option (List Utf16)
  | .episode => d.storedEpisode
  | .draft => d.message
  | .pendingCommit => d.storedMarker

/-- What a round has stored when it writes a key. -/
def StoredBefore (c : DraftController) : DraftKey → Prop
  | .episode => True
  | .draft => c.prefs.episode = c.draft.storedEpisode
  | .pendingCommit => c.prefs.episode = c.draft.storedEpisode ∧ MessageStored c

theorem Flags.writing (h : Flags c) {write : DraftWrite} (hFlight : c.inFlight = some write)
    (hOwn : c.dirty = false → write.value = own c.draft write.key ∧ StoredBefore c write.key) : DraftInv c := by
  have hSame {other : DraftWrite} (hOther : c.inFlight = some other) : write = other :=
    Option.some.inj (hFlight.symm.trans hOther)
  refine ⟨h, fun hIdle => ?_, fun value hOther hClean => ?_, fun value hOther hClean => ?_,
    fun value hOther hClean => ?_⟩
  · cases hFlight.symm.trans hIdle
  · obtain rfl := hSame hOther
    exact (hOwn hClean).1
  · obtain rfl := hSame hOther
    exact hOwn hClean
  · obtain rfl := hSame hOther
    exact hOwn hClean

theorem Flags.resting (h : Flags c) (hIdle : c.inFlight = none) (hClean : c.dirty = false) (hStored : Stored c) :
    DraftInv c := by
  have hNone {write : DraftWrite} (hFlight : c.inFlight = some write) : False := by
    cases hIdle.symm.trans hFlight
  exact ⟨h, fun _ => ⟨hClean, hStored⟩, fun _ hFlight => (hNone hFlight).elim,
    fun _ hFlight => (hNone hFlight).elim, fun _ hFlight => (hNone hFlight).elim⟩

/-- The flags speak of the bound episode and marker only. -/
theorem Flags.move (h : Flags c) {prefs : DraftPrefs} {inFlight : Option DraftWrite} {dirty : Bool}
    {waiting : List SubmittedCommit} {completed : List (SubmittedCommit × Option (List Utf16))}
    (hBound : ∀ key, key ≠ .draft →
      ({ c with prefs, inFlight, dirty, waiting, completed } : DraftController).bound key = c.bound key) :
    Flags { c with prefs, inFlight, dirty, waiting, completed } :=
  ⟨h.mounted, fun hGone => (hBound .episode (by decide)).trans (h.episode hGone),
    fun hGone => (hBound .pendingCommit (by decide)).trans (h.marker hGone),
    fun hThere head hHead hPending =>
      (hBound .pendingCommit (by decide)).trans (h.trusted hThere head hHead hPending)⟩

theorem Flags.writeDraft (h : Flags c) (hQuiet : ∀ key, c.bound key = c.prefs.get key)
    (hEpisode : c.dirty = false → c.prefs.episode = c.draft.storedEpisode) : DraftInv c.writeDraft := by
  have hFlags : Flags c.writeDraft := h.move fun key hKey => by
    rw [hQuiet, bound]
    exact if_neg hKey
  exact hFlags.writing rfl fun hClean => ⟨rfl, hEpisode hClean⟩

theorem Flags.startRound (h : Flags c) (hQuiet : ∀ key, c.bound key = c.prefs.get key) : DraftInv c.startRound := by
  obtain ⟨onDisk, write, hEq, hWrite⟩ := startRound_eq c
  rcases hWrite with ⟨rfl, rfl⟩ | ⟨rfl, hNow, hOnDisk, hNone⟩
  · have hMarker : c.startRound.bound .pendingCommit = c.bound .pendingCommit := by
      rw [hQuiet, hEq]
      rfl
    rw [hEq] at hMarker ⊢
    have hFlags : Flags { c with
        dirty := false
        episodeOnDisk := c.draft.storedEpisode.isSome
        inFlight := some ⟨.episode, c.draft.storedEpisode⟩ } :=
      ⟨h.mounted, fun hGone => Option.isNone_iff_eq_none.mp (Option.isSome_eq_false_iff.mp hGone),
        fun hGone => hMarker.trans (h.marker hGone),
        fun hThere head hHead hPending => hMarker.trans (h.trusted hThere head hHead hPending)⟩
    exact hFlags.writing rfl fun _ => ⟨rfl, trivial⟩
  · obtain rfl := hNow.trans hOnDisk.symm
    have hEpisode : c.prefs.episode = none := (hQuiet .episode).symm.trans (h.episode hOnDisk)
    have hClean : Flags { c with dirty := false } := h.move fun _ _ => rfl
    rw [hEq]
    exact hClean.writeDraft hQuiet fun _ => hEpisode.trans hNone.symm

theorem Flags.persist (h : Flags c) : DraftInv c.persist := by
  rcases persist_cases c with ⟨⟨write, hFlight⟩, hEq⟩ | ⟨hIdle, hEq⟩
  · have hDirty : Flags { c with dirty := true } := h.move fun _ _ => rfl
    rw [hEq]
    exact hDirty.writing hFlight fun hClean => absurd hClean (by simp)
  · rw [hEq]
    exact h.startRound (bound_of_idle hIdle)

theorem DraftInv.edits {c' : DraftController} (h : DraftInv c) (hEdits : Edits c c') : DraftInv c' := by
  induction hEdits with
  | none => exact h
  | @quiet c' d _ hSame ih =>
    have hMessage : MessageStored c' → MessageStored (c'.setDraft d) := fun hStored =>
      ⟨hStored.1.trans hSame.summary.symm, hStored.2.trans hSame.description.symm⟩
    refine ⟨⟨ih.mounted, ih.episode, ih.marker, fun hThere head hHead hPending => ?_⟩, fun hIdle => ?_,
      fun value hFlight hClean => ?_, fun value hFlight hClean => ?_, fun value hFlight hClean => ?_⟩
    · rw [show (c'.setDraft d).draft = d from rfl, hSame.headKnown]
      exact ih.trusted hThere head hHead (hSame.head.symm.trans hPending)
    · obtain ⟨hClean, hStored⟩ := ih.idle hIdle
      exact ⟨hClean, hMessage hStored.message, hStored.episode.trans hSame.episode.symm,
        hStored.marker.trans hSame.marker.symm⟩
    · exact (ih.writesEpisode value hFlight hClean).trans hSame.episode.symm
    · obtain ⟨hValue, hEpisode⟩ := ih.writesDraft value hFlight hClean
      exact ⟨hValue.trans hSame.message.symm, hEpisode.trans hSame.episode.symm⟩
    · obtain ⟨hValue, hEpisode, hStored⟩ := ih.writesMarker value hFlight hClean
      exact ⟨hValue.trans hSame.marker.symm, hEpisode.trans hSame.episode.symm, hMessage hStored⟩
  | @saved c' d _ hHead hKnown ih =>
    refine Flags.persist ⟨ih.mounted, ih.episode, ih.marker, fun hThere head hMarker hPending => ?_⟩
    rw [show (c'.setDraft d).draft = d from rfl, hKnown]
    exact ih.trusted hThere head hMarker (hHead.symm.trans hPending)

theorem DraftInv.settles {c' : DraftController} (h : DraftInv c) (hSettles : Settles c c') : DraftInv c' := by
  cases hSettles with
  | none => exact h
  | cleared d hHead =>
    refine Flags.persist ⟨h.mounted, h.episode, h.marker, fun _ head _ hPending => ?_⟩
    rw [show d.pendingCommitHead = some head from hPending] at hHead
    cases hHead

theorem DraftInv.submitted (h : DraftInv c) {seq : Int} {head : Utf16} {headKnown : Bool}
    (hTrusted : c.markerOnDisk = true → c.markerHead = some head →
      c.bound .pendingCommit = some (WorkingCopyDraft.marker head headKnown)) :
    DraftInv (c.commitSubmitted seq head headKnown) := by
  have hSaved := Flags.persist (c := c.setDraft
    { c.draft with
      pendingCommitSeq := some seq
      pendingCommitHead := some head
      pendingCommitHeadKnown := headKnown
      pendingCommitFromDisk := false })
    ⟨h.mounted, h.episode, h.marker, fun hThere other hMarker hPending => by
      obtain rfl := Option.some.inj hPending
      exact hTrusted hThere hMarker⟩
  exact ⟨⟨hSaved.mounted, hSaved.episode, hSaved.marker, hSaved.trusted⟩, fun hIdle =>
    ⟨(hSaved.idle hIdle).1, (hSaved.idle hIdle).2.message, (hSaved.idle hIdle).2.episode, (hSaved.idle hIdle).2.marker⟩,
    hSaved.writesEpisode, hSaved.writesDraft, hSaved.writesMarker⟩

section Writes

/-- Nothing is being written and every value that was written is stored. -/
theorem Flags.finish (h : Flags c) (hQuiet : ∀ key, c.bound key = c.prefs.get key) (hClean : c.dirty = false)
    (hStored : Stored c) : DraftInv c.finish := by
  have hFlags : Flags c.finish := h.move fun key _ => (hQuiet key).symm
  exact hFlags.resting rfl hClean ⟨hStored.message, hStored.episode, hStored.marker⟩

theorem Flags.endRound (h : Flags c) (hQuiet : ∀ key, c.bound key = c.prefs.get key)
    (hStored : c.dirty = false → Stored c) : DraftInv c.endRound := by
  rw [DraftController.endRound, h.mounted, Bool.true_and]
  split
  · exact h.startRound hQuiet
  · rename_i hClean
    have hClean : c.dirty = false := Bool.eq_false_iff.mpr hClean
    exact h.finish hQuiet hClean (hStored hClean)

theorem Flags.writeMarker (h : Flags c) (hQuiet : ∀ key, c.bound key = c.prefs.get key)
    (hStored : c.dirty = false → c.prefs.episode = c.draft.storedEpisode ∧ MessageStored c) :
    DraftInv c.writeMarker := by
  have hEpisode (hGone : c.episodeOnDisk = false) : c.prefs.episode = none :=
    (hQuiet .episode).symm.trans (h.episode hGone)
  rw [DraftController.writeMarker]
  split
  · rename_i head hHead
    have hMarker : c.draft.storedMarker = some (WorkingCopyDraft.marker head c.draft.pendingCommitHeadKnown) := by
      rw [WorkingCopyDraft.storedMarker, hHead, Option.map_some]
    split
    · refine Flags.writing ⟨h.mounted, hEpisode, fun hGone => absurd hGone (by simp), fun _ other hOther _ => ?_⟩ rfl
        fun hClean => ⟨hMarker.symm, hStored hClean⟩
      obtain rfl := Option.some.inj hOther
      rfl
    · rename_i hSkip
      simp only [Bool.or_eq_true, Bool.not_eq_true', bne_iff_ne, not_or, Bool.not_eq_false, ne_eq, not_not] at hSkip
      have hThere := (hQuiet .pendingCommit).symm.trans (h.trusted hSkip.1 head hSkip.2 hHead)
      exact h.endRound hQuiet fun hClean =>
        ⟨(hStored hClean).2, (hStored hClean).1, hThere.trans hMarker.symm⟩
  · rename_i hHead
    have hMarker : c.draft.storedMarker = none := by
      rw [WorkingCopyDraft.storedMarker, hHead, Option.map_none]
    split
    · exact Flags.writing ⟨h.mounted, hEpisode, fun _ => rfl, fun hThere => absurd hThere (by simp)⟩ rfl
        fun hClean => ⟨hMarker.symm, hStored hClean⟩
    · rename_i hGone
      have hNone := (hQuiet .pendingCommit).symm.trans (h.marker (Bool.eq_false_iff.mpr hGone))
      exact h.endRound hQuiet fun hClean =>
        ⟨(hStored hClean).2, (hStored hClean).1, hNone.trans hMarker.symm⟩

theorem DraftInv.writeDone {c' : DraftController} (h : DraftInv c) (hDone : c.writeDone true = some c') :
    DraftInv c' := by
  rw [DraftController.writeDone] at hDone
  split at hDone
  · cases hDone
  · rename_i write hFlight
    rw [if_pos rfl] at hDone
    obtain rfl := Option.some.inj hDone
    have hBound := bound_stored hFlight
    have hQuiet (key : DraftKey) : ({ c with prefs := c.prefs.store write } : DraftController).bound key =
        (c.prefs.store write).get key := (hBound key).trans (bound_of_write hFlight key)
    have hFlags : Flags { c with prefs := c.prefs.store write } := h.move fun key _ => hBound key
    rcases write with ⟨key, value⟩
    cases key with
    | episode =>
      rw [DraftController.afterWrite, if_pos h.mounted]
      exact hFlags.writeDraft hQuiet (h.writesEpisode value hFlight)
    | draft =>
      rw [DraftController.afterWrite, if_pos h.mounted]
      refine hFlags.writeMarker hQuiet fun hClean => ?_
      obtain ⟨rfl, hEpisode⟩ := h.writesDraft value hFlight hClean
      exact ⟨hEpisode, WorkingCopyDraft.readMessage_message c.draft⟩
    | pendingCommit =>
      refine hFlags.endRound hQuiet fun hClean => ?_
      obtain ⟨hValue, hEpisode, hMessage⟩ := h.writesMarker value hFlight hClean
      exact ⟨hMessage, hEpisode, hValue⟩

end Writes

theorem draftInv_open (prefs : DraftPrefs) : DraftInv (DraftController.open prefs) := by
  have hFlags : Flags
      { draft := WorkingCopyDraft.read prefs, prefs
        episodeOnDisk := prefs.episode.isSome
        markerOnDisk := prefs.pendingCommit.isSome
        markerHead := (WorkingCopyDraft.read prefs).pendingCommitHead } := by
    refine ⟨rfl, fun hGone => ?_, fun hGone => ?_, fun _ head hHead _ => WorkingCopyDraft.read_marker prefs hHead⟩
    · exact Option.isSome_eq_false_iff.mp hGone |> Option.isNone_iff_eq_none.mp
    · exact Option.isSome_eq_false_iff.mp hGone |> Option.isNone_iff_eq_none.mp
  rw [DraftController.open]
  simp only
  split
  · exact hFlags.persist
  · rename_i hWell
    simp only [Bool.or_eq_true, Bool.and_eq_true, not_or, not_and, Bool.not_eq_true', Bool.not_eq_false,
      Option.isNone_iff_eq_none] at hWell
    refine hFlags.resting rfl rfl ⟨WorkingCopyDraft.read_message prefs |>.imp Eq.symm Eq.symm, ?_, ?_⟩
    · cases hEpisode : prefs.episode with
      | some episode =>
        exact (hEpisode ▸ WorkingCopyDraft.read_episode prefs (hWell.1 (by rw [hEpisode]; rfl))).symm
      | none =>
        refine (Option.eq_none_iff_forall_ne_some.mpr fun episode hStored => ?_).symm
        have hRead := WorkingCopyDraft.read_episode prefs (WorkingCopyDraft.active_of_storedEpisode hStored)
        cases hEpisode.symm.trans (hRead.symm.trans hStored)
    · rw [WorkingCopyDraft.storedMarker]
      cases hHead : (WorkingCopyDraft.read prefs).pendingCommitHead with
      | some head => exact WorkingCopyDraft.read_marker prefs hHead
      | none => exact Option.not_isSome_iff_eq_none.mp fun hThere => hWell.2 hThere hHead

/-- No write fails and the controller stays; a submit finds the marker that counts as stored for
its head to be its own. -/
def KeepsMarker (c : DraftController) : DraftEvent → Prop
  | .commitSubmitted _ head headKnown => c.markerOnDisk = true → c.markerHead = some head →
      c.bound .pendingCommit = some (WorkingCopyDraft.marker head headKnown)
  | .writeDone ok => ok = true
  | .dispose => False
  | _ => True

theorem DraftInv.step {c' : DraftController} (h : DraftInv c) {event : DraftEvent} (hOk : KeepsMarker c event)
    (hStep : c.step event = some c') : DraftInv c' := by
  cases event with
  | updateSummary | updateDescription | beginAmend | applyAmendedMessage | cancelAmend | reconcilePreparedMessage =>
    exact h.edits (edits_of_step hStep rfl)
  | commitSubmitted seq head headKnown =>
    rw [DraftController.step, h.mounted] at hStep
    exact Option.some.inj hStep ▸ h.submitted hOk
  | settleCommit outcomeSeq lastSucceeded refsLoaded head =>
    rw [DraftController.step, h.mounted] at hStep
    exact Option.some.inj hStep ▸ h.settles (settles_settleCommit _ _ _ _ _)
  | commitLanded =>
    rw [DraftController.step, h.mounted] at hStep
    exact Option.some.inj hStep ▸ h.settles (settles_commitLanded c)
  | commitAbandoned =>
    rw [DraftController.step, h.mounted] at hStep
    exact Option.some.inj hStep ▸ h.settles (settles_commitAbandoned c)
  | reset =>
    rw [DraftController.step, h.mounted] at hStep
    exact Option.some.inj hStep ▸ h.settles (.cleared {} rfl)
  | writeDone ok =>
    obtain rfl : ok = true := hOk
    exact h.writeDone hStep
  | dispose => exact hOk.elim

/-- In every run in which the submits keep the marker, from any contents of the disk. -/
theorem draft_stored_when_idle {prefs : DraftPrefs} {events : List DraftEvent}
    (hRun : Run step KeepsMarker (DraftController.open prefs) events c) (hIdle : c.inFlight = none) : Stored c :=
  ((hRun.invariant (draftInv_open prefs) fun _ _ _ h hOk hStep => h.step hOk hStep).idle hIdle).2

/-- On a branch without a commit: the second submit knows that there is no head, and the marker on
disk still says it was not known. -/
def submittedTwice : List DraftEvent :=
  [.commitSubmitted 0 [] false, .writeDone true, .writeDone true, .commitSubmitted 1 [] true, .writeDone true]

/-- No write fails and the controller stays. -/
def goesWell : DraftEvent → Bool
  | .writeDone ok => ok
  | .dispose => false
  | _ => true

theorem submittedTwice_stale_marker : ¬ ∀ prefs events c,
    Run step (fun _ event => goesWell event = true) (DraftController.open prefs) events c →
      c.inFlight = none → Stored c := by
  intro h
  obtain ⟨c, hc, hIdle, hDisk, hDraft⟩ : ∃ c, submittedTwice.foldlM step (DraftController.open {}) = some c ∧
      c.inFlight = none ∧ c.prefs.pendingCommit = some [[], utf16 "0"] ∧
      c.draft.storedMarker = some [[], utf16 "1"] := ⟨_, rfl, rfl, rfl, rfl⟩
  have hWell : ∀ event ∈ submittedTwice, goesWell event = true := by decide
  have hStored := h {} submittedTwice c ((Run.of_foldlM hc).admitted fun event hEvent _ => hWell event hEvent) hIdle
  cases hDisk.symm.trans (hStored.marker.trans hDraft)

theorem draft_stored_when_idle_edited : ∃ c : DraftController,
    c.draft.summary = utf16 "fix" ∧ c.draft.pendingCommitHead = some (utf16 "deadbeef") ∧ Stored c := by
  have hStart : Run step KeepsMarker (DraftController.open {}) [] (DraftController.open {}) := .start _
  have hEdit := hStart.next (show KeepsMarker _ (.updateSummary (utf16 "fix")) from trivial) rfl
  have hSubmit := hEdit.next (show KeepsMarker _ (.commitSubmitted 0 (utf16 "deadbeef") true) from
    fun hOnDisk => absurd hOnDisk (by decide)) rfl
  have hFirst := hSubmit.next (show KeepsMarker _ (.writeDone true) from rfl) rfl
  have hMarker := hFirst.next (show KeepsMarker _ (.writeDone true) from rfl) rfl
  have hSecond := hMarker.next (show KeepsMarker _ (.writeDone true) from rfl) rfl
  exact ⟨_, rfl, rfl, draft_stored_when_idle hSecond rfl⟩

end DraftController

end GitBranchManager
