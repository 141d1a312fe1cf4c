import GitBranchManager.Draft.WorkingCopyDraft

/-! # The controller of the draft

`persist` marks the draft dirty and starts the drain unless it runs. The drain is known by the
write it awaits; what follows a write runs when the write is done.
-/

namespace GitBranchManager

inductive DraftKey
  | draft
  | episode
  | pendingCommit
  deriving DecidableEq, Repr

/-- A value of `none` removes the key. -/
structure DraftWrite where
  key : DraftKey
  value : Option (List Utf16)
  deriving DecidableEq, Repr

def DraftPrefs.store (prefs : DraftPrefs) (write : DraftWrite) : DraftPrefs :=
  match write.key with
  | .draft => { prefs with draft := write.value }
  | .episode => { prefs with episode := write.value }
  | .pendingCommit => { prefs with pendingCommit := write.value }

/-- The head of a submitted commit, and whether it was known. -/
structure SubmittedCommit where
  head : Utf16
  headKnown : Bool
  deriving DecidableEq, Repr

/-- `waiting` are the calls of `commitSubmitted` that await the drain; `completed` records those
that completed normally, with the marker that was stored then. -/
structure DraftController where
  draft : WorkingCopyDraft
  prefs : DraftPrefs
  inFlight : Option DraftWrite := none
  dirty : Bool := false
  episodeOnDisk : Bool
  markerOnDisk : Bool
  markerHead : Option Utf16
  mounted : Bool := true
  waiting : List SubmittedCommit := []
  completed : List (SubmittedCommit × Option (List Utf16)) := []
  deriving DecidableEq, Repr

namespace DraftController

variable (c : DraftController)

def finish : DraftController :=
  { c with
    inFlight := none
    waiting := []
    completed := c.completed ++ c.waiting.map fun submit => (submit, c.prefs.pendingCommit) }

def writeDraft : DraftController := { c with inFlight := some ⟨.draft, c.draft.message⟩ }

def startRound : DraftController :=
  let c := { c with dirty := false }
  if c.draft.preparedEpisodeActive && c.draft.preparedFilled then
    { c with episodeOnDisk := true, inFlight := some ⟨.episode, some c.draft.episode⟩ }
  else if c.episodeOnDisk then { c with episodeOnDisk := false, inFlight := some ⟨.episode, none⟩ }
  else c.writeDraft

def endRound : DraftController := if c.mounted && c.dirty then c.startRound else c.finish

/-- The marker is written only for another head than the one that is known to be there. -/
def writeMarker : DraftController :=
  match c.draft.pendingCommitHead with
  | some head =>
    if !c.markerOnDisk || c.markerHead != some head then
      { c with
        markerOnDisk := true
        markerHead := some head
        inFlight := some ⟨.pendingCommit, some (WorkingCopyDraft.marker head c.draft.pendingCommitHeadKnown)⟩ }
    else c.endRound
  | none =>
    if c.markerOnDisk then
      { c with markerOnDisk := false, markerHead := none, inFlight := some ⟨.pendingCommit, none⟩ }
    else c.endRound

def afterWrite (key : DraftKey) : DraftController :=
  match key with
  | .episode => if c.mounted then c.writeDraft else c.finish
  | .draft => if c.mounted then c.writeMarker else c.finish
  | .pendingCommit => c.endRound

/-- A write that fails ends the drain, and who awaits it gets the error. -/
def writeDone (ok : Bool) : Option DraftController :=
  match c.inFlight with
  | none => none
  | some write =>
    if ok then some ({ c with prefs := c.prefs.store write }.afterWrite write.key)
    else some { c with inFlight := none, waiting := [] }

def persist : DraftController :=
  match c.inFlight with
  | some _ => { c with dirty := true }
  | none => { c with dirty := true }.startRound

/-- A malformed episode or marker is deleted. -/
def «open» (prefs : DraftPrefs) : DraftController :=
  let draft := WorkingCopyDraft.read prefs
  let c : DraftController :=
    { draft, prefs
      episodeOnDisk := prefs.episode.isSome
      markerOnDisk := prefs.pendingCommit.isSome
      markerHead := draft.pendingCommitHead }
  let malformedEpisode := c.episodeOnDisk && !draft.preparedEpisodeActive
  let malformedMarker := c.markerOnDisk && draft.pendingCommitHead.isNone
  if malformedEpisode || malformedMarker then c.persist else c

section Operations

def setDraft (draft : WorkingCopyDraft) : DraftController := { c with draft }

def updateSummary (value : Utf16) : DraftController := (c.setDraft { c.draft with summary := value }).persist

def updateDescription (value : Utf16) : DraftController :=
  (c.setDraft { c.draft with description := value }).persist

def beginAmend : DraftController :=
  if c.draft.amending then c
  else c.setDraft
    { c.draft with
      amending := true
      preAmendSummary := c.draft.summary
      preAmendDescription := c.draft.description }

def applyAmendedMessage (summary description : Utf16) : DraftController :=
  if !c.draft.amending then c else (c.setDraft { c.draft with summary, description }).persist

def cancelAmend : DraftController :=
  if !c.draft.amending then c else (c.setDraft c.draft.cancelAmend).persist

def commitSubmitted (seq : Int) (head : Utf16) (headKnown : Bool) : DraftController :=
  let c := (c.setDraft
    { c.draft with
      pendingCommitSeq := some seq
      pendingCommitHead := some head
      pendingCommitHeadKnown := headKnown
      pendingCommitFromDisk := false }).persist
  { c with waiting := c.waiting ++ [{ head, headKnown }] }

def commitOutstanding : Bool := c.draft.pendingCommitSeq.isSome || c.draft.pendingCommitHead.isSome

def reset : DraftController := (c.setDraft {}).persist

def commitLanded : DraftController := if !c.commitOutstanding then c else c.reset

def commitAbandoned : DraftController :=
  if !c.commitOutstanding then c else (c.setDraft c.draft.clearPendingCommit).persist

def settleCommit (outcomeSeq : Int) (lastSucceeded refsLoaded : Bool) (head : Utf16) : DraftController :=
  match c.draft.pendingCommitSeq with
  | some seq =>
    if outcomeSeq ≤ seq then c else if lastSucceeded then c.commitLanded else c.commitAbandoned
  | none =>
    match c.draft.pendingCommitHead with
    | none => c
    | some submitted =>
      if !c.draft.pendingCommitFromDisk || !refsLoaded then c
      else if c.draft.pendingCommitHeadKnown && head != submitted then c.commitLanded
      else c.commitAbandoned

/-- What the session knows at a call of `reconcilePreparedMessage`. `refreshRequest` is the number
that a request for fresh refs gets, 0 when none is sent. -/
structure PreparedMessageInput where
  pending : Bool
  reply : PreparedReplyStatus
  summary : Utf16
  description : Utf16
  raw : Utf16
  head : Utf16
  overwrite : Bool
  repoStateKnown : Bool := true
  refsCoverRequest : Int := 0
  refreshRequest : Int := 0
  commitMetaReplySeq : Int := 0
  commitMetaRequestSeq : Int := 0
  parentsOf : Utf16 → Option (List Utf16) := fun _ => none
  lastErrorPresent : Bool := false
  mounting : Bool := false

def parentCheck (d : WorkingCopyDraft) (input : PreparedMessageInput) : ParentCheck :=
  match d.parentCheckHead with
  | none => .none
  | some asked =>
    match input.parentsOf asked with
    | some parents => if parents.head? = some d.episodeHead then .commit else .notCommit
    | none =>
      if d.parentCheckSeq.any (· < input.commitMetaReplySeq) &&
          decide (input.commitMetaRequestSeq ≤ input.commitMetaReplySeq) then .noAnswer
      else .none

def isSameMerge (d : WorkingCopyDraft) (input : PreparedMessageInput) : Bool :=
  if input.head != d.episodeHead then false
  else if input.reply != .message then true
  else d.autofilledRaw.isEmpty || input.raw == d.autofilledRaw

def preparedMessageContext (d : WorkingCopyDraft) (input : PreparedMessageInput) : PreparedMessageContext where
  pending := input.pending
  episodeActive := d.preparedEpisodeActive
  filled := d.preparedFilled
  amending := d.amending
  reply := input.reply
  overwrite := input.overwrite
  boxEmpty := (trim d.summary).isEmpty && (trim d.description).isEmpty
  commitInFlight := d.pendingCommitSeq.isSome || d.pendingCommitHead.isSome
  boxMatchesAutofill := d.hasAutofill && d.summary == d.autofilledSummary && d.description == d.autofilledDescription
  headKnown := !input.head.isEmpty
  repoStateKnown := input.repoStateKnown
  needsRevalidation := d.needsRevalidation
  revalidationRequested := d.revalidationRequested
  sameMerge := isSameMerge d input
  episodeHeadKnown := !d.episodeHead.isEmpty
  headCheckRequested := d.headCheckRequest.isSome
  headCheckDone := d.headCheckRequest.any (· ≤ input.refsCoverRequest)
  headMoved := input.head != d.episodeHead
  checkFailed := d.headCheckRequest.isSome && input.lastErrorPresent
  parentCheckRequested := d.parentCheckHead.isSome
  parent := parentCheck d input
  mounting := input.mounting

def replace (input : PreparedMessageInput) (fresh : Bool) : DraftController :=
  (c.setDraft
    { c.draft.fill input.head input.raw with
      prePreparedSummary := if fresh then [] else c.draft.summary
      prePreparedDescription := if fresh then [] else c.draft.description
      hasAutofill := true
      autofilledSummary := input.summary
      autofilledDescription := input.description
      summary := input.summary
      description := input.description }).persist

def apply (action : PreparedMessageAction) (input : PreparedMessageInput) : DraftController :=
  match action with
  | .nothing => c
  | .checkHead =>
    c.setDraft
      { c.draft with
        headCheckRequest :=
          some (if 0 < input.refreshRequest then input.refreshRequest else input.refsCoverRequest + 1) }
  | .checkParent =>
    c.setDraft { c.draft with parentCheckHead := some input.head, parentCheckSeq := some input.commitMetaReplySeq }
  | .startAndRequest => c.setDraft { c.draft with preparedEpisodeActive := true, preparedFilled := false }
  | .cancelAmendAndStart =>
    let c := c.cancelAmend
    c.setDraft { c.draft with preparedEpisodeActive := true, preparedFilled := false }
  | .revalidate => c.setDraft { c.draft with revalidationRequested := true }
  | .keepValidated => c.setDraft { c.draft with needsRevalidation := false, revalidationRequested := false }
  | .replace => c.replace input false
  | .replaceAsNew => c.replace input true
  | .keep =>
    (c.setDraft
      { c.draft.fill input.head input.raw with
        prePreparedSummary := []
        prePreparedDescription := []
        hasAutofill := false
        autofilledSummary := []
        autofilledDescription := [] }).persist
  | .restoreAndEnd =>
    (c.setDraft (WorkingCopyDraft.endEpisode
      { c.draft with
        summary := c.draft.prePreparedSummary
        description := c.draft.prePreparedDescription })).persist
  | .clearAndEnd =>
    (c.setDraft (WorkingCopyDraft.endEpisode { c.draft with summary := [], description := [] })).persist
  | .end => (c.setDraft c.draft.endEpisode).persist

def reconcilePreparedMessage (input : PreparedMessageInput) : PreparedMessageAction × DraftController :=
  let c :=
    if input.pending && (c.draft.headCheckRequest.isSome || c.draft.parentCheckHead.isSome) then
      c.setDraft c.draft.clearEndChecks
    else c
  let action := decidePreparedMessageAction (preparedMessageContext c.draft input)
  (action, c.apply action input)

end Operations

inductive DraftEvent
  | updateSummary (value : Utf16)
  | updateDescription (value : Utf16)
  | beginAmend
  | applyAmendedMessage (summary description : Utf16)
  | cancelAmend
  | reconcilePreparedMessage (input : PreparedMessageInput)
  | commitSubmitted (seq : Int) (head : Utf16) (headKnown : Bool)
  | settleCommit (outcomeSeq : Int) (lastSucceeded refsLoaded : Bool) (head : Utf16)
  | commitLanded
  | commitAbandoned
  | reset
  | writeDone (ok : Bool)
  | dispose

/-- Nothing is called once the controller is disposed of; a write that runs then still ends. -/
def step : DraftEvent → Option DraftController
  | .writeDone ok => c.writeDone ok
  | event =>
    if !c.mounted then none
    else
      match event with
      | .updateSummary value => some (c.updateSummary value)
      | .updateDescription value => some (c.updateDescription value)
      | .beginAmend => some c.beginAmend
      | .applyAmendedMessage summary description => some (c.applyAmendedMessage summary description)
      | .cancelAmend => some c.cancelAmend
      | .reconcilePreparedMessage input => some (c.reconcilePreparedMessage input).2
      | .commitSubmitted seq head headKnown => some (c.commitSubmitted seq head headKnown)
      | .settleCommit outcomeSeq lastSucceeded refsLoaded head =>
        some (c.settleCommit outcomeSeq lastSucceeded refsLoaded head)
      | .commitLanded => some c.commitLanded
      | .commitAbandoned => some c.commitAbandoned
      | .reset => some c.reset
      | .writeDone ok => c.writeDone ok
      | .dispose => some { c with mounted := false }

end DraftController

end GitBranchManager
