import GitBranchManager.Base.Bytes

/-! # What the commit box does with a prepared message

An episode runs while git has a message prepared for a merge or squash.
-/

namespace GitBranchManager

inductive PreparedReplyStatus
  | none
  | message
  | failed
  deriving DecidableEq, Repr

/-- What the new head says about how a merge ended. -/
inductive ParentCheck
  | none
  | commit
  | notCommit
  | noAnswer
  deriving DecidableEq, Repr

inductive PreparedMessageAction
  | nothing
  | startAndRequest
  | cancelAmendAndStart
  | replace
  | keep
  | restoreAndEnd
  | «end»
  | revalidate
  | keepValidated
  | replaceAsNew
  | clearAndEnd
  | checkHead
  | checkParent
  deriving DecidableEq, Repr

structure PreparedMessageContext where
  pending : Bool
  episodeActive : Bool
  filled : Bool
  amending : Bool
  reply : PreparedReplyStatus
  overwrite : Bool
  boxEmpty : Bool
  boxMatchesAutofill : Bool
  commitInFlight : Bool := false
  headKnown : Bool := true
  repoStateKnown : Bool := true
  needsRevalidation : Bool := false
  revalidationRequested : Bool := false
  sameMerge : Bool := false
  episodeHeadKnown : Bool := false
  headCheckRequested : Bool := false
  headCheckDone : Bool := false
  headMoved : Bool := false
  checkFailed : Bool := false
  parentCheckRequested : Bool := false
  parent : ParentCheck := .none
  mounting : Bool := false
  deriving DecidableEq, Repr

def abortRule (c : PreparedMessageContext) : PreparedMessageAction :=
  if c.boxMatchesAutofill then .restoreAndEnd else .end

def endedWithoutAppCommit (c : PreparedMessageContext) : PreparedMessageAction :=
  if !c.headCheckRequested then .checkHead
  else if c.checkFailed then abortRule c
  else if !c.headCheckDone then .nothing
  else if !c.headMoved then abortRule c
  else if !c.parentCheckRequested then .checkParent
  else
    match c.parent with
    | .none => if c.mounting then .checkParent else .nothing
    | .commit => .clearAndEnd
    | .notCommit | .noAnswer => abortRule c

/-- An episode that was read back from disk. -/
def revalidating (c : PreparedMessageContext) : PreparedMessageAction :=
  if !c.repoStateKnown || !c.headKnown then .nothing
  else if !c.pending then .clearAndEnd
  else if !c.revalidationRequested then .revalidate
  else
    match c.reply with
    | .none => .nothing
    | .failed => if c.sameMerge then .keepValidated else .keep
    | .message =>
      if c.sameMerge then .keepValidated
      else if c.overwrite || c.boxEmpty then .replaceAsNew
      else .keep

def decidePreparedMessageAction (c : PreparedMessageContext) : PreparedMessageAction :=
  if c.episodeActive && c.needsRevalidation then revalidating c
  else if !c.pending then
    if !c.episodeActive then .nothing
    else if c.commitInFlight then .end
    else if c.filled && c.episodeHeadKnown then endedWithoutAppCommit c
    else abortRule c
  else if !c.episodeActive then if c.amending then .cancelAmendAndStart else .startAndRequest
  else if c.filled then .nothing
  else if c.reply != .none && !c.headKnown then .nothing
  else
    match c.reply with
    | .none => .nothing
    | .failed => .keep
    | .message => if c.overwrite || c.boxEmpty then .replace else .keep

end GitBranchManager

/-! ## The message of the next commit

Every change of the draft asks for a round of up to three writes: the episode, the message and
the marker of a commit that was sent. Rounds follow one another while changes come in; between
two writes nothing else of the controller runs.
-/

namespace GitBranchManager

/-- The three keys of one repository. -/
structure DraftPrefs where
  draft : Option (List Utf16) := none
  episode : Option (List Utf16) := none
  pendingCommit : Option (List Utf16) := none
  deriving DecidableEq, Repr

structure WorkingCopyDraft where
  summary : Utf16 := []
  description : Utf16 := []
  amending : Bool := false
  preAmendSummary : Utf16 := []
  preAmendDescription : Utf16 := []
  preparedEpisodeActive : Bool := false
  preparedFilled : Bool := false
  prePreparedSummary : Utf16 := []
  prePreparedDescription : Utf16 := []
  hasAutofill : Bool := false
  autofilledSummary : Utf16 := []
  autofilledDescription : Utf16 := []
  pendingCommitSeq : Option Int := none
  pendingCommitHead : Option Utf16 := none
  pendingCommitHeadKnown : Bool := false
  pendingCommitFromDisk : Bool := false
  episodeHead : Utf16 := []
  autofilledRaw : Utf16 := []
  needsRevalidation : Bool := false
  revalidationRequested : Bool := false
  headCheckRequest : Option Int := none
  parentCheckHead : Option Utf16 := none
  parentCheckSeq : Option Int := none
  deriving DecidableEq, Repr

namespace WorkingCopyDraft

def flag (value : Bool) : Utf16 := if value then utf16 "1" else utf16 "0"

def isFlag (text : Utf16) : Bool := text == utf16 "1" || text == utf16 "0"

def clearPendingCommit (d : WorkingCopyDraft) : WorkingCopyDraft :=
  { d with
    pendingCommitSeq := none
    pendingCommitHead := none
    pendingCommitHeadKnown := false
    pendingCommitFromDisk := false }

def clearEndChecks (d : WorkingCopyDraft) : WorkingCopyDraft :=
  { d with headCheckRequest := none, parentCheckHead := none, parentCheckSeq := none }

def withEpisode (episode : Option (List Utf16)) (draft : WorkingCopyDraft) : WorkingCopyDraft :=
  match episode with
  | some [summary, description, hasAutofill, autofilledSummary, autofilledDescription, episodeHead, autofilledRaw] =>
    if isFlag hasAutofill then
      { draft with
        preparedEpisodeActive := true
        preparedFilled := true
        needsRevalidation := true
        prePreparedSummary := summary
        prePreparedDescription := description
        hasAutofill := hasAutofill == utf16 "1"
        autofilledSummary, autofilledDescription, episodeHead, autofilledRaw }
    else draft
  | _ => draft

def withPendingCommit (marker : Option (List Utf16)) (draft : WorkingCopyDraft) : WorkingCopyDraft :=
  match marker with
  | some [head, known] =>
    if isFlag known then
      { draft with
        pendingCommitHead := some head
        pendingCommitHeadKnown := known == utf16 "1"
        pendingCommitFromDisk := true }
    else draft
  | _ => draft

def readMessage (stored : Option (List Utf16)) : WorkingCopyDraft :=
  match stored with
  | some [summary, description] => { summary, description }
  | _ => {}

def read (prefs : DraftPrefs) : WorkingCopyDraft :=
  withEpisode prefs.episode (withPendingCommit prefs.pendingCommit (readMessage prefs.draft))

/-- What `write` stores; an empty message removes the key. -/
def message (d : WorkingCopyDraft) : Option (List Utf16) :=
  if d.summary.isEmpty && d.description.isEmpty then none else some [d.summary, d.description]

/-- What `writeEpisode` stores. -/
def episode (d : WorkingCopyDraft) : List Utf16 :=
  [d.prePreparedSummary, d.prePreparedDescription, flag d.hasAutofill, d.autofilledSummary,
    d.autofilledDescription, d.episodeHead, d.autofilledRaw]

/-- What `writePendingCommit` stores. -/
def marker (head : Utf16) (headKnown : Bool) : List Utf16 := [head, flag headKnown]

def cancelAmend (d : WorkingCopyDraft) : WorkingCopyDraft :=
  { d with
    amending := false
    summary := d.preAmendSummary
    description := d.preAmendDescription
    preAmendSummary := []
    preAmendDescription := [] }

def fill (d : WorkingCopyDraft) (head raw : Utf16) : WorkingCopyDraft :=
  { d with
    preparedFilled := true
    episodeHead := head
    autofilledRaw := raw
    needsRevalidation := false
    revalidationRequested := false }

def endEpisode (d : WorkingCopyDraft) : WorkingCopyDraft :=
  clearEndChecks
    { d with
      preparedEpisodeActive := false
      preparedFilled := false
      prePreparedSummary := []
      prePreparedDescription := []
      hasAutofill := false
      autofilledSummary := []
      autofilledDescription := []
      episodeHead := []
      autofilledRaw := []
      needsRevalidation := false
      revalidationRequested := false }

end WorkingCopyDraft

end GitBranchManager
