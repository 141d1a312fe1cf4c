import GitBranchManager.Library.Runs
import GitBranchManager.Library.Tallies
import GitBranchManager.Prunes.WorktreePrunes

/-! # Prune previews of a session

A fetch asks by itself what a prune of its remotes would remove, and marks each remote it asks for.
The Prune dialog asks the same without a mark. Neither a reply nor an error says who has asked: a
reply is taken for an automatic one while its remote is marked, and an error while the command that
failed has a marked remote among its arguments.
-/

namespace GitBranchManager

open Library

/-- `refs` are short names, as git prints them. -/
structure RemotePrunePreview where
  remote : String
  refs : List String
  deriving DecidableEq, Repr

structure PreviewRequest where
  origin : PruneOrigin
  remote : String
  deriving DecidableEq, Repr

/-- What became of a preview. `overlapping` counts the automatic previews of its remote that were
outstanding. -/
inductive PreviewRecord
  | failed (request : PreviewRequest) (overlapping : Nat) (error : ReportedError) (written : Option ReportedError)
  | replied (request : PreviewRequest) (overlapping : Nat) (pruned : List String)
  deriving DecidableEq, Repr

/-- `remoteNames` and `claimed` are what the refs say: the remote of each remote branch, and the
remote branches that a local one corresponds to. -/
structure PrunePreviews where
  autoPrunePreviewsInFlight : Tally String := .empty
  autoFetchCancelRefusals : Nat := 0
  remoteNames : List String := []
  claimed : List String := []
  lastRemotePrunePreview : Option RemotePrunePreview := none
  gonePendingByRemote : InsertionMap String (List String) := .empty
  goneRefsDeferredByClaim : InsertionMap String (List String) := .empty
  lastError : Option ReportedError := none
  outstanding : List PreviewRequest := []
  log : List PreviewRecord := []

/-- A preview may be answered before older ones. `decodes` says whether the event of its answer can
be read, `spawned` whether an error carries the command. -/
inductive PreviewEvent
  | fetchFinished (fetchedRemote : String) (background refsMoved : Bool)
  | requestRemotePrunePreview (remote : String)
  | remotePrunePreviewReady (i : Nat) (decodes : Bool) (refs : List String)
  | previewFailed (i : Nat) (decodes : Bool) (codeName message : String) (spawned : Bool)
  | errorOccurred (error : ReportedError)
  | autoFetchCancelRefused
  | readRefs (remoteNames claimed : List String)
  | clearError
  deriving DecidableEq, Repr

def fullRemoteRefName (ref : String) : String :=
  if ref.startsWith "refs/remotes/" then ref else "refs/remotes/" ++ ref

def remotesToPreviewAfterFetch (fetchedRemote : String) (remoteNames : List String) : List String :=
  if fetchedRemote != "" then [fetchedRemote] else (remoteNames.filter fun remote => remote != "").eraseDups

/-- The arguments of the dry run, after those that every git command begins with. -/
def previewCommand (globalArgs : List String) (remote : String) : List String :=
  globalArgs ++ ["remote", "prune", remote, "--dry-run"]

def previewError (globalArgs : List String) (remote codeName message : String) (spawned : Bool) : ReportedError where
  codeName
  message
  argv := if spawned then previewCommand globalArgs remote else []

namespace PrunePreviews

/-- An empty slice is dropped. -/
def setSlice (m : InsertionMap String (List String)) (remote : String) (refs : List String) :
    InsertionMap String (List String) :=
  if refs.isEmpty then m.remove remote else m.put remote refs

def requestPreview (s : PrunePreviews) (origin : PruneOrigin) (remote : String) : PrunePreviews :=
  { s with outstanding := s.outstanding ++ [{ origin, remote }] }

def previewAfterFetch (s : PrunePreviews) (remote : String) : PrunePreviews :=
  { s with autoPrunePreviewsInFlight := s.autoPrunePreviewsInFlight.add remote }.requestPreview .automatic remote

def consumeAutoPrunePreview (s : PrunePreviews) (remote : String) : Bool × PrunePreviews :=
  match s.autoPrunePreviewsInFlight.take? remote with
  | none => (false, s)
  | some autoPrunePreviewsInFlight => (true, { s with autoPrunePreviewsInFlight })

/-- The marked remote that the error is put down to. -/
def suppressedRemote (s : PrunePreviews) (error : ReportedError) : Option String :=
  if !error.argv.contains "remote" || !error.argv.contains "prune" || !error.argv.contains "--dry-run" then none
  else s.autoPrunePreviewsInFlight.keys.find? fun remote => error.argv.contains remote

/-- The refs that are pruned, and the session after it. -/
def autoPruneUnclaimedRefs (s : PrunePreviews) (preview : RemotePrunePreview) : List String × PrunePreviews :=
  if preview.refs.isEmpty then
    ([], { s with goneRefsDeferredByClaim := s.goneRefsDeferredByClaim.remove preview.remote })
  else
    let (deferred, unclaimed) := (preview.refs.map fullRemoteRefName).partition fun ref => s.claimed.contains ref
    (unclaimed,
      { s with goneRefsDeferredByClaim := setSlice s.goneRefsDeferredByClaim preview.remote deferred.eraseDups })

def handlePreview (s : PrunePreviews) (preview : RemotePrunePreview) : List String × PrunePreviews :=
  let (wasAutomatic, s) := s.consumeAutoPrunePreview preview.remote
  let s := { s with
    lastRemotePrunePreview := some preview
    gonePendingByRemote := setSlice s.gonePendingByRemote preview.remote (preview.refs.map fullRemoteRefName) }
  if wasAutomatic then s.autoPruneUnclaimedRefs preview else ([], s)

/-- What `errorOccurred` writes to `lastError`, and the session after it. -/
def handleError (s : PrunePreviews) (error : ReportedError) : Option ReportedError × PrunePreviews :=
  match s.suppressedRemote error with
  | some remote => (none, (s.consumeAutoPrunePreview remote).2)
  | none =>
    if error.codeName == "NotCancellable" && s.autoFetchCancelRefusals > 0 then
      (none, { s with autoFetchCancelRefusals := s.autoFetchCancelRefusals - 1 })
    else (some error, { s with lastError := writeLastError (some error) s.lastError })

/-- The automatic previews of a remote that are outstanding. -/
def automatic (s : PrunePreviews) (remote : String) : Nat := s.outstanding.count { origin := .automatic, remote }

/-- A fetch that has failed asks for nothing. No git command fails with `NotCancellable`, and an event
that does not decode is dropped. -/
def step (globalArgs : List String) (s : PrunePreviews) : PreviewEvent → Option PrunePreviews
  | .fetchFinished fetchedRemote background refsMoved =>
    if background && !refsMoved then some s
    else some ((remotesToPreviewAfterFetch fetchedRemote s.remoteNames).foldl previewAfterFetch s)
  | .requestRemotePrunePreview remote => some (s.requestPreview .user remote)
  | .remotePrunePreviewReady i decodes refs =>
    (s.outstanding[i]?).map fun request =>
      let (pruned, handled) := if decodes then s.handlePreview { remote := request.remote, refs } else ([], s)
      { handled with
        outstanding := s.outstanding.eraseIdx i
        log := .replied request (s.automatic request.remote) pruned :: s.log }
  | .previewFailed i decodes codeName message spawned =>
    if codeName = "NotCancellable" then none
    else
      (s.outstanding[i]?).map fun request =>
        let error := previewError globalArgs request.remote codeName message spawned
        let (written, handled) := if decodes then s.handleError error else (none, s)
        { handled with
          outstanding := s.outstanding.eraseIdx i
          log := .failed request (s.automatic request.remote) error written :: s.log }
  | .errorOccurred error => some (s.handleError error).2
  | .autoFetchCancelRefused => some { s with autoFetchCancelRefusals := s.autoFetchCancelRefusals + 1 }
  | .readRefs remoteNames claimed => some { s with remoteNames, claimed }
  | .clearError => some { s with lastError := none }

end PrunePreviews

end GitBranchManager
