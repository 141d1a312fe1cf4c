import GitBranchManager.Operations.OperationRunner
import GitBranchManager.Refs.RefCommands

/-! # Operations that change refs in more than one step

Each runs its commands one after another and gives up at the first failure that it heeds. The
platform decides whether two names that differ in case only are one file.
-/

namespace GitBranchManager

def failedOutcomeOf (e : CommandError) : OperationOutcome := { error := some e.toGitError, summary := e.message }

def invalidBranchName (name : Bytes) : OperationOutcome :=
  { error := some
      { code := .invalidArgument, message := ascii "\"" ++ name ++ ascii "\" is not a valid branch name" } }

def joinBranchNames (names : List Bytes) : Bytes := (names.intersperse (ascii ", ")).flatten

structure CreateBranchRequest where
  name : Bytes
  startPoint : Bytes := []
  checkoutAfter : Bool := false
  setUpstream : Bool := false
  upstream : Bytes := []

structure RenameBranchRequest where
  «from» : Bytes
  «to» : Bytes
  force : Bool := false
  renameRemote : Bool := false
  remoteName : Bytes := []

structure DeleteBranchRequest.DeleteBranchEntry where
  name : Bytes
  force : Bool := false
  expectedTipOid : Bytes := []

structure DeleteBranchRequest where
  entries : List DeleteBranchRequest.DeleteBranchEntry
  isRemote : Bool := false
  remoteName : Bytes := []

structure DeleteTagRequest where
  name : Bytes
  alsoRemote : Bool := false
  remoteName : Bytes := []

structure PruneRemoteRequest where
  remoteName : Bytes := []
  refs : List Bytes

variable {ρ : Type}

namespace CreateBranchRequest

def args (request : CreateBranchRequest) : GitCommand :=
  ascii "branch" :: request.name :: (if request.startPoint.isEmpty then [] else [request.startPoint]) ++
    if request.setUpstream && !request.upstream.isEmpty then [ascii "--track", request.upstream] else []

def run (request : CreateBranchRequest) (git : ProcessRunner ρ) (s : ρ) : OperationOutcome × ρ :=
  let created : OperationOutcome := { succeeded := true, summary := ascii "Created branch " ++ request.name }
  if !RefStore.isValidBranchName request.name then (invalidBranchName request.name, s)
  else
    match git s request.args with
    | (.error e, s) => (failedOutcomeOf e, s)
    | (.ok _, s) =>
      if request.checkoutAfter then
        match git s [ascii "checkout", request.name] with
        | (.error e, s) => (failedOutcomeOf e, s)
        | (.ok _, s) => (created, s)
      else (created, s)

end CreateBranchRequest

namespace RenameBranchRequest

def toLower (b : UInt8) : UInt8 := if 65 ≤ b && b ≤ 90 then b + 32 else b

def pathsEquivalent (caseInsensitiveFilesystem : Bool) (a b : Bytes) : Bool :=
  if caseInsensitiveFilesystem then a.map toLower == b.map toLower else a == b

def temporary (request : RenameBranchRequest) : Bytes := request.from ++ ascii ".gbm-rename-tmp"

def finishLocalRename (request : RenameBranchRequest) (git : ProcessRunner ρ) (s : ρ) : OperationOutcome × ρ :=
  if !request.renameRemote then
    -- fails where there was no upstream, and its exit code is ignored
    ({ succeeded := true, summary := ascii "Renamed to " ++ request.to },
      (git s [ascii "branch", ascii "--unset-upstream", request.to]).2)
  else
    match git s [ascii "push", ascii "--set-upstream", request.remoteName, request.to] with
    | (.error e, s) =>
      ({ error := some e.toGitError
         summary := ascii "Renamed locally to " ++ request.to ++ ascii ", but could not push it to " ++
          request.remoteName ++ ascii ": " ++ e.message }, s)
    | (.ok _, s) =>
      match git s [ascii "push", request.remoteName, ascii "--delete", request.from] with
      | (.error e, s) =>
        ({ error := some e.toGitError
           summary := ascii "Renamed to " ++ request.to ++ ascii " and pushed it, but could not delete " ++
            request.from ++ ascii " on " ++ request.remoteName ++ ascii ": " ++ e.message }, s)
      | (.ok _, s) =>
        ({ succeeded := true
           summary := ascii "Renamed to " ++ request.to ++ ascii " locally and on " ++ request.remoteName }, s)

def run (request : RenameBranchRequest) (caseInsensitiveFilesystem : Bool) (git : ProcessRunner ρ) (s : ρ) :
    OperationOutcome × ρ :=
  let caseOnlyRename :=
    request.from != request.to && pathsEquivalent caseInsensitiveFilesystem request.from request.to
  if !RefStore.isValidBranchName request.to then (invalidBranchName request.to, s)
  else if caseOnlyRename && caseInsensitiveFilesystem then
    match git s [ascii "branch", ascii "-m", request.from, request.temporary] with
    | (.error e, s) => (failedOutcomeOf e, s)
    | (.ok _, s) =>
      match git s [ascii "branch", ascii "-m", request.temporary, request.to] with
      | (.error e, s) =>
        ({ error := some e.toGitError
           summary := ascii "The branch is currently named " ++ request.temporary ++
            ascii "; rename it manually to finish" }, s)
      | (.ok _, s) => request.finishLocalRename git s
  else
    match git s [ascii "branch", if request.force then ascii "-M" else ascii "-m", request.from, request.to] with
    | (.error e, s) => (failedOutcomeOf e, s)
    | (.ok _, s) => request.finishLocalRename git s

end RenameBranchRequest

def readLocalBranchNames (git : ProcessRunner ρ) (s : ρ) : Option (List Bytes) × ρ :=
  match git s listCommand with
  | (.error _, s) => (none, s)
  | (.ok out, s) => (some (branchNames out), s)

/-- The summary that is left when no remote-tracking ref but the branch's own has been found. -/
def refineSummaryFromRemoteRefs (git : ProcessRunner ρ) (name summary : Bytes) (s : ρ) : Bytes × ρ :=
  let isOwnUpstream (line : Bytes) : Bool :=
    decide (name.length + 1 < line.length) && (ascii "/" ++ name).isSuffixOf line
  match git s [ascii "for-each-ref", ascii "--format=%(refname)", ascii "--contains", name, ascii "refs/remotes/"] with
  | (.error _, s) => (summary, s)
  | (.ok out, s) =>
    let elsewhere := (getlines out).find? fun line =>
      !line.isEmpty && !isOwnUpstream line && !(ascii "/HEAD").isSuffixOf line
    match elsewhere with
    | none =>
      (ascii "This branch's commits were not found on any remote-tracking ref from your last " ++
        ascii "fetch. If it was just merged on the remote, fetch and try again", s)
    | some line =>
      let label := if startsWith line (ascii "refs/remotes/") then line.drop (ascii "refs/remotes/").length else line
      (ascii "This branch's commits already exist on " ++ label ++
        ascii "; deleting it will not lose anything, your local branch is just behind", s)

namespace DeleteBranchRequest

def names (request : DeleteBranchRequest) : List Bytes := request.entries.map DeleteBranchEntry.name

def isForced (request : DeleteBranchRequest) (name : Bytes) : Bool :=
  request.entries.any fun entry => entry.force && entry.name == name

def forceDiscard : List OperationChoice := [{ kind := .forceDiscard, destructive := true }]

def tipsCommand : GitCommand := [ascii "for-each-ref", ascii "--format=%(refname)%09%(objectname)", kHeads]

def readTip (line : Bytes) : Option (Bytes × Bytes) :=
  match find [9] line with
  | none => none
  | some tab =>
    if !startsWith line kHeads then none
    else some ((line.take tab).drop kHeads.length, popCr (line.drop (tab + 1)))

/-- A later line of one branch replaces an earlier one. -/
def tipOf (out name : Bytes) : Option Bytes := ((getlines out).filterMap readTip).reverse.lookup name

/-- The forced names are deleted only where they still are what the user was warned about. -/
def checkForcedTips (request : DeleteBranchRequest) (git : ProcessRunner ρ) (targets : List Bytes) (s : ρ) :
    Option OperationOutcome × ρ :=
  let forced := request.entries.filter fun entry => entry.force && targets.contains entry.name
  if forced.isEmpty then (none, s)
  else
    match forced.find? fun entry => entry.expectedTipOid.isEmpty with
    | some entry =>
      let summary := ascii "Refused to force-delete " ++ entry.name ++
        ascii ": no checked tip was sent with the request"
      (some { error := some { code := .missingBranchTip, message := summary }, summary }, s)
    | none =>
      match git s tipsCommand with
      | (.error e, s) =>
        (some
          { error := some e.toGitError
            summary := ascii "Could not confirm the branch tips before deleting: " ++ e.message }, s)
      | (.ok out, s) =>
        match forced.find? fun entry => tipOf out entry.name != some entry.expectedTipOid with
        | some entry =>
          let summary := entry.name ++ ascii " changed after its commits were counted; nothing was deleted"
          (some { error := some { code := .staleBranchTip, message := summary }, summary, choices := forceDiscard }, s)
        | none => (none, s)

/-- The forced names go first, in a command of their own. -/
def commands (request : DeleteBranchRequest) (targets : List Bytes) : List GitCommand :=
  if request.isRemote then [ascii "push" :: request.remoteName :: ascii "--delete" :: targets]
  else
    let forced := targets.filter request.isForced
    let plain := targets.filter fun name => !request.isForced name
    (if forced.isEmpty then [] else [ascii "branch" :: ascii "-D" :: forced]) ++
      if plain.isEmpty then [] else [ascii "branch" :: ascii "-d" :: plain]

/-- The first command that fails, and the error of it. -/
def runCommands (git : ProcessRunner ρ) : List GitCommand → ρ → Option (GitCommand × CommandError) × ρ
  | [], s => (none, s)
  | command :: commands, s =>
    match git s command with
    | (.error e, s) => (some (command, e), s)
    | (.ok _, s) => runCommands git commands s

/-- Which of the targets really went; none where a listing did not answer. -/
def readDeleted (git : ProcessRunner ρ) (before : Option (List Bytes)) (targets : List Bytes) (s : ρ) :
    List Bytes × ρ :=
  match before with
  | none => ([], s)
  | some _ =>
    match readLocalBranchNames git s with
    | (none, s) => ([], s)
    | (some after, s) => (targets.filter fun name => !after.contains name, s)

/-- Another worktree that holds the branch is named before any other reason. -/
def worktreeReason (error : CommandError) (summary : Bytes) : Bytes :=
  if (find (ascii "used by worktree") error.detail).isSome then
    ascii "This branch is checked out in another worktree"
  else summary

def notMergedSummary (targets : List Bytes) : Bytes :=
  if 1 < targets.length then
    ascii "These branches have commits that are not merged into any other branch you have locally"
  else ascii "This branch has commits that are not merged into any other branch you have locally"

/-- Why the rest did not go. -/
def explain (git : ProcessRunner ρ) (targets : List Bytes) (error : CommandError) (failedForced : Bool) (s : ρ) :
    Bytes × List OperationChoice × ρ :=
  let notMerged := (find (ascii "not fully merged") error.detail).isSome
  if notMerged && !failedForced then
    match targets with
    | [name] =>
      let refined := refineSummaryFromRemoteRefs git name (notMergedSummary targets) s
      (worktreeReason error refined.1, forceDiscard, refined.2)
    | _ => (worktreeReason error (notMergedSummary targets), forceDiscard, s)
  else (worktreeReason error error.message, [], s)

/-- A refused command may have deleted some of its names. -/
def refusal (request : DeleteBranchRequest) (git : ProcessRunner ρ) (before : Option (List Bytes))
    (targets : List Bytes) (command : GitCommand) (error : CommandError) (s : ρ) : OperationOutcome × ρ :=
  let failedForced := !request.isRemote && command[1]? == some (ascii "-D")
  let read := readDeleted git before targets s
  let deleted := read.1
  let explained := explain git targets error failedForced read.2
  let remaining := targets.filter fun name => !deleted.contains name
  let summary :=
    if deleted.isEmpty then explained.1
    else ascii "Deleted " ++ joinBranchNames deleted ++ ascii ". " ++ joinBranchNames remaining ++ ascii ": " ++
      explained.1
  ({ error := some error.toGitError, choices := explained.2.1, summary, mutatedRefs := !deleted.isEmpty },
    explained.2.2)

def deleteTargets (request : DeleteBranchRequest) (git : ProcessRunner ρ) (before : Option (List Bytes))
    (targets : List Bytes) (s : ρ) : OperationOutcome × ρ :=
  match runCommands git (request.commands targets) s with
  | (none, s) => ({ succeeded := true, summary := ascii "Deleted " ++ joinBranchNames targets }, s)
  | (some (command, error), s) => request.refusal git before targets command error s

def deleteChecked (request : DeleteBranchRequest) (git : ProcessRunner ρ) (before : Option (List Bytes))
    (targets : List Bytes) (s : ρ) : OperationOutcome × ρ :=
  match request.checkForcedTips git targets s with
  | (some refused, s) => (refused, s)
  | (none, s) => request.deleteTargets git before targets s

/-- An empty listing counts as no answer. -/
def run (request : DeleteBranchRequest) (git : ProcessRunner ρ) (s : ρ) : OperationOutcome × ρ :=
  if request.isRemote then request.deleteTargets git none request.names s
  else
    match readLocalBranchNames git s with
    | (some (first :: rest), s) =>
      let before := first :: rest
      let live := request.names.filter before.contains
      if live.isEmpty then
        ({ succeeded := true, summary := ascii "Already deleted: " ++ joinBranchNames request.names }, s)
      else request.deleteChecked git (some before) live s
    | (_, s) => request.deleteChecked git none request.names s

end DeleteBranchRequest

def DeleteTagRequest.run (request : DeleteTagRequest) (git : ProcessRunner ρ) (s : ρ) : OperationOutcome × ρ :=
  match git s [ascii "tag", ascii "-d", request.name] with
  | (.error e, s) => (failedOutcomeOf e, s)
  | (.ok _, s) =>
    if !request.alsoRemote then ({ succeeded := true, summary := ascii "Deleted tag " ++ request.name }, s)
    else
      match git s [ascii "push", request.remoteName, ascii "--delete", ascii "refs/tags/" ++ request.name] with
      | (.error e, s) =>
        ({ error := some e.toGitError
           summary := ascii "Deleted locally, but could not delete on " ++ request.remoteName ++ ascii ": " ++
            e.message }, s)
      | (.ok _, s) =>
        ({ succeeded := true
           summary := ascii "Deleted tag " ++ request.name ++ ascii " locally and on " ++ request.remoteName }, s)

def PruneRemoteRequest.run (request : PruneRemoteRequest) (git : ProcessRunner ρ) (s : ρ) : OperationOutcome × ρ :=
  if request.refs.isEmpty then ({ succeeded := true, summary := ascii "Nothing to prune" }, s)
  else
    match git s (ascii "branch" :: ascii "--delete" :: ascii "--remotes" :: request.refs) with
    | (.error e, s) => (failedOutcomeOf e, s)
    | (.ok _, s) =>
      ({ succeeded := true
         summary := ascii "Pruned " ++ Library.Decimal.numeral request.refs.length ++
          if request.refs.length = 1 then ascii " ref" else ascii " refs" }, s)

inductive RefOperation
  | createBranch (request : CreateBranchRequest)
  | renameBranch (request : RenameBranchRequest)
  | deleteBranch (request : DeleteBranchRequest)
  | deleteTag (request : DeleteTagRequest)
  | pruneRemote (request : PruneRemoteRequest)

namespace RefOperation

def operation : RefOperation → Operation
  | createBranch request => { describe := ascii "Create branch " ++ request.name }
  | renameBranch request => { describe := ascii "Rename branch " ++ request.from ++ ascii " to " ++ request.to }
  | deleteBranch request =>
    { describe := ascii "Delete branch" ++
        (if 1 < request.entries.length then ascii "es " else ascii " ") ++ joinBranchNames request.names
      kind := ascii "delete-branch" }
  | deleteTag request => { describe := ascii "Delete tag " ++ request.name }
  | pruneRemote request =>
    { describe :=
        if request.remoteName.isEmpty then ascii "Prune remote-tracking branches"
        else ascii "Prune " ++ request.remoteName
      kind := ascii "prune-remote" }

def run (caseInsensitiveFilesystem : Bool) (git : ProcessRunner ρ) : RefOperation → ρ → OperationOutcome × ρ
  | createBranch request => request.run git
  | renameBranch request => request.run caseInsensitiveFilesystem git
  | deleteBranch request => request.run git
  | deleteTag request => request.run git
  | pruneRemote request => request.run git

end RefOperation

inductive SessionCall
  | refreshUndoJournalCache
  | operationFinished (outcome : OperationOutcome)
  | workingCopyOperationFinished (outcome : OperationOutcome)
  | refreshWorkingCopy
  | endAskpass
  | refreshHistory
  | refreshWorktrees
  deriving DecidableEq, Repr

/-- What the completion callback of `submitOperation` calls. -/
def submitOperation (refreshHistoryOnSuccess : Bool) (onSuccess onAlways : List SessionCall)
    (outcome : OperationOutcome) : List SessionCall :=
  let changedRefs := outcome.succeeded || outcome.mutatedRefs
  [.refreshUndoJournalCache, .operationFinished outcome, .refreshWorkingCopy] ++ onAlways ++
    (if changedRefs && refreshHistoryOnSuccess then [.refreshHistory, .refreshWorktrees] else []) ++
    if outcome.succeeded then onSuccess else []

def submitWorkingCopyOperation (onSuccess onAlways : List SessionCall) (outcome : OperationOutcome) :
    List SessionCall :=
  [.refreshUndoJournalCache, .workingCopyOperationFinished outcome] ++ onAlways ++
    if outcome.succeeded then onSuccess else []

/-- The undo point holds what HEAD was. -/
def recordUndoPoint (git : ProcessRunner ρ) (s : ρ) : ρ :=
  match git s [ascii "rev-parse", ascii "--revs-only", ascii "HEAD", ascii "--symbolic-full-name", ascii "HEAD"] with
  | (.error _, s) => s
  | (.ok out, s) =>
    if out.isEmpty then (git s [ascii "symbolic-ref", ascii "--quiet", ascii "HEAD"]).2 else s

namespace RefOperation

def completion : RefOperation → OperationOutcome → List SessionCall
  | createBranch _ => submitOperation true [] []
  | renameBranch request => submitOperation true [] (if request.renameRemote then [.endAskpass] else [])
  | deleteBranch _ => submitOperation true [] []
  | deleteTag _ => submitWorkingCopyOperation [.refreshHistory] [.endAskpass]
  | pruneRemote _ => submitOperation true [] []

def runQueued (op : RefOperation) (isCancelled : Bool) (current : RepoState) (caseInsensitiveFilesystem : Bool)
    (git : ProcessRunner ρ) (s : ρ) : OperationOutcome × ρ :=
  let (outcome, s) :=
    match OperationRunner.preflight op.operation isCancelled current with
    | some blocked => (blocked, s)
    | none => op.run caseInsensitiveFilesystem git (recordUndoPoint git s)
  ({ outcome with kind := op.operation.kind }, s)

end RefOperation

end GitBranchManager
