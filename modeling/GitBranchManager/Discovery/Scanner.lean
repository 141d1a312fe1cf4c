import GitBranchManager.Discovery.TouchedSubtree
import GitBranchManager.Library.Runs
import GitBranchManager.Library.Unfolding

/-! # Scans of a base folder

Workers share a queue of directories. Each takes one, classifies it, and puts its children on the
queue; found repositories are written to the index in batches. A worker leaves when the queue is
empty and no worker has a directory in hand.

Links are not followed. The case of a key, and what is skipped by name, are arguments of a scan.
-/

namespace GitBranchManager

open Library

structure DirEntry where
  name : Text
  isCloudPlaceholder : Bool := false
  isLinkLike : Bool := false
  deriving DecidableEq, Repr

structure ClassifiedRepo where
  workDir : Text
  gitDir : Text
  deriving DecidableEq, Repr

/-- What is read of a directory. `entries` are the directories in it, up to where the listing fails. -/
structure Directory where
  mtimeNs : Option Int := none
  repo : Option ClassifiedRepo := none
  entries : List DirEntry := []
  unreadable : Bool := false
  distinct : (entries.map DirEntry.name).Nodup := by decide

/-- The directories by the names that lead to them from the base folder. -/
abbrev FileSystem := List Text → Directory

structure DirSignature where
  dirPath : Text
  mtimeNs : Int
  hadRepo : Bool
  deriving DecidableEq, Repr

inductive ScanMode
  | incremental
  | full
  deriving DecidableEq, Repr

structure BaseFolderRecord where
  id : Int
  path : Text
  maxDepth : Int
  deriving DecidableEq, Repr

structure WorkItem where
  path : List Text
  depth : Nat
  deriving DecidableEq, Repr

/-- What does not change during a scan. -/
structure Scan where
  baseFolder : BaseFolderRecord
  mode : ScanMode
  generation : Int
  fs : FileSystem
  dirSignature : Text → Option DirSignature
  shouldSkipName : Text → Bool
  canonicalKey : Text → Text
  separator : Char := '/'

inductive IndexEffect
  | upsert (record : RepoRecord)
  | touch (directory : Text)
  deriving DecidableEq, Repr

namespace Scan

/-- A path is joined to a name. -/
def joinPath (separator : Char) (directory name : Text) : Text :=
  if directory.isEmpty || directory.getLast? == some separator then directory ++ name
  else directory ++ separator :: name

def pathOf (scan : Scan) (item : WorkItem) : Text := item.path.foldl (joinPath scan.separator) scan.baseFolder.path

def admits (scan : Scan) (item : WorkItem) : Bool :=
  !(decide (scan.baseFolder.maxDepth < item.depth)) &&
    !(decide (0 < item.depth) && item.path.getLast?.any scan.shouldSkipName)

/-- The directory is as it was when it was last scanned, and held no repository then. -/
def unchanged (scan : Scan) (item : WorkItem) : Bool :=
  scan.mode == .incremental && (scan.fs item.path).mtimeNs.any fun mtime =>
    (scan.dirSignature (scan.canonicalKey (scan.pathOf item))).any fun stored =>
      stored.mtimeNs == mtime && !stored.hadRepo

def recordOf (scan : Scan) (repo : ClassifiedRepo) : RepoRecord where
  baseFolderId := scan.baseFolder.id
  workDir := repo.workDir
  gitDir := repo.gitDir
  lastSeenGeneration := scan.generation

def children (scan : Scan) (item : WorkItem) : List WorkItem :=
  if (scan.fs item.path).repo.isSome then []
  else ((scan.fs item.path).entries.filter fun entry => !entry.isCloudPlaceholder && !entry.isLinkLike).map
    fun entry => { path := item.path ++ [entry.name], depth := item.depth + 1 }

/-- An unreadable directory is left without a signature. -/
def signatureOf (scan : Scan) (item : WorkItem) : List DirSignature :=
  if (scan.fs item.path).unreadable then []
  else (scan.fs item.path).mtimeNs.toList.map fun mtimeNs =>
    { dirPath := scan.canonicalKey (scan.pathOf item), mtimeNs, hadRepo := (scan.fs item.path).repo.isSome }

def applyEffect (scan : Scan) (rows : List RepoRecord) : IndexEffect → List RepoRecord
  | .upsert record => RepoIndexDb.upsertRepo rows record
  | .touch directory => RepoIndexDb.touchReposUnder rows scan.baseFolder.id directory scan.generation

end Scan

/-- What a worker of `workerLoop` is about to do. -/
inductive ScanWorker
  | polling
  | holding (item : WorkItem)
  | flushing (item : WorkItem)
  | committing (item : WorkItem) (batch : List RepoRecord)
  | listing (item : WorkItem)
  | releasing
  | leaving
  | exited
  deriving DecidableEq, Repr

/-- Whether `activeWorkers` counts the worker. -/
def ScanWorker.isActive : ScanWorker → Bool
  | .polling => false
  | .exited => false
  | _ => true

/-- `effects` records what was done to the rows. -/
structure ScannerState where
  queue : List WorkItem
  activeWorkers : Nat := 0
  pending : List RepoRecord := []
  signatures : List DirSignature := []
  rows : List RepoRecord
  workers : List ScanWorker
  cancelled : Bool := false
  failed : Bool := false
  effects : List IndexEffect := []
  deriving DecidableEq, Repr

/-- `ok` says whether the database does what it is asked. -/
inductive ScanAction
  | pop
  | sleep
  | exit
  | look (ok : Bool)
  | swap
  | commit (ok : Bool)
  | list
  | release
  | throws
  deriving DecidableEq, Repr

inductive ScanEvent
  | cancel
  | worker (i : Nat) (action : ScanAction)
  deriving DecidableEq, Repr

namespace Scan

def kBatchSize : Nat := 20

def applyEffects (scan : Scan) (s : ScannerState) (effects : List IndexEffect) : ScannerState :=
  { s with rows := effects.foldl scan.applyEffect s.rows, effects := s.effects ++ effects }

/-- From the check of the token to the classification. -/
def look (scan : Scan) (s : ScannerState) (item : WorkItem) (ok : Bool) : ScannerState × ScanWorker :=
  if s.cancelled then (s, .leaving)
  else if !scan.admits item then (s, .releasing)
  else if scan.unchanged item then
    if ok then (scan.applyEffects s [.touch (scan.pathOf item)], .releasing) else ({ s with failed := true }, .leaving)
  else
    match (scan.fs item.path).repo with
    | none => (s, .listing item)
    | some repo =>
      let pending := s.pending ++ [scan.recordOf repo]
      ({ s with pending }, if kBatchSize ≤ pending.length then .flushing item else .listing item)

/-- One step of a worker, and what it is about to do then. -/
def act (scan : Scan) (s : ScannerState) : ScanWorker → ScanAction → Option (ScannerState × ScanWorker)
  | .polling, .pop =>
    match s.queue with
    | [] => none
    | item :: queue => some ({ s with queue, activeWorkers := s.activeWorkers + 1 }, .holding item)
  | .polling, .sleep => if s.queue = [] ∧ s.activeWorkers ≠ 0 then some (s, .polling) else none
  | .polling, .exit => if s.queue = [] ∧ s.activeWorkers = 0 then some (s, .exited) else none
  | .holding item, .look ok => some (scan.look s item ok)
  | .flushing item, .swap =>
    some ({ s with pending := [] }, if s.pending.isEmpty then .listing item else .committing item s.pending)
  | .committing item batch, .commit ok =>
    some
      (if ok then (scan.applyEffects s (batch.map .upsert), .listing item)
      else ({ s with failed := true }, .leaving))
  | .listing item, .list =>
    some
      ({ s with
          queue := s.queue ++ scan.children item
          signatures := s.signatures ++ scan.signatureOf item }, .releasing)
  | .releasing, .release => some ({ s with activeWorkers := s.activeWorkers - 1 }, .polling)
  | .leaving, .release => some ({ s with activeWorkers := s.activeWorkers - 1 }, .exited)
  | worker, .throws =>
    if worker.isActive then some ({ s with activeWorkers := s.activeWorkers - 1, failed := true }, .exited) else none
  | _, _ => none

def step (scan : Scan) (s : ScannerState) : ScanEvent → Option ScannerState
  | .cancel => some { s with cancelled := true }
  | .worker i action =>
    match s.workers[i]? with
    | none => none
    | some worker => (scan.act s worker action).map fun next => { next.1 with workers := next.1.workers.set i next.2 }

/-- The base folder is the first directory. -/
def root : WorkItem := { path := [], depth := 0 }

def start (workers : Nat) (rows : List RepoRecord) : ScannerState where
  queue := [root]
  rows
  workers := List.replicate workers .polling

/-- What `scan` does once its workers have been joined, when nothing failed and nobody cancelled. -/
def finish (scan : Scan) (s : ScannerState) (now : Int) : ScannerState :=
  let flushed := { scan.applyEffects s (s.pending.map .upsert) with pending := [] }
  { flushed with rows := RepoIndexDb.markMissing flushed.rows scan.baseFolder.id scan.generation now }

/-- The signatures that the next scan reads; the last one saved for a directory counts. -/
def saveDirSignatures (stored : Text → Option DirSignature) (signatures : List DirSignature) :
    Text → Option DirSignature :=
  signatures.foldl (fun table signature key => if key = signature.dirPath then some signature else table key) stored

end Scan

end GitBranchManager
