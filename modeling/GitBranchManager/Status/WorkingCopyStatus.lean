import GitBranchManager.Base.GitError
import GitBranchManager.Diff.UnifiedDiffParser

/-! # The working-copy status reader

One read runs `git status`, expands collapsed untracked directories, joins two `--numstat`
passes by path and counts the lines of untracked files. What git prints and what the file
system answers are the fields of `StatusReads`.
-/

namespace GitBranchManager

inductive ConflictKind
  | none
  | bothAdded
  | bothModified
  | bothDeleted
  | addedByUs
  | deletedByUs
  | addedByThem
  | deletedByThem
  deriving DecidableEq, Repr

structure WorkingCopyEntry where
  path : Bytes := []
  oldPath : Bytes := []
  untracked : Bool := false
  staged : Bool := false
  indexStatus : FileChangeKind := .modified
  hasUnstagedChange : Bool := false
  worktreeStatus : FileChangeKind := .modified
  unstagedAdded : UInt32 := 0
  unstagedRemoved : UInt32 := 0
  stagedAdded : UInt32 := 0
  stagedRemoved : UInt32 := 0
  conflict : ConflictKind := .none
  ancestorBlob : Bytes := []
  oursBlob : Bytes := []
  theirsBlob : Bytes := []
  similarity : Int32 := 0
  isSubmodule : Bool := false
  untrackedSize : Nat := 0
  untrackedMtimeTicks : Int := 0
  deriving DecidableEq, Repr

def WorkingCopyEntry.isConflicted (entry : WorkingCopyEntry) : Bool := entry.conflict != .none

structure WorkingCopyStatus where
  entries : List WorkingCopyEntry := []
  lineCountsUnavailable : Bool := false
  deriving DecidableEq, Repr

namespace WorkingCopyStatusReader

def kindForCode (c : UInt8) : FileChangeKind :=
  if c = 65 then .added
  else if c = 68 then .deleted
  else if c = 82 then .renamed
  else if c = 67 then .copied
  else if c = 84 then .typeChanged
  else .modified

def conflictForXY (x y : UInt8) : ConflictKind :=
  match (x, y) with
  | (65, 65) => .bothAdded
  | (85, 85) => .bothModified
  | (68, 68) => .bothDeleted
  | (65, 85) => .addedByUs
  | (68, 85) => .deletedByUs
  | (85, 65) => .addedByThem
  | (85, 68) => .deletedByThem
  | _ => .bothModified

/-- At most `maxFields` fields; the last one keeps the rest of the line. -/
def splitFieldsMax (line : Bytes) : Nat → List Bytes
  | 0 => [line]
  | 1 => [line]
  | maxFields + 2 =>
    match find [space] line with
    | none => [line]
    | some at_ => line.take at_ :: splitFieldsMax (line.drop (at_ + 1)) (maxFields + 1)

def blobOrEmpty (hash : Bytes) : Bytes := if hash.all (· == 48) then [] else hash

def parseScore (scoreField : Bytes) : Int32 :=
  let value := Library.Decimal.read (scoreField.dropWhile fun b => !Library.Decimal.isDigit b)
  if value < 2 ^ 31 then Int32.ofNat value else 0

def isSubmoduleField (sub : Bytes) : Bool := sub.head? == some 83

def changedEntry (fields : List Bytes) : WorkingCopyEntry :=
  let xy := fields.getD 1 []
  let x := xy.getD 0 46
  let y := xy.getD 1 46
  { path := fields.getLastD []
    isSubmodule := isSubmoduleField (fields.getD 2 [])
    staged := x != 46
    indexStatus := if x != 46 then kindForCode x else .modified
    hasUnstagedChange := y != 46
    worktreeStatus := if y != 46 then kindForCode y else .modified }

def unmergedEntry (fields : List Bytes) : WorkingCopyEntry :=
  let xy := fields.getD 1 []
  { path := fields.getLastD []
    isSubmodule := isSubmoduleField (fields.getD 2 [])
    conflict := conflictForXY (xy.getD 0 63) (xy.getD 1 63)
    ancestorBlob := blobOrEmpty (fields.getD 7 [])
    oursBlob := blobOrEmpty (fields.getD 8 [])
    theirsBlob := blobOrEmpty (fields.getD 9 []) }

def untrackedEntry (record : Bytes) : WorkingCopyEntry :=
  { path := record.drop 2, untracked := true }

/-- A renamed or copied entry spends a second record, its old path. -/
def parsePorcelainV2Records : List Bytes → List WorkingCopyEntry
  | [] => []
  | record :: rest =>
    if record.head? = some 49 then
      let fields := splitFieldsMax record 9
      if fields.length < 9 then parsePorcelainV2Records rest
      else changedEntry fields :: parsePorcelainV2Records rest
    else if record.head? = some 50 then
      let fields := splitFieldsMax record 10
      if fields.length < 10 then parsePorcelainV2Records rest
      else
        let entry := { changedEntry fields with similarity := parseScore (fields.getD 8 []) }
        match rest with
        | [] => [entry]
        | oldPath :: rest => { entry with oldPath } :: parsePorcelainV2Records rest
    else if record.head? = some 117 then
      let fields := splitFieldsMax record 11
      if fields.length < 11 then parsePorcelainV2Records rest
      else unmergedEntry fields :: parsePorcelainV2Records rest
    else if record.head? = some 63 then untrackedEntry record :: parsePorcelainV2Records rest
    else parsePorcelainV2Records rest

def setCounts (staged : Bool) (added removed : UInt32) (entry : WorkingCopyEntry) : WorkingCopyEntry :=
  if staged then { entry with stagedAdded := added, stagedRemoved := removed }
  else { entry with unstagedAdded := added, unstagedRemoved := removed }

/-- The first entry of a path gets its counts; a binary file's `-` counts nothing. -/
def setCountsAt (staged : Bool) (addedField removedField path : Bytes)
    (entries : List WorkingCopyEntry) : List WorkingCopyEntry :=
  if addedField = [minus] ∨ removedField = [minus] then entries
  else entries.modify (entries.findIdx fun entry => entry.path == path)
    (setCounts staged (parseUint addedField) (parseUint removedField))

/-- The join over the records of one `--numstat -z` pass. Under `-z` a rename leaves the path
field empty and spends two more records, the old path and the new one. -/
def joinNumstat (staged : Bool) : List Bytes → List WorkingCopyEntry → List WorkingCopyEntry
  | [], entries => entries
  | record :: rest, entries =>
    match find [9] record with
    | none => joinNumstat staged rest entries
    | some firstTab =>
      let afterFirst := record.drop (firstTab + 1)
      match find [9] afterFirst with
      | none => joinNumstat staged rest entries
      | some secondTab =>
        let added := record.take firstTab
        let removed := afterFirst.take secondTab
        let path := afterFirst.drop (secondTab + 1)
        if path.isEmpty then
          match rest with
          | _ :: newPath :: rest =>
            joinNumstat staged rest (setCountsAt staged added removed newPath entries)
          | _ => entries
        else joinNumstat staged rest (setCountsAt staged added removed path entries)

end WorkingCopyStatusReader

namespace UntrackedLineCountCache

structure Stat where
  size : Nat
  modified : Int
  deriving DecidableEq, Repr

structure Entry where
  stat : Stat
  lines : UInt32
  deriving DecidableEq, Repr

end UntrackedLineCountCache

open UntrackedLineCountCache in
structure UntrackedLineCountCache where
  entries : Bytes → Option Entry := fun _ => none
  hits : Nat := 0
  misses : Nat := 0

namespace UntrackedLineCountCache

def lookup (cache : UntrackedLineCountCache) (path : Bytes) (stat : Stat) :
    Option UInt32 × UntrackedLineCountCache :=
  match cache.entries path with
  | none => (none, { cache with misses := cache.misses + 1 })
  | some found =>
    if found.stat = stat then (some found.lines, { cache with hits := cache.hits + 1 })
    else (none, { cache with misses := cache.misses + 1 })

/-- A file that is not strictly older than the pass is not remembered. -/
def store (cache : UntrackedLineCountCache) (path : Bytes) (stat : Stat) (lines : UInt32)
    (passStartedAt : Int) : UntrackedLineCountCache :=
  if stat.modified < passStartedAt then
    { cache with entries := Function.update cache.entries path (some { stat, lines }) }
  else cache

def retainOnly (cache : UntrackedLineCountCache) (live : List Bytes) : UntrackedLineCountCache :=
  { cache with entries := fun path => if path ∈ live then cache.entries path else none }

end UntrackedLineCountCache

/-- What git prints and the file system answers during one read. A `none` of the file
system is an error code. -/
structure StatusReads where
  status : GitResult (List Bytes)
  lsFilesOthers : List Bytes → GitResult (List Bytes)
  numstat : Bool → GitResult (List Bytes)
  isBare : Bool
  now : Int
  fileSize : Bytes → Option Nat
  lastWriteTime : Bytes → Option Int
  contents : Bytes → Option Bytes

namespace WorkingCopyStatusReader

open UntrackedLineCountCache

def kUntrackedLineCountByteCap : Nat := 2 ^ 20

/-- `detectTextTraits(contents).encoding` is `Binary`: a NUL byte and no byte order mark. -/
def isBinary (contents : Bytes) : Bool :=
  !startsWith contents [0xEF, 0xBB, 0xBF] && !startsWith contents [0xFF, 0xFE] &&
    !startsWith contents [0xFE, 0xFF] && contents.contains 0

def countLines (contents : Bytes) : UInt32 :=
  if isBinary contents then 0
  else
    let terminated := contents.count LF
    UInt32.ofNat (if contents.isEmpty ∨ contents.getLast? = some LF then terminated else terminated + 1)

def countUntrackedEntry (reads : StatusReads) (cache : UntrackedLineCountCache)
    (entry : WorkingCopyEntry) : WorkingCopyEntry × UntrackedLineCountCache :=
  match reads.fileSize entry.path with
  | none => (entry, cache)
  | some size =>
    if kUntrackedLineCountByteCap < size then (entry, cache)
    else match reads.lastWriteTime entry.path with
      | none => (entry, cache)
      | some modified =>
        let stat : Stat := { size, modified }
        let entry := { entry with untrackedSize := size, untrackedMtimeTicks := modified }
        match cache.lookup entry.path stat with
        | (some remembered, cache) =>
          ({ entry with unstagedAdded := remembered, unstagedRemoved := 0 }, cache)
        | (none, cache) =>
          match reads.contents entry.path with
          | none => (entry, cache)
          | some contents =>
            let lines := countLines contents
            ({ entry with unstagedAdded := lines, unstagedRemoved := 0 },
              cache.store entry.path stat lines reads.now)

def countUntrackedEntries (reads : StatusReads) :
    List WorkingCopyEntry → UntrackedLineCountCache → List WorkingCopyEntry × UntrackedLineCountCache
  | [], cache => ([], cache)
  | entry :: rest, cache =>
    let (entry, cache) := if entry.untracked then countUntrackedEntry reads cache entry else (entry, cache)
    let (rest, cache) := countUntrackedEntries reads rest cache
    (entry :: rest, cache)

def countUntrackedLines (reads : StatusReads) (entries : List WorkingCopyEntry)
    (cache : UntrackedLineCountCache) : List WorkingCopyEntry × UntrackedLineCountCache :=
  if reads.isBare then (entries, cache)
  else
    let (counted, cache) := countUntrackedEntries reads entries cache
    (counted, cache.retainOnly ((entries.filter WorkingCopyEntry.untracked).map WorkingCopyEntry.path))

def isUntrackedDirectory (record : Bytes) : Bool :=
  2 < record.length && startsWith record (ascii "? ") && record.getLast? == some 47

def expandUntrackedDirectories (reads : StatusReads) (records : List Bytes) : GitResult (List Bytes) :=
  let kept := records.filter fun record => !isUntrackedDirectory record
  let directories := (records.filter isUntrackedDirectory).map fun record =>
    ascii ":(literal)" ++ record.drop 2
  if directories.isEmpty then .ok kept
  else do
    let paths ← reads.lsFilesOthers directories
    .ok (kept ++ paths.map fun path => ascii "? " ++ path)

def attachNumstat (reads : StatusReads) (staged : Bool) (entries : List WorkingCopyEntry) :
    GitResult (List WorkingCopyEntry) :=
  if entries.isEmpty then .ok entries
  else (reads.numstat staged).map fun records => joinNumstat staged records entries

def clearCounts (entry : WorkingCopyEntry) : WorkingCopyEntry :=
  { entry with unstagedAdded := 0, unstagedRemoved := 0, stagedAdded := 0, stagedRemoved := 0 }

/-- Both passes; a failed one that was not cancelled leaves every count at zero. -/
def attachCounts (reads : StatusReads) (entries : List WorkingCopyEntry) : GitResult WorkingCopyStatus :=
  match attachNumstat reads false entries >>= attachNumstat reads true with
  | .ok counted => .ok { entries := counted }
  | .error error =>
    if error.code = .cancelled then .error error
    else .ok { entries := entries.map clearCounts, lineCountsUnavailable := true }

def read (reads : StatusReads) (cache : UntrackedLineCountCache) :
    GitResult (WorkingCopyStatus × UntrackedLineCountCache) := do
  let records ← reads.status
  let records ← expandUntrackedDirectories reads records
  let status ← attachCounts reads (parsePorcelainV2Records records)
  if status.lineCountsUnavailable then .ok (status, cache)
  else
    let (entries, cache) := countUntrackedLines reads status.entries cache
    .ok ({ status with entries }, cache)

end WorkingCopyStatusReader

end GitBranchManager
