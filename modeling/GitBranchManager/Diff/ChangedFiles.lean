import GitBranchManager.Base.GitError
import GitBranchManager.Base.LineSplitter
import GitBranchManager.Base.ObjectId
import GitBranchManager.Diff.UnifiedDiffParser

/-! # The files of a commit

`--raw` and `--numstat` are two outputs of two runs, joined by path. The counts of many commits
come from one `--raw` stream, cut at its commit headers.
-/

namespace GitBranchManager

structure ChangedFile where
  path : Bytes := []
  oldPath : Bytes := []
  kind : FileChangeKind := .modified
  oldMode : Bytes := []
  newMode : Bytes := []
  oldBlob : Bytes := []
  newBlob : Bytes := []
  similarity : Int32 := 0
  addedLines : UInt32 := 0
  removedLines : UInt32 := 0
  deriving DecidableEq, Repr

structure CommitFileCount where
  commit : ObjectId
  fileCount : UInt32 := 0
  deriving DecidableEq

/-- A separator at the end ends the last field, it does not begin another. -/
def splitTerminated (separator : UInt8) (text : Bytes) : List Bytes :=
  let (fields, rest) := Library.Lines.cut separator text
  if rest.isEmpty then fields else fields ++ [rest]

/-- The loop over the records of one `--numstat -z` output. A rename leaves the path field empty
and spends two more records; `cutOff` is what happens where these are missing. -/
def joinRecords {σ : Type} (setAt : Bytes → Bytes → Bytes → σ → σ) (cutOff : Bytes → Bytes → σ → σ) :
    List Bytes → σ → σ
  | [], files => files
  | record :: rest, files =>
    match find [9] record with
    | none => joinRecords setAt cutOff rest files
    | some firstTab =>
      let afterFirst := record.drop (firstTab + 1)
      match find [9] afterFirst with
      | none => joinRecords setAt cutOff rest files
      | some secondTab =>
        let added := record.take firstTab
        let removed := afterFirst.take secondTab
        let path := afterFirst.drop (secondTab + 1)
        if path.isEmpty then
          match rest with
          | _ :: newPath :: rest => joinRecords setAt cutOff rest (setAt added removed newPath files)
          | _ => cutOff added removed files
        else joinRecords setAt cutOff rest (setAt added removed path files)

/-- What every entry of the output keeps, the output keeps. -/
theorem joinRecords_keeps {σ : Type} {setAt : Bytes → Bytes → Bytes → σ → σ} {cutOff : Bytes → Bytes → σ → σ}
    {P : σ → Prop} (hSet : ∀ added removed path files, P files → P (setAt added removed path files))
    (hCut : ∀ added removed files, P files → P (cutOff added removed files)) (records : List Bytes) {files : σ}
    (h : P files) : P (joinRecords setAt cutOff records files) := by
  fun_induction joinRecords setAt cutOff records files with
  | case1 files => exact h
  | case2 files record rest hTab ih => exact ih h
  | case3 files record rest firstTab hFirst afterFirst hTab ih => exact ih h
  | case4 => rename_i ih; exact ih (hSet _ _ _ _ h)
  | case5 => exact hCut _ _ _ h
  | case6 => rename_i ih; exact ih (hSet _ _ _ _ h)

namespace DiffService

def kindForStatusLetter (letter : UInt8) : FileChangeKind :=
  if letter = 65 then .added
  else if letter = 68 then .deleted
  else if letter = 82 then .renamed
  else if letter = 67 then .copied
  else if letter = 84 then .typeChanged
  else .modified

def similarityOf (status : Bytes) : Int32 :=
  (status.tail.filter Library.Decimal.isDigit).foldl (fun similarity d => similarity * 10 + (d - 48).toNat.toInt32) 0

/-- The fields of ":<oldmode> <newmode> <oldsha> <newsha> <status>", without the paths. -/
def parseMeta (record : Bytes) : Option ChangedFile :=
  match record.dropWhile fun b => b == LF || b == CR with
  | 58 :: text =>
    match splitTerminated space text with
    | oldMode :: newMode :: oldBlob :: newBlob :: status :: _ =>
      some
        { oldMode, newMode, oldBlob, newBlob
          kind := kindForStatusLetter (status.headD 77)
          similarity := similarityOf status }
    | _ => none
  | _ => none

def hasTwoPaths (kind : FileChangeKind) : Bool := kind == .renamed || kind == .copied

def parseRawRecords : List Bytes → List ChangedFile
  | [] => []
  | record :: rest =>
    match parseMeta record with
    | none => parseRawRecords rest
    | some file =>
      match rest with
      | [] => []
      | [path] => [{ file with path }]
      | first :: path :: rest =>
        if hasTwoPaths file.kind then { file with oldPath := first, path } :: parseRawRecords rest
        else { file with path := first } :: parseRawRecords (path :: rest)

def setLineCountsAt (addedField removedField path : Bytes) (files : List ChangedFile) : List ChangedFile :=
  if addedField = [minus] ∨ removedField = [minus] then files
  else files.modify (files.findIdx fun file => file.path == path) fun file =>
    { file with addedLines := parseUint addedField, removedLines := parseUint removedField }

def attachLineCounts (numstat : GitResult (List Bytes)) (files : List ChangedFile) :
    GitResult (List ChangedFile) :=
  if files.isEmpty then .ok files
  else numstat.map fun records => joinRecords setLineCountsAt (fun _ _ files => files) records files

/-- What git answers to the two runs of `diff-tree`. -/
def changedFiles (raw numstat : GitResult (List Bytes)) : GitResult (List ChangedFile) := do
  attachLineCounts numstat (parseRawRecords (← raw))

def kHeader : Bytes := ascii "COMMIT "

def isHeader (field : Bytes) : Bool := startsWith field kHeader

/-- Each commit header with the fields up to the next one. -/
def commitSlices : List Bytes → List (Bytes × List Bytes)
  | [] => []
  | field :: rest =>
    if isHeader field then
      (field.drop kHeader.length, rest.takeWhile fun field => !isHeader field) :: commitSlices rest
    else commitSlices rest

/-- `log` is what git answers to one `log --no-walk` over all the commits. -/
def commitFileCounts (commits : List ObjectId) (log : GitResult (List Bytes)) :
    GitResult (List CommitFileCount) :=
  if commits.isEmpty then .ok []
  else log.map fun records => (commitSlices records).map fun (hex, fields) =>
    { commit := ObjectId.fromHex hex, fileCount := UInt32.ofNat (parseRawRecords fields).length }

end DiffService

end GitBranchManager
