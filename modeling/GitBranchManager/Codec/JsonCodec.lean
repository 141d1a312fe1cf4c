import GitBranchManager.Base.Bytes
import GitBranchManager.Library.Json
import GitBranchManager.Library.Utf8
import GitBranchManager.Status.WorkingCopyStatus

/-! # The JSON writer

The core writes JSON byte by byte. The same writing over characters is what a text that is valid
UTF-8 comes to.
-/

namespace GitBranchManager

open Library Library.Json

namespace JsonWriter

def kHex (n : Nat) : Char := if n < 10 then Char.ofNat (48 + n) else Char.ofNat (87 + n)

/-- What is written for `c`. -/
def escapeByte (c : UInt8) : Bytes :=
  if c = 34 then ascii "\\\""
  else if c = 92 then ascii "\\\\"
  else if c = LF then ascii "\\n"
  else if c = CR then ascii "\\r"
  else if c = 9 then ascii "\\t"
  else if c < 0x20 then ascii "\\u00" ++ [(kHex (c.toNat / 16)).toNat.toUInt8, (kHex (c.toNat % 16)).toNat.toUInt8]
  else [c]

def jsonAppendEscaped (out value : Bytes) : Bytes := out ++ ascii "\"" ++ value.flatMap escapeByte ++ ascii "\""

def jsonAppendBool (out : Bytes) (value : Bool) : Bytes := out ++ if value then ascii "true" else ascii "false"

/-- `std::to_string` of a `std::int64_t`. -/
def numeral (value : Int64) : List Char :=
  if value.toInt < 0 then '-' :: Nat.toDigits 10 value.toInt.natAbs else Nat.toDigits 10 value.toInt.natAbs

def jsonAppendInt (out : Bytes) (value : Int64) : Bytes := out ++ (numeral value).map fun c => c.toNat.toUInt8

end JsonWriter

/-- A value to be written, over the symbols of an alphabet. -/
abbrev JsonTree (α : Type) := JsonValue (List α) Int64

namespace JsonTree

variable {α : Type} (symbol : Char → α) (escape : α → List α)

def word (s : List Char) : List α := s.map symbol

def quoted (text : List α) : List α := symbol '"' :: text.flatMap escape ++ [symbol '"']

mutual
def write : JsonTree α → List α
  | .null => word symbol ['n', 'u', 'l', 'l']
  | .bool value => if value then word symbol ['t', 'r', 'u', 'e'] else word symbol ['f', 'a', 'l', 's', 'e']
  | .number value => word symbol (JsonWriter.numeral value)
  | .text value => quoted symbol escape value
  | .array items => symbol '[' :: writeItems items ++ [symbol ']']
  | .object fields => symbol '{' :: writeFields fields ++ [symbol '}']

def writeItems : List (JsonTree α) → List α
  | [] => []
  | [item] => write item
  | item :: next :: items => write item ++ symbol ',' :: writeItems (next :: items)

def writeFields : List (List α × JsonTree α) → List α
  | [] => []
  | [(name, value)] => quoted symbol escape name ++ symbol ':' :: write value
  | (name, value) :: next :: fields =>
    quoted symbol escape name ++ symbol ':' :: write value ++ symbol ',' :: writeFields (next :: fields)
end

end JsonTree

end GitBranchManager

/-! ## The JSON of diffs and of the working copy -/

namespace GitBranchManager

open Library.Json JsonWriter

namespace JsonCodec

/-- `"name":`. -/
def key (name : String) : Bytes := ascii "\"" ++ ascii name ++ ascii "\":"

def DiffLineKind.ordinal : DiffLineKind → Int64
  | .context => 0
  | .added => 1
  | .removed => 2
  | .noNewlineMarker => 3

def FileChangeKind.ordinal : FileChangeKind → Int64
  | .modified => 0
  | .added => 1
  | .deleted => 2
  | .renamed => 3
  | .copied => 4
  | .typeChanged => 5
  | .modeChanged => 6

def ConflictKind.ordinal : ConflictKind → Int64
  | .none => 0
  | .bothAdded => 1
  | .bothModified => 2
  | .bothDeleted => 3
  | .addedByUs => 4
  | .deletedByUs => 5
  | .addedByThem => 6
  | .deletedByThem => 7

def ofUInt32 (n : UInt32) : Int64 := Int64.ofNat n.toNat

/-- The loop over a vector; a comma goes before every element but the first. -/
def appendAll {α : Type} (json : α → Bytes) (out : Bytes) : List α → Bytes
  | [] => out
  | item :: items => items.foldl (fun out item => out ++ ascii "," ++ json item) (out ++ json item)

def diffLineJson (line : DiffLine) : Bytes :=
  let out := ascii "\x7b"
  let out := out ++ key "kind"
  let out := jsonAppendInt out (DiffLineKind.ordinal line.kind)
  let out := out ++ ascii "," ++ key "oldLine"
  let out := jsonAppendInt out (ofUInt32 line.oldLine)
  let out := out ++ ascii "," ++ key "newLine"
  let out := jsonAppendInt out (ofUInt32 line.newLine)
  let out := out ++ ascii "," ++ key "text"
  let out := jsonAppendEscaped out line.text
  out ++ ascii "\x7d"

def diffHunkJson (hunk : DiffHunk) : Bytes :=
  let out := ascii "\x7b"
  let out := out ++ key "oldStart"
  let out := jsonAppendInt out (ofUInt32 hunk.oldStart)
  let out := out ++ ascii "," ++ key "oldCount"
  let out := jsonAppendInt out (ofUInt32 hunk.oldCount)
  let out := out ++ ascii "," ++ key "newStart"
  let out := jsonAppendInt out (ofUInt32 hunk.newStart)
  let out := out ++ ascii "," ++ key "newCount"
  let out := jsonAppendInt out (ofUInt32 hunk.newCount)
  let out := out ++ ascii "," ++ key "heading"
  let out := jsonAppendEscaped out hunk.heading
  let out := out ++ ascii "," ++ key "lines" ++ ascii "["
  let out := appendAll diffLineJson out hunk.lines
  out ++ ascii "]\x7d"

def displayPath (file : DiffFile) : Bytes := if file.kind = .deleted then file.oldPath else file.newPath

def diffFileJson (file : DiffFile) : Bytes :=
  let out := ascii "\x7b"
  let out := out ++ key "oldPath"
  let out := jsonAppendEscaped out file.oldPath
  let out := out ++ ascii "," ++ key "newPath"
  let out := jsonAppendEscaped out file.newPath
  let out := out ++ ascii "," ++ key "kind"
  let out := jsonAppendInt out (FileChangeKind.ordinal file.kind)
  let out := out ++ ascii "," ++ key "oldMode"
  let out := jsonAppendEscaped out file.oldMode
  let out := out ++ ascii "," ++ key "newMode"
  let out := jsonAppendEscaped out file.newMode
  let out := out ++ ascii "," ++ key "oldBlob"
  let out := jsonAppendEscaped out file.oldBlob
  let out := out ++ ascii "," ++ key "newBlob"
  let out := jsonAppendEscaped out file.newBlob
  let out := out ++ ascii "," ++ key "binary"
  let out := jsonAppendBool out file.binary
  let out := out ++ ascii "," ++ key "similarity"
  let out := jsonAppendInt out file.similarity.toInt64
  let out := out ++ ascii "," ++ key "addedLines"
  let out := jsonAppendInt out (ofUInt32 file.addedLines)
  let out := out ++ ascii "," ++ key "removedLines"
  let out := jsonAppendInt out (ofUInt32 file.removedLines)
  let out := out ++ ascii "," ++ key "displayPath"
  let out := jsonAppendEscaped out (displayPath file)
  let out := out ++ ascii "," ++ key "hunks" ++ ascii "["
  let out := appendAll diffHunkJson out file.hunks
  out ++ ascii "]\x7d"

/-- `toJson` of a diff. -/
def diffToJson (diff : ParsedDiff) : Bytes :=
  let out := ascii "\x7b" ++ key "files" ++ ascii "["
  let out := appendAll diffFileJson out diff.files
  let out := out ++ ascii "]," ++ key "truncated"
  let out := jsonAppendBool out diff.truncated
  let out := out ++ ascii "," ++ key "inputBytes"
  let out := jsonAppendInt out (Int64.ofNat diff.inputBytes)
  out ++ ascii "\x7d"

def workingCopyEntryJson (entry : WorkingCopyEntry) : Bytes :=
  let out := ascii "\x7b"
  let out := out ++ key "path"
  let out := jsonAppendEscaped out entry.path
  let out := out ++ ascii "," ++ key "oldPath"
  let out := jsonAppendEscaped out entry.oldPath
  let out := out ++ ascii "," ++ key "untracked"
  let out := jsonAppendBool out entry.untracked
  let out := out ++ ascii "," ++ key "staged"
  let out := jsonAppendBool out entry.staged
  let out := out ++ ascii "," ++ key "indexStatus"
  let out := jsonAppendInt out (FileChangeKind.ordinal entry.indexStatus)
  let out := out ++ ascii "," ++ key "hasUnstagedChange"
  let out := jsonAppendBool out entry.hasUnstagedChange
  let out := out ++ ascii "," ++ key "worktreeStatus"
  let out := jsonAppendInt out (FileChangeKind.ordinal entry.worktreeStatus)
  let out := out ++ ascii "," ++ key "conflict"
  let out := jsonAppendInt out (ConflictKind.ordinal entry.conflict)
  let out := out ++ ascii "," ++ key "ancestorBlob"
  let out := jsonAppendEscaped out entry.ancestorBlob
  let out := out ++ ascii "," ++ key "oursBlob"
  let out := jsonAppendEscaped out entry.oursBlob
  let out := out ++ ascii "," ++ key "theirsBlob"
  let out := jsonAppendEscaped out entry.theirsBlob
  let out := out ++ ascii "," ++ key "unstagedAdded"
  let out := jsonAppendInt out (ofUInt32 entry.unstagedAdded)
  let out := out ++ ascii "," ++ key "unstagedRemoved"
  let out := jsonAppendInt out (ofUInt32 entry.unstagedRemoved)
  let out := out ++ ascii "," ++ key "stagedAdded"
  let out := jsonAppendInt out (ofUInt32 entry.stagedAdded)
  let out := out ++ ascii "," ++ key "stagedRemoved"
  let out := jsonAppendInt out (ofUInt32 entry.stagedRemoved)
  let out := out ++ ascii "," ++ key "similarity"
  let out := jsonAppendInt out entry.similarity.toInt64
  let out := out ++ ascii "," ++ key "isSubmodule"
  let out := jsonAppendBool out entry.isSubmodule
  let out := out ++ ascii "," ++ key "isConflicted"
  let out := jsonAppendBool out entry.isConflicted
  let out := out ++ ascii "," ++ key "untrackedSize"
  let out := jsonAppendInt out (Int64.ofNat entry.untrackedSize)
  let out := out ++ ascii "," ++ key "untrackedMtimeTicks"
  let out := jsonAppendInt out (Int64.ofInt entry.untrackedMtimeTicks)
  out ++ ascii "\x7d"

/-- `toJson` of the working copy. -/
def statusToJson (status : WorkingCopyStatus) : Bytes :=
  let out := ascii "\x7b" ++ key "entries" ++ ascii "["
  let out := appendAll workingCopyEntryJson out status.entries
  let out := out ++ ascii "]," ++ key "lineCountsUnavailable"
  let out := jsonAppendBool out status.lineCountsUnavailable
  out ++ ascii "\x7d"

end JsonCodec

end GitBranchManager
