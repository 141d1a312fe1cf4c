import GitBranchManager.Codec.JsonCodec

/-! # The trees that the core writes

Each function that writes JSON writes a tree, whose texts are those that come from git.
-/

namespace GitBranchManager

open Library Library.Json JsonWriter

def byteSymbol (c : Char) : UInt8 := c.toNat.toUInt8

/-- The bytes that the core writes for a tree. -/
def JsonTree.bytes (tree : JsonTree UInt8) : Bytes := tree.write byteSymbol escapeByte

namespace JsonCodec

def diffLineTree (line : DiffLine) : JsonTree UInt8 :=
  .object
    [(ascii "kind", .number (DiffLineKind.ordinal line.kind)), (ascii "oldLine", .number (ofUInt32 line.oldLine)),
      (ascii "newLine", .number (ofUInt32 line.newLine)), (ascii "text", .text line.text)]

def diffHunkTree (hunk : DiffHunk) : JsonTree UInt8 :=
  .object
    [(ascii "oldStart", .number (ofUInt32 hunk.oldStart)), (ascii "oldCount", .number (ofUInt32 hunk.oldCount)),
      (ascii "newStart", .number (ofUInt32 hunk.newStart)), (ascii "newCount", .number (ofUInt32 hunk.newCount)),
      (ascii "heading", .text hunk.heading), (ascii "lines", .array (hunk.lines.map diffLineTree))]

def diffFileTree (file : DiffFile) : JsonTree UInt8 :=
  .object
    [(ascii "oldPath", .text file.oldPath), (ascii "newPath", .text file.newPath),
      (ascii "kind", .number (FileChangeKind.ordinal file.kind)), (ascii "oldMode", .text file.oldMode),
      (ascii "newMode", .text file.newMode), (ascii "oldBlob", .text file.oldBlob),
      (ascii "newBlob", .text file.newBlob), (ascii "binary", .bool file.binary),
      (ascii "similarity", .number file.similarity.toInt64),
      (ascii "addedLines", .number (ofUInt32 file.addedLines)),
      (ascii "removedLines", .number (ofUInt32 file.removedLines)), (ascii "displayPath", .text (displayPath file)),
      (ascii "hunks", .array (file.hunks.map diffHunkTree))]

def diffTree (diff : ParsedDiff) : JsonTree UInt8 :=
  .object
    [(ascii "files", .array (diff.files.map diffFileTree)), (ascii "truncated", .bool diff.truncated),
      (ascii "inputBytes", .number (Int64.ofNat diff.inputBytes))]

def workingCopyEntryTree (entry : WorkingCopyEntry) : JsonTree UInt8 :=
  .object
    [(ascii "path", .text entry.path), (ascii "oldPath", .text entry.oldPath),
      (ascii "untracked", .bool entry.untracked), (ascii "staged", .bool entry.staged),
      (ascii "indexStatus", .number (FileChangeKind.ordinal entry.indexStatus)),
      (ascii "hasUnstagedChange", .bool entry.hasUnstagedChange),
      (ascii "worktreeStatus", .number (FileChangeKind.ordinal entry.worktreeStatus)),
      (ascii "conflict", .number (ConflictKind.ordinal entry.conflict)),
      (ascii "ancestorBlob", .text entry.ancestorBlob), (ascii "oursBlob", .text entry.oursBlob),
      (ascii "theirsBlob", .text entry.theirsBlob), (ascii "unstagedAdded", .number (ofUInt32 entry.unstagedAdded)),
      (ascii "unstagedRemoved", .number (ofUInt32 entry.unstagedRemoved)),
      (ascii "stagedAdded", .number (ofUInt32 entry.stagedAdded)),
      (ascii "stagedRemoved", .number (ofUInt32 entry.stagedRemoved)),
      (ascii "similarity", .number entry.similarity.toInt64), (ascii "isSubmodule", .bool entry.isSubmodule),
      (ascii "isConflicted", .bool entry.isConflicted),
      (ascii "untrackedSize", .number (Int64.ofNat entry.untrackedSize)),
      (ascii "untrackedMtimeTicks", .number (Int64.ofInt entry.untrackedMtimeTicks))]

def statusTree (status : WorkingCopyStatus) : JsonTree UInt8 :=
  .object
    [(ascii "entries", .array (status.entries.map workingCopyEntryTree)),
      (ascii "lineCountsUnavailable", .bool status.lineCountsUnavailable)]

variable {α : Type}

/-- A byte that is written as it is. -/
def isPlain (b : UInt8) : Bool := escapeByte b == [b]

theorem flatMap_escapeByte {text : Bytes} (h : text.all isPlain = true) : text.flatMap escapeByte = text := by
  induction text with
  | nil => rfl
  | cons b text ih =>
    rw [List.all_cons, Bool.and_eq_true] at h
    rw [List.flatMap_cons, ih h.2, beq_iff_eq.mp h.1]
    rfl

theorem key_eq {name : String} (h : (ascii name).all isPlain = true) :
    key name = JsonTree.quoted byteSymbol escapeByte (ascii name) ++ [byteSymbol ':'] := by
  rw [key, JsonTree.quoted, flatMap_escapeByte h]
  simp [ascii, byteSymbol]

theorem ascii_open : ascii "\x7b" = [byteSymbol '{'] := rfl
theorem ascii_close : ascii "\x7d" = [byteSymbol '}'] := rfl
theorem ascii_openList : ascii "[" = [byteSymbol '['] := rfl
theorem ascii_closeBoth : ascii "]\x7d" = [byteSymbol ']', byteSymbol '}'] := rfl
theorem ascii_closeList : ascii "]," = [byteSymbol ']', byteSymbol ','] := rfl
theorem ascii_comma : ascii "," = [byteSymbol ','] := rfl

theorem jsonAppendInt_eq (out : Bytes) (n : Int64) : jsonAppendInt out n = out ++ JsonTree.bytes (.number n) := by
  rw [jsonAppendInt, JsonTree.bytes, JsonTree.write]
  rfl

theorem jsonAppendBool_eq (out : Bytes) (b : Bool) : jsonAppendBool out b = out ++ JsonTree.bytes (.bool b) := by
  cases b with
  | false => rw [jsonAppendBool, JsonTree.bytes, JsonTree.write]; rfl
  | true => rw [jsonAppendBool, JsonTree.bytes, JsonTree.write]; rfl

theorem jsonAppendEscaped_eq (out text : Bytes) : jsonAppendEscaped out text = out ++ JsonTree.bytes (.text text) := by
  rw [jsonAppendEscaped, JsonTree.bytes, JsonTree.write, JsonTree.quoted, List.append_assoc, List.append_assoc]
  rfl

/-- The loop over a vector writes the items of an array. -/
theorem appendAll_eq {json : α → Bytes} {tree : α → JsonTree UInt8} (h : ∀ item, json item = (tree item).bytes)
    (out : Bytes) (items : List α) :
    appendAll json out items = out ++ JsonTree.writeItems byteSymbol escapeByte (items.map tree) := by
  cases items with
  | nil => rw [appendAll, List.map_nil, JsonTree.writeItems, List.append_nil]
  | cons item items =>
    rw [appendAll, List.map_cons]
    induction items generalizing out item with
    | nil => rw [List.foldl_nil, List.map_nil, JsonTree.writeItems, h]; rfl
    | cons next items ih =>
      rw [List.foldl_cons, ih, List.map_cons, JsonTree.writeItems, h item]
      simp [JsonTree.bytes, ascii, byteSymbol]

theorem diffLineJson_eq (line : DiffLine) : diffLineJson line = (diffLineTree line).bytes := by
  simp (disch := decide) only [diffLineJson, key_eq, jsonAppendInt_eq, jsonAppendEscaped_eq]
  simp only [diffLineTree, JsonTree.bytes, JsonTree.write, JsonTree.writeFields, ascii_open, ascii_close, ascii_comma,
    List.append_assoc, List.cons_append, List.nil_append]

theorem diffHunkJson_eq (hunk : DiffHunk) : diffHunkJson hunk = (diffHunkTree hunk).bytes := by
  simp (disch := decide) only [diffHunkJson, key_eq, jsonAppendInt_eq, jsonAppendEscaped_eq,
    appendAll_eq diffLineJson_eq]
  simp only [diffHunkTree, JsonTree.bytes, JsonTree.write, JsonTree.writeFields, ascii_open, ascii_openList,
    ascii_closeBoth, ascii_comma, List.append_assoc, List.cons_append, List.nil_append]

theorem diffFileJson_eq (file : DiffFile) : diffFileJson file = (diffFileTree file).bytes := by
  simp (disch := decide) only [diffFileJson, key_eq, jsonAppendInt_eq, jsonAppendBool_eq, jsonAppendEscaped_eq,
    appendAll_eq diffHunkJson_eq]
  simp only [diffFileTree, JsonTree.bytes, JsonTree.write, JsonTree.writeFields, ascii_open, ascii_openList,
    ascii_closeBoth, ascii_comma, List.append_assoc, List.cons_append, List.nil_append]

theorem diffToJson_eq (diff : ParsedDiff) : diffToJson diff = (diffTree diff).bytes := by
  simp (disch := decide) only [diffToJson, key_eq, jsonAppendInt_eq, jsonAppendBool_eq, appendAll_eq diffFileJson_eq]
  simp only [diffTree, JsonTree.bytes, JsonTree.write, JsonTree.writeFields, ascii_open, ascii_close, ascii_openList,
    ascii_closeList, ascii_comma, List.append_assoc, List.cons_append, List.nil_append]

theorem workingCopyEntryJson_eq (entry : WorkingCopyEntry) :
    workingCopyEntryJson entry = (workingCopyEntryTree entry).bytes := by
  simp (disch := decide) only [workingCopyEntryJson, key_eq, jsonAppendInt_eq, jsonAppendBool_eq, jsonAppendEscaped_eq]
  simp only [workingCopyEntryTree, JsonTree.bytes, JsonTree.write, JsonTree.writeFields, ascii_open, ascii_close,
    ascii_comma, List.append_assoc, List.cons_append, List.nil_append]

theorem statusToJson_eq (status : WorkingCopyStatus) : statusToJson status = (statusTree status).bytes := by
  simp (disch := decide) only [statusToJson, key_eq, jsonAppendBool_eq, appendAll_eq workingCopyEntryJson_eq]
  simp only [statusTree, JsonTree.bytes, JsonTree.write, JsonTree.writeFields, ascii_open, ascii_close,
    ascii_openList, ascii_closeList, List.append_assoc, List.cons_append, List.nil_append]

end JsonCodec

end GitBranchManager
