import GitBranchManager.Base.Bytes
import GitBranchManager.Library.Lines
import Mathlib.Data.List.Infix

/-! # The unified diff parser

`UnifiedDiffParser::parse` is one loop over the lines of the text. Every line is
tested against the header prefixes before the hunk state is looked at; what is
left over is hunk body.
-/

namespace GitBranchManager

inductive DiffLineKind
  | context
  | added
  | removed
  | noNewlineMarker
  deriving DecidableEq, Repr

/-- Line numbers are 1-based and 0 on a side the line does not have. -/
structure DiffLine where
  kind : DiffLineKind := .context
  oldLine : UInt32 := 0
  newLine : UInt32 := 0
  text : Bytes := []
  deriving DecidableEq, Repr

structure DiffHunk where
  oldStart : UInt32 := 0
  oldCount : UInt32 := 0
  newStart : UInt32 := 0
  newCount : UInt32 := 0
  heading : Bytes := []
  lines : List DiffLine := []
  deriving DecidableEq, Repr

inductive FileChangeKind
  | modified
  | added
  | deleted
  | renamed
  | copied
  | typeChanged
  | modeChanged
  deriving DecidableEq, Repr

structure DiffFile where
  oldPath : Bytes := []
  newPath : Bytes := []
  kind : FileChangeKind := .modified
  oldMode : Bytes := []
  newMode : Bytes := []
  oldBlob : Bytes := []
  newBlob : Bytes := []
  binary : Bool := false
  similarity : Int32 := 0
  hunks : List DiffHunk := []
  addedLines : UInt32 := 0
  removedLines : UInt32 := 0
  deriving DecidableEq, Repr

structure ParsedDiff where
  files : List DiffFile := []
  truncated : Bool := false
  inputBytes : Nat := 0
  deriving DecidableEq, Repr

namespace UnifiedDiffParser

structure Options where
  maxBytes : Nat := 2 * 1024 * 1024
  maxLineLength : Nat := 8 * 1024

def stripCr (line : Bytes) : Bytes :=
  if line.getLast? = some CR then line.dropLast else line

/-- Lines lose one trailing `\r`; a last line without `\n` is kept as it is. -/
def splitLines (text : Bytes) : List Bytes :=
  let (lines, rest) := Library.Lines.cut LF text
  lines.map stripCr ++ if rest.isEmpty then [] else [rest]

def isOctal (b : UInt8) : Bool := 48 ≤ b && b ≤ 55

def octal (digits : Bytes) : UInt8 :=
  (digits.foldl (fun v (d : UInt8) => v * 8 + (d.toNat - 48)) 0).toUInt8

def unescapeLetter (escape : UInt8) : UInt8 :=
  if escape = 110 then LF else if escape = 116 then 9 else if escape = 114 then CR else escape

def unescape : Bytes → Bytes
  | [] => []
  | b :: inner =>
    if b ≠ 92 then b :: unescape inner
    else match inner with
      | [] => [b]
      | escape :: tail =>
        if !isOctal escape then unescapeLetter escape :: unescape tail
        else match tail with
          | [] => [octal [escape]]
          | second :: tail' =>
            if !isOctal second then octal [escape] :: unescape (second :: tail')
            else match tail' with
              | [] => [octal [escape, second]]
              | third :: rest =>
                if !isOctal third then octal [escape, second] :: unescape (third :: rest)
                else octal [escape, second, third] :: unescape rest

def unquotePath (raw : Bytes) : Bytes :=
  if raw.length < 2 || raw.head? != some 34 || raw.getLast? != some 34 then raw
  else unescape (raw.drop 1).dropLast

/-- Strips git's `a/` or `b/`; `/dev/null` carries no prefix and is no path. -/
def stripPathPrefix (path : Bytes) : Bytes :=
  if path = ascii "/dev/null" then []
  else if 2 < path.length && (path[0]? == some 97 || path[0]? == some 98) && path[1]? == some 47
    then path.drop 2
  else path

/-- What `parse` keeps between two lines. `file` points at the last file once there
is one, `hunk` at that file's last hunk while `hunkOpen`. -/
structure State where
  files : List DiffFile := []
  hunkOpen : Bool := false
  oldLine : UInt32 := 0
  newLine : UInt32 := 0
  deriving DecidableEq, Repr

def State.updateFile (s : State) (f : DiffFile → DiffFile) : State :=
  { s with files := s.files.modifyLast f }

def pushLine (file : DiffFile) (line : DiffLine) : DiffFile :=
  { file with hunks := file.hunks.modifyLast fun hunk => { hunk with lines := hunk.lines ++ [line] } }

/-- The `diff --git` line. Its paths are a fallback for sections without `---`. -/
def openFile (rest : Bytes) : DiffFile :=
  match rfind (ascii " b/") rest with
  | some bAt =>
    { oldPath := stripPathPrefix (unquotePath (rest.take bAt))
      newPath := stripPathPrefix (unquotePath (rest.drop (bAt + 1))) }
  | none => {}

def indexLine (rest : Bytes) (file : DiffFile) : DiffFile :=
  match find (ascii "..") rest with
  | none => file
  | some dots =>
    let after := rest.drop (dots + 2)
    let file := { file with oldBlob := rest.take dots }
    match after.idxOf? space with
    | none => { file with newBlob := after }
    | some at_ =>
      let file := { file with newBlob := after.take at_ }
      if file.newMode.isEmpty then { file with newMode := after.drop (at_ + 1) } else file

/-- The tests of the loop body before the hunk header, in order: a prefix and what
the rest of such a line does to the file. -/
def headerTable : List (Bytes × (Bytes → DiffFile → DiffFile)) := [
  (ascii "old mode ", fun rest file => { file with oldMode := rest, kind := .modeChanged }),
  (ascii "new mode ", fun rest file => { file with newMode := rest }),
  (ascii "new file mode ", fun rest file => { file with newMode := rest, kind := .added }),
  (ascii "deleted file mode ", fun rest file => { file with oldMode := rest, kind := .deleted }),
  (ascii "rename from ", fun rest file => { file with oldPath := unquotePath rest, kind := .renamed }),
  (ascii "rename to ", fun rest file => { file with newPath := unquotePath rest, kind := .renamed }),
  (ascii "copy from ", fun rest file => { file with oldPath := unquotePath rest, kind := .copied }),
  (ascii "copy to ", fun rest file => { file with newPath := unquotePath rest, kind := .copied }),
  (ascii "similarity index ", fun rest file => { file with similarity := (parseUint rest).toInt32 }),
  (ascii "index ", indexLine),
  (ascii "Binary files ", fun _ file => { file with binary := true }),
  (ascii "GIT binary patch", fun _ file => { file with binary := true }),
  (ascii "--- ", fun rest file =>
    let path := stripPathPrefix (unquotePath rest)
    if path.isEmpty then file else { file with oldPath := path }),
  (ascii "+++ ", fun rest file =>
    let path := stripPathPrefix (unquotePath rest)
    if path.isEmpty then file else { file with newPath := path })]

def header (line : Bytes) : Option (DiffFile → DiffFile) :=
  headerTable.findSome? fun (pre, update) =>
    if startsWith line pre then some (update (line.drop pre.length)) else none

/-- One `-a,b` or `+c,d`: the numbers, and the text behind the range. -/
def readRange (sign : UInt8) (ranges : Bytes) : Option ((UInt32 × UInt32) × Bytes) :=
  match ranges.idxOf? sign with
  | none => none
  | some at_ =>
    let rest := ranges.drop (at_ + 1)
    let text := rest.takeWhile (· ≠ space)
    let range := match text.idxOf? comma with
      | none => (parseUint text, 1)
      | some at_ => (parseUint (text.take at_), parseUint (text.drop (at_ + 1)))
    some (range, rest.drop text.length)

/-- Every range of the sign is consumed and the last one wins. A range takes at
least one byte, so `fuel` above the length of the text is never used up. -/
def lastRange (sign : UInt8) : Nat → Bytes → UInt32 × UInt32 → UInt32 × UInt32
  | 0, _, range => range
  | fuel + 1, ranges, range =>
    match readRange sign ranges with
    | none => range
    | some (next, rest) => lastRange sign fuel rest next

def hunkHeader (line : Bytes) : Option DiffHunk :=
  match find (ascii "@@") (line.drop 2) with
  | none => none
  | some at_ =>
    let ranges := (line.drop 2).take at_
    let old := lastRange minus (ranges.length + 1) ranges (0, 0)
    let new := ((readRange plus ranges).map Prod.fst).getD (0, 0)
    some { oldStart := old.1, oldCount := old.2, newStart := new.1, newCount := new.2
           heading := (line.drop (2 + at_ + 2)).dropWhile (· = space) }

/-- The body of the loop, for one line. -/
def step (options : Options) (s : State) (line : Bytes) : State :=
  if startsWith line (ascii "diff --git ") then
    { s with files := s.files ++ [openFile (line.drop 11)], hunkOpen := false }
  else if s.files.isEmpty then s
  else match header line with
  | some update => s.updateFile update
  | none =>
    if startsWith line (ascii "@@") then
      match hunkHeader line with
      | none => s
      | some hunk =>
        { s.updateFile fun file => { file with hunks := file.hunks ++ [hunk] } with
          hunkOpen := true, oldLine := hunk.oldStart, newLine := hunk.newStart }
    else if !s.hunkOpen then s
    else if startsWith line (ascii "\\ No newline") then
      s.updateFile fun file => pushLine file { kind := .noNewlineMarker, text := line }
    else
      let marker := line.headD space
      let content := (line.drop 1).take options.maxLineLength
      if marker = plus then
        let added : DiffLine := { kind := .added, newLine := s.newLine, text := content }
        { s.updateFile fun file =>
            { pushLine file added with addedLines := file.addedLines + 1 } with
          newLine := s.newLine + 1 }
      else if marker = minus then
        let removed : DiffLine := { kind := .removed, oldLine := s.oldLine, text := content }
        { s.updateFile fun file =>
            { pushLine file removed with removedLines := file.removedLines + 1 } with
          oldLine := s.oldLine + 1 }
      else if marker = space then
        let context : DiffLine :=
          { kind := .context, oldLine := s.oldLine, newLine := s.newLine, text := content }
        { s.updateFile fun file => pushLine file context with
          oldLine := s.oldLine + 1, newLine := s.newLine + 1 }
      -- The source closes the hunk and reads the line again; every test above has failed on it.
      else { s with hunkOpen := false }

def run (options : Options) (lines : List Bytes) (s : State) : State :=
  lines.foldl (step options) s

/-- `UnifiedDiffParser::parse`. An input over the cap is refused, not cut short. -/
def parse (options : Options) (diffText : Bytes) : ParsedDiff :=
  if options.maxBytes < diffText.length then { truncated := true, inputBytes := diffText.length }
  else { files := (run options (splitLines diffText) {}).files, inputBytes := diffText.length }

end UnifiedDiffParser

end GitBranchManager
