import GitBranchManager.Base.Bytes
import GitBranchManager.Library.Lines

/-! # The conflict marker parser

A line keeps its line ending. A conflict that is not closed, or has no separator, makes the
whole file one text segment.
-/

namespace GitBranchManager

inductive ConflictSegmentKind
  | text
  | region
  deriving DecidableEq, Repr

structure ConflictSegment where
  kind : ConflictSegmentKind := .text
  lines : List Bytes := []
  ours : List Bytes := []
  theirs : List Bytes := []
  base : List Bytes := []
  hasBase : Bool := false
  deriving DecidableEq, Repr

structure ParsedConflictFile where
  segments : List ConflictSegment := []
  regionCount : Nat := 0
  wellFormed : Bool := true
  deriving DecidableEq, Repr

inductive ConflictRegionChoice
  | unresolved
  | ours
  | theirs
  | custom
  deriving DecidableEq, Repr

structure ConflictRegionResolution where
  choice : ConflictRegionChoice := .unresolved
  customLines : List Bytes := []
  deriving DecidableEq, Repr

namespace ConflictMarkerParser

def splitKeepingLineEndings (content : Bytes) : List Bytes :=
  let (lines, rest) := Library.Lines.cut LF content
  lines.map (· ++ [LF]) ++ if rest.isEmpty then [] else [rest]

def stripLineEnding (line : Bytes) : Bytes :=
  let view := if line.getLast? = some LF then line.dropLast else line
  if view.getLast? = some CR then view.dropLast else view

def oursMarker : Bytes := ascii "<<<<<<<"
def baseMarker : Bytes := ascii "|||||||"
def separator : Bytes := ascii "======="
def theirsMarker : Bytes := ascii ">>>>>>>"

inductive RegionSide
  | ours
  | base
  | theirs
  deriving DecidableEq, Repr

/-- The locals of the scan for the end of a region. -/
structure RegionScan where
  ours : List Bytes := []
  base : List Bytes := []
  theirs : List Bytes := []
  sawBase : Bool := false
  sawSeparator : Bool := false
  current : RegionSide := .ours
  deriving DecidableEq, Repr

def RegionScan.push (scan : RegionScan) (lines : List Bytes) : RegionScan :=
  match scan.current with
  | .ours => { scan with ours := scan.ours ++ lines }
  | .base => { scan with base := scan.base ++ lines }
  | .theirs => { scan with theirs := scan.theirs ++ lines }

/-- The scan, and what follows the end marker if there is one. -/
def scanRegion (scan : RegionScan) : List Bytes → RegionScan × Option (List Bytes)
  | [] => (scan, none)
  | line :: lines =>
    let stripped := stripLineEnding line
    if startsWith stripped theirsMarker then (scan, some lines)
    else if !scan.sawSeparator && startsWith stripped baseMarker then
      scanRegion { scan with sawBase := true, current := .base } lines
    else if stripped = separator then
      scanRegion { scan with sawSeparator := true, current := .theirs } lines
    else scanRegion (scan.push [line]) lines

def flushText (pendingText : List Bytes) (result : ParsedConflictFile) : ParsedConflictFile :=
  if pendingText.isEmpty then result
  else { result with segments := result.segments ++ [{ kind := .text, lines := pendingText }] }

def RegionScan.segment (scan : RegionScan) : ConflictSegment where
  kind := .region
  ours := scan.ours
  theirs := scan.theirs
  base := if scan.sawBase then scan.base else []
  hasBase := scan.sawBase

def addRegion (scan : RegionScan) (result : ParsedConflictFile) : ParsedConflictFile :=
  { result with
    segments := result.segments ++ [scan.segment]
    regionCount := result.regionCount + 1 }

def fallback (lines : List Bytes) : ParsedConflictFile where
  segments := [{ kind := .text, lines }]
  wellFormed := false

/-- The outer loop; every turn takes a line, so that the number of lines is enough fuel. -/
def parseLines (all : List Bytes) : Nat → List Bytes → List Bytes → ParsedConflictFile → ParsedConflictFile
  | fuel + 1, line :: lines, pendingText, result =>
    if !startsWith (stripLineEnding line) oursMarker then
      parseLines all fuel lines (pendingText ++ [line]) result
    else
      match scanRegion {} lines with
      | (scan, some rest) =>
        if scan.sawSeparator then parseLines all fuel rest [] (addRegion scan (flushText pendingText result))
        else fallback all
      | (_, none) => fallback all
  | _, _, pendingText, result => flushText pendingText result

def parse (content : Bytes) : ParsedConflictFile :=
  let lines := splitKeepingLineEndings content
  parseLines lines lines.length lines [] {}

def chosen (segment : ConflictSegment) (resolution : ConflictRegionResolution) : List Bytes :=
  match resolution.choice with
  | .ours => segment.ours
  | .theirs => segment.theirs
  | .custom => resolution.customLines
  | .unresolved => []

/-- Parsed files have as many regions as they count: none is left without a resolution. -/
def assembleSegments : List ConflictSegment → List ConflictRegionResolution → Bytes
  | [], _ => []
  | segment :: segments, resolutions =>
    match segment.kind, resolutions with
    | .text, resolutions => segment.lines.flatten ++ assembleSegments segments resolutions
    | .region, resolution :: resolutions =>
      (chosen segment resolution).flatten ++ assembleSegments segments resolutions
    | .region, [] => []

def assemble (parsed : ParsedConflictFile) (resolutions : List ConflictRegionResolution) : Option Bytes :=
  if resolutions.length ≠ parsed.regionCount then none
  else if resolutions.any fun resolution => resolution.choice == .unresolved then none
  else some (assembleSegments parsed.segments resolutions)

end ConflictMarkerParser

end GitBranchManager
