import GitBranchManager.Conflict.ConflictMarkerParser

/-! # Conflict files round-trip -/

namespace GitBranchManager

namespace ConflictMarkerParser

inductive LineEnding
  | lf
  | crlf
  | endOfFile
  deriving DecidableEq, Repr

def LineEnding.bytes : LineEnding → Bytes
  | .lf => [LF]
  | .crlf => [CR, LF]
  | .endOfFile => []

/-- A region as a merge writes it. The sides' lines hold their own endings. -/
structure RegionText where
  ours : List Bytes
  base : Option (List Bytes) := none
  theirs : List Bytes
  oursLabel : Bytes := []
  baseLabel : Bytes := []
  theirsLabel : Bytes := []
  oursEnding : LineEnding := .lf
  baseEnding : LineEnding := .lf
  separatorEnding : LineEnding := .lf
  theirsEnding : LineEnding := .lf
  deriving DecidableEq, Repr

/-- A region comes with the choice made for it, which is no part of its text. -/
inductive ConflictPart
  | text (lines : List Bytes)
  | region (written : RegionText) (resolution : ConflictRegionResolution)
  deriving DecidableEq, Repr

def RegionText.baseLines (region : RegionText) : List Bytes :=
  match region.base with
  | some lines => (baseMarker ++ region.baseLabel ++ region.baseEnding.bytes) :: lines
  | none => []

/-- What follows the region's first line. -/
def RegionText.body (region : RegionText) : List Bytes :=
  region.ours ++ region.baseLines ++ (separator ++ region.separatorEnding.bytes) :: region.theirs ++
    [theirsMarker ++ region.theirsLabel ++ region.theirsEnding.bytes]

namespace ConflictPart

def lines : ConflictPart → List Bytes
  | .text lines => lines
  | .region written _ => (oursMarker ++ written.oursLabel ++ written.oursEnding.bytes) :: written.body

def content : ConflictPart → List Bytes
  | .text lines => lines
  | .region written _ => written.ours ++ written.base.getD [] ++ written.theirs

def isRegion : ConflictPart → Bool
  | .text _ => false
  | .region _ _ => true

def segment : ConflictPart → ConflictSegment
  | .text lines => { kind := .text, lines }
  | .region written _ =>
    { kind := .region
      ours := written.ours
      theirs := written.theirs
      base := written.base.getD []
      hasBase := written.base.isSome }

def resolution? : ConflictPart → Option ConflictRegionResolution
  | .text _ => none
  | .region _ resolution => some resolution

/-- The text, or the side chosen for a written. -/
def resolved : ConflictPart → List Bytes
  | .text lines => lines
  | .region written resolution =>
    match resolution.choice with
    | .ours => written.ours
    | .theirs => written.theirs
    | .custom => resolution.customLines
    | .unresolved => []

end ConflictPart

def render (parts : List ConflictPart) : Bytes := (parts.flatMap ConflictPart.lines).flatten

def looksLikeMarker (line : Bytes) : Bool :=
  let stripped := stripLineEnding line
  startsWith stripped oursMarker || startsWith stripped baseMarker || stripped == separator ||
    startsWith stripped theirsMarker

/-- Lines that end in a line feed and hold no other, then at most one line without. -/
def FileLines (lines : List Bytes) : Prop :=
  ∃ (ended : List Bytes) (rest : Bytes), (∀ line ∈ ended, LF ∉ line) ∧ LF ∉ rest ∧
    lines = ended.map (· ++ [LF]) ++ if rest.isEmpty then [] else [rest]

structure WellFormed (parts : List ConflictPart) : Prop where
  lines : FileLines (parts.flatMap ConflictPart.lines)
  content : ∀ part ∈ parts, ∀ line ∈ part.content, looksLikeMarker line = false
  filled : ∀ part ∈ parts, part.lines ≠ []
  alternate : parts.IsChain fun part next => part.isRegion = true ∨ next.isRegion = true

theorem splitKeepingLineEndings_flatten {lines : List Bytes} (h : FileLines lines) :
    splitKeepingLineEndings lines.flatten = lines := by
  obtain ⟨ended, rest, hEnded, hRest, rfl⟩ := h
  have hFlatten : (ended.map (· ++ [LF]) ++ if rest.isEmpty then [] else [rest]).flatten =
      Library.Lines.join LF ended ++ rest := by
    rw [List.flatten_append, Library.Lines.join, List.flatMap_def]
    cases rest with
    | nil => rfl
    | cons b rest => simp
  rw [hFlatten, splitKeepingLineEndings, Library.Lines.cut_join LF hEnded hRest]

theorem stripLineEnding_append {front : Bytes} (h : ∃ b, front.getLast? = some b ∧ b ≠ LF ∧ b ≠ CR)
    (line : Bytes) : stripLineEnding (front ++ line) = front ++ stripLineEnding line := by
  obtain ⟨b, hLast, hLf, hCr⟩ := h
  have dropEnd (ending : UInt8) (hEnding : b ≠ ending) (view : Bytes) :
      (if (front ++ view).getLast? = some ending then (front ++ view).dropLast else front ++ view) =
        front ++ if view.getLast? = some ending then view.dropLast else view := by
    rcases List.eq_nil_or_concat view with rfl | ⟨view, last, rfl⟩
    · simp [hLast, hEnding]
    · rw [List.concat_eq_append, ← List.append_assoc]
      simp only [List.getLast?_concat, List.dropLast_concat]
      split
      · rfl
      · rw [List.append_assoc]
  simp only [stripLineEnding, dropEnd LF hLf, dropEnd CR hCr]

theorem startsWith_strip {front : Bytes} (h : ∃ b, front.getLast? = some b ∧ b ≠ LF ∧ b ≠ CR)
    (line : Bytes) : startsWith (stripLineEnding (front ++ line)) front = true := by
  rw [stripLineEnding_append h]
  exact startsWith_append _ _

theorem strip_separator (ending : LineEnding) :
    stripLineEnding (separator ++ ending.bytes) = separator := by
  cases ending with
  | lf => decide
  | crlf => decide
  | endOfFile => decide

theorem push_push (scan : RegionScan) (lines more : List Bytes) :
    (scan.push lines).push more = scan.push (lines ++ more) := by
  obtain ⟨ours, base, theirs, sawBase, sawSeparator, current⟩ := scan
  cases current <;> simp [RegionScan.push]

theorem push_nil (scan : RegionScan) : scan.push [] = scan := by
  obtain ⟨ours, base, theirs, sawBase, sawSeparator, current⟩ := scan
  cases current <;> simp [RegionScan.push]

theorem scanRegion_content {content : List Bytes}
    (h : ∀ line ∈ content, looksLikeMarker line = false) (scan : RegionScan) (rest : List Bytes) :
    scanRegion scan (content ++ rest) = scanRegion (scan.push content) rest := by
  induction content generalizing scan with
  | nil => rw [push_nil, List.nil_append]
  | cons line content ih =>
    have hLine := h line List.mem_cons_self
    simp only [looksLikeMarker, Bool.or_eq_false_iff, beq_eq_false_iff_ne] at hLine
    obtain ⟨⟨⟨-, hBase⟩, hSeparator⟩, hTheirs⟩ := hLine
    rw [List.cons_append, scanRegion]
    simp only [hTheirs, hBase, hSeparator, Bool.and_false, Bool.false_eq_true, if_false]
    rw [ih (fun other hOther => h other (List.mem_cons_of_mem _ hOther)), push_push]
    rfl

theorem scanRegion_body {region : RegionText} {resolution : ConflictRegionResolution}
    (h : ∀ line ∈ (ConflictPart.region region resolution).content, looksLikeMarker line = false)
    (rest : List Bytes) : ∃ scan, scanRegion {} (region.body ++ rest) = (scan, some rest) ∧
      scan.sawSeparator = true ∧ scan.segment = (ConflictPart.region region resolution).segment := by
  have hOurs : ∀ line ∈ region.ours, looksLikeMarker line = false :=
    fun line hLine => h line (List.mem_append_left _ (List.mem_append_left _ hLine))
  have hBase : ∀ line ∈ region.base.getD [], looksLikeMarker line = false :=
    fun line hLine => h line (List.mem_append_left _ (List.mem_append_right _ hLine))
  have hTheirs : ∀ line ∈ region.theirs, looksLikeMarker line = false :=
    fun line hLine => h line (List.mem_append_right _ hLine)
  have hEnd (scan : RegionScan) : scanRegion scan
      ([theirsMarker ++ region.theirsLabel ++ region.theirsEnding.bytes] ++ rest) = (scan, some rest) := by
    rw [List.append_assoc, List.singleton_append, scanRegion, if_pos (startsWith_strip ⟨62, by decide⟩ _)]
  have hSeparator (scan : RegionScan) (lines : List Bytes) :
      scanRegion scan ((separator ++ region.separatorEnding.bytes) :: lines) =
        scanRegion { scan with sawSeparator := true, current := .theirs } lines := by
    have hNot : startsWith separator theirsMarker = false ∧ startsWith separator baseMarker = false := by
      decide
    simp [scanRegion, strip_separator, hNot]
  rw [RegionText.body, List.append_assoc, List.append_assoc, List.append_assoc, scanRegion_content hOurs]
  cases hWritten : region.base with
  | none =>
    rw [RegionText.baseLines, hWritten, List.nil_append, List.cons_append, hSeparator,
      scanRegion_content hTheirs, hEnd]
    refine ⟨_, rfl, rfl, ?_⟩
    simp [RegionScan.segment, ConflictPart.segment, hWritten, RegionScan.push]
  | some base =>
    have hMarker (scan : RegionScan) (hOpen : scan.sawSeparator = false) (lines : List Bytes) :
        scanRegion scan ((baseMarker ++ region.baseLabel ++ region.baseEnding.bytes) :: lines) =
          scanRegion { scan with sawBase := true, current := .base } lines := by
      rw [List.append_assoc, scanRegion, stripLineEnding_append ⟨124, by decide⟩]
      have hNot : startsWith (baseMarker ++ stripLineEnding (region.baseLabel ++ region.baseEnding.bytes))
          theirsMarker = false := rfl
      simp [hNot, hOpen]
    rw [hWritten, Option.getD_some] at hBase
    rw [RegionText.baseLines, hWritten, List.cons_append, hMarker _ rfl, scanRegion_content hBase,
      List.cons_append, hSeparator, scanRegion_content hTheirs, hEnd]
    refine ⟨_, rfl, rfl, ?_⟩
    simp [RegionScan.segment, ConflictPart.segment, hWritten, RegionScan.push]

theorem parseLines_text (all : List Bytes) {content : List Bytes}
    (h : ∀ line ∈ content, looksLikeMarker line = false) (fuel : Nat) (rest pendingText : List Bytes)
    (result : ParsedConflictFile) :
    parseLines all (content.length + fuel) (content ++ rest) pendingText result =
      parseLines all fuel rest (pendingText ++ content) result := by
  induction content generalizing pendingText with
  | nil => simp
  | cons line content ih =>
    have hLine := h line List.mem_cons_self
    simp only [looksLikeMarker, Bool.or_eq_false_iff] at hLine
    obtain ⟨⟨⟨hOurs, -⟩, -⟩, -⟩ := hLine
    rw [List.length_cons, Nat.add_right_comm, List.cons_append, parseLines, hOurs, Bool.not_false,
      if_pos rfl, ih (fun other hOther => h other (List.mem_cons_of_mem _ hOther))]
    simp

theorem parseLines_region (all : List Bytes) {region : RegionText} {resolution : ConflictRegionResolution}
    (h : ∀ line ∈ (ConflictPart.region region resolution).content, looksLikeMarker line = false)
    (fuel : Nat) (rest pendingText : List Bytes) (result : ParsedConflictFile) :
    parseLines all (fuel + 1) ((ConflictPart.region region resolution).lines ++ rest) pendingText result =
      parseLines all fuel rest []
        { flushText pendingText result with
          segments := (flushText pendingText result).segments ++
            [(ConflictPart.region region resolution).segment]
          regionCount := (flushText pendingText result).regionCount + 1 } := by
  obtain ⟨scan, hScan, hSeparator, hSegment⟩ := scanRegion_body h rest
  have hOpen : startsWith (stripLineEnding (oursMarker ++ region.oursLabel ++ region.oursEnding.bytes))
      oursMarker = true := by
    rw [List.append_assoc]
    exact startsWith_strip ⟨60, by decide⟩ _
  rw [ConflictPart.lines, List.cons_append, parseLines, hOpen, Bool.not_true, if_neg Bool.false_ne_true,
    hScan]
  simp only [hSeparator, if_true, addRegion, hSegment]

/-- The result with the segments of `parts` after its own. -/
def appendParts (result : ParsedConflictFile) (parts : List ConflictPart) :
    ParsedConflictFile :=
  { result with
    segments := result.segments ++ parts.map ConflictPart.segment
    regionCount := result.regionCount + parts.countP ConflictPart.isRegion }

theorem parseLines_parts (all : List Bytes) {parts : List ConflictPart}
    (hContent : ∀ part ∈ parts, ∀ line ∈ part.content, looksLikeMarker line = false)
    (hFilled : ∀ part ∈ parts, part.lines ≠ [])
    (hAlternate : parts.IsChain fun part next => part.isRegion = true ∨ next.isRegion = true)
    {pendingText : List Bytes}
    (hPending : pendingText ≠ [] → ∀ part ∈ parts.head?, part.isRegion = true) {fuel : Nat}
    (hFuel : (parts.flatMap ConflictPart.lines).length ≤ fuel) (result : ParsedConflictFile) :
    parseLines all fuel (parts.flatMap ConflictPart.lines) pendingText result =
      appendParts (flushText pendingText result) parts := by
  induction parts generalizing pendingText fuel result with
  | nil =>
    have hSame : appendParts (flushText pendingText result) [] = flushText pendingText result := by
      simp [appendParts]
    rw [hSame, List.flatMap_nil]
    cases fuel with
    | zero => rfl
    | succ fuel => rfl
  | cons part parts ih =>
    have hRest : ∀ part ∈ parts, ∀ line ∈ part.content, looksLikeMarker line = false :=
      fun other hOther => hContent other (List.mem_cons_of_mem _ hOther)
    have hFilledRest : ∀ part ∈ parts, part.lines ≠ [] :=
      fun other hOther => hFilled other (List.mem_cons_of_mem _ hOther)
    have hPart := hContent part List.mem_cons_self
    rw [List.flatMap_cons, List.length_append] at hFuel
    rw [List.flatMap_cons]
    cases part with
    | text lines =>
      have hNone : pendingText = [] := by
        refine Decidable.byContradiction fun hSome => ?_
        exact absurd (hPending hSome _ rfl) Bool.false_ne_true
      subst hNone
      obtain ⟨left, rfl⟩ := Nat.exists_eq_add_of_le (Nat.le_trans (Nat.le_add_right _ _) hFuel)
      have hLines : lines.isEmpty = false :=
        Bool.eq_false_iff.mpr fun hEmpty =>
          hFilled (.text lines) List.mem_cons_self (List.isEmpty_iff.mp hEmpty)
      have hNext : lines ≠ [] → ∀ next ∈ parts.head?, next.isRegion = true := by
        intro _ next hNext
        obtain ⟨tail, rfl⟩ := List.head?_eq_some_iff.mp hNext
        exact (List.isChain_cons_cons.mp hAlternate).1.resolve_left Bool.false_ne_true
      rw [ConflictPart.content] at hPart
      rw [ConflictPart.lines, parseLines_text all hPart, List.nil_append,
        ih hRest hFilledRest hAlternate.of_cons hNext (Nat.le_of_add_le_add_left hFuel)]
      simp [appendParts, flushText, hLines, ConflictPart.segment, ConflictPart.isRegion]
    | region written resolution =>
      cases fuel with
      | zero => simp [ConflictPart.lines] at hFuel
      | succ fuel =>
        have hLess : (parts.flatMap ConflictPart.lines).length ≤ fuel := by
          simp only [ConflictPart.lines, List.length_cons] at hFuel
          omega
        rw [parseLines_region all hPart, ih hRest hFilledRest hAlternate.of_cons (fun hSome => absurd rfl hSome) hLess]
        have hCount : (ConflictPart.region written resolution :: parts).countP ConflictPart.isRegion =
            parts.countP ConflictPart.isRegion + 1 := List.countP_cons_of_pos rfl
        have hFlush (other : ParsedConflictFile) : flushText [] other = other := rfl
        simp only [hFlush, appendParts, hCount, List.map_cons, List.append_assoc, List.singleton_append,
          Nat.add_assoc, Nat.add_comm 1]

theorem assembleSegments_parts {parts : List ConflictPart}
    (h : ∀ resolution ∈ parts.filterMap ConflictPart.resolution?, resolution.choice ≠ .unresolved) :
    assembleSegments (parts.map ConflictPart.segment) (parts.filterMap ConflictPart.resolution?) =
      (parts.flatMap ConflictPart.resolved).flatten := by
  induction parts with
  | nil => rfl
  | cons part parts ih =>
    cases part with
    | text lines =>
      simp only [List.map_cons, ConflictPart.segment, List.filterMap_cons, ConflictPart.resolution?,
        assembleSegments, List.flatMap_cons, ConflictPart.resolved, List.flatten_append]
      rw [ih h]
    | region written resolution =>
      have hRest := ih fun other hOther => h other (List.mem_cons_of_mem _ hOther)
      have hMade := h resolution List.mem_cons_self
      simp only [List.map_cons, ConflictPart.segment, List.filterMap_cons, ConflictPart.resolution?,
        assembleSegments, List.flatMap_cons, List.flatten_append, hRest]
      congr 2

theorem length_resolutions (parts : List ConflictPart) :
    (parts.filterMap ConflictPart.resolution?).length = parts.countP ConflictPart.isRegion := by
  rw [List.length_filterMap_eq_countP]
  refine List.countP_congr fun part _ => ?_
  cases part with
  | text lines => rfl
  | region written resolution => rfl

/-- A printed file parses into its parts, and assembles into its text and the chosen sides. -/
theorem conflict_file_round_trip {parts : List ConflictPart} (h : WellFormed parts) :
    parse (render parts) =
      { segments := parts.map ConflictPart.segment
        regionCount := parts.countP ConflictPart.isRegion } ∧
    ((∀ resolution ∈ parts.filterMap ConflictPart.resolution?, resolution.choice ≠ .unresolved) →
      assemble (parse (render parts)) (parts.filterMap ConflictPart.resolution?) =
        some (parts.flatMap ConflictPart.resolved).flatten) := by
  have hParse : parse (render parts) =
      { segments := parts.map ConflictPart.segment
        regionCount := parts.countP ConflictPart.isRegion } := by
    rw [parse, render, splitKeepingLineEndings_flatten h.lines,
      parseLines_parts _ h.content h.filled h.alternate (fun hSome => absurd rfl hSome) (Nat.le_refl _)]
    simp [appendParts, flushText]
  refine ⟨hParse, fun hResolved => ?_⟩
  have hNone : ¬ (parts.filterMap ConflictPart.resolution?).any
      (fun resolution => resolution.choice == .unresolved) = true := by
    intro hAny
    obtain ⟨resolution, hMem, hChoice⟩ := List.any_eq_true.mp hAny
    exact hResolved resolution hMem (beq_iff_eq.mp hChoice)
  rw [hParse, assemble, length_resolutions, if_neg (fun hNot => hNot rfl), if_neg hNone,
    assembleSegments_parts hResolved]

/-- Both line endings, a region with a base and an empty side, and no final newline. -/
def mixedFile : List ConflictPart :=
  [.text [ascii "before\r\n"],
    .region
      { ours := [ascii "mine\n"], base := some [], theirs := []
        oursLabel := ascii " HEAD", theirsLabel := ascii " feature", theirsEnding := .crlf }
      { choice := .custom, customLines := [ascii "both\n"] },
    .text [ascii "after"]]

theorem conflict_file_round_trip_mixed :
    assemble (parse (render mixedFile)) (mixedFile.filterMap ConflictPart.resolution?) =
      some (ascii "before\r\nboth\nafter") := by
  have hLines : FileLines (mixedFile.flatMap ConflictPart.lines) :=
    ⟨[ascii "before\r", ascii "<<<<<<< HEAD", ascii "mine", ascii "|||||||", ascii "=======",
      ascii ">>>>>>> feature\r"], ascii "after", by decide, by decide, by decide⟩
  exact (conflict_file_round_trip ⟨hLines, by decide, by decide, by decide⟩).2 (by decide)

end ConflictMarkerParser

end GitBranchManager
