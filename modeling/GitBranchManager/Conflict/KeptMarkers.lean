import GitBranchManager.Conflict.ConflictRoundTrip

/-! # Marker lines that outlive a resolution

The parser reads a marker only where it expects one. An opening line inside a region, a base
line after the separator and a marker outside of every region are lines like any other, and
are kept with what surrounds them.
-/

namespace GitBranchManager

namespace ConflictMarkerParser

def isOpening (line : Bytes) : Bool := startsWith (stripLineEnding line) oursMarker
def isBase (line : Bytes) : Bool := startsWith (stripLineEnding line) baseMarker
def isSeparator (line : Bytes) : Bool := stripLineEnding line == separator
def isEnding (line : Bytes) : Bool := startsWith (stripLineEnding line) theirsMarker

/-- A lone `=======` is also how a heading is underlined; the other markers are never text. -/
def isConflictMarker (line : Bytes) : Bool := isOpening line || isBase line || isEnding line

def textBefore (lines : List Bytes) : List Bytes := lines.takeWhile fun line => !isOpening line

def afterOpening (lines : List Bytes) : List Bytes := (lines.dropWhile fun line => !isOpening line).tail

def regionLines (lines : List Bytes) : List Bytes := (afterOpening lines).takeWhile fun line => !isEnding line

def afterRegion (lines : List Bytes) : List Bytes :=
  ((afterOpening lines).dropWhile fun line => !isEnding line).tail

def oursOf (region : List Bytes) : List Bytes := region.takeWhile fun line => !(isBase line || isSeparator line)

def theirsOf (region : List Bytes) : List Bytes :=
  (region.dropWhile fun line => !isSeparator line).tail.filter fun line => !isSeparator line

/-- No marker stands outside of the regions, none opens a region inside of a chosen side, and
no base line follows the separator of a region whose second side is chosen. -/
def OnlyStructuralMarkers (marker : Bytes → Bool) : List Bytes → List ConflictRegionResolution → Prop
  | lines, [] => ∀ line ∈ lines, marker line = false
  | lines, resolution :: resolutions =>
    (∀ line ∈ textBefore lines, marker line = false) ∧
    (resolution.choice = .ours → ∀ line ∈ oursOf (regionLines lines), isOpening line = false) ∧
    (resolution.choice = .theirs → ∀ line ∈ theirsOf (regionLines lines),
      isOpening line = false ∧ isBase line = false) ∧
    OnlyStructuralMarkers marker (afterRegion lines) resolutions

/-- The lines that a resolved file is made of. -/
def keptLines : List Bytes → List ConflictRegionResolution → List Bytes
  | lines, [] => lines
  | lines, resolution :: resolutions =>
    textBefore lines ++
      (if resolution.choice = .ours then oursOf (regionLines lines) else theirsOf (regionLines lines)) ++
      keptLines (afterRegion lines) resolutions

def SideChosen (resolution : ConflictRegionResolution) : Prop :=
  resolution.choice = .ours ∨ resolution.choice = .theirs

instance (resolution : ConflictRegionResolution) : Decidable (SideChosen resolution) :=
  inferInstanceAs (Decidable (_ ∨ _))

theorem looksLikeMarker_eq (line : Bytes) :
    looksLikeMarker line = (isConflictMarker line || isSeparator line) := by
  simp only [looksLikeMarker, isConflictMarker, isOpening, isBase, isSeparator, isEnding]
  rw [Bool.or_right_comm]

theorem isBase_of_isSeparator {line : Bytes} (h : isSeparator line = true) : isBase line = false := by
  rw [isBase, beq_iff_eq.mp h]
  decide

/-- What a line that does not end the region makes of the scan. -/
def RegionScan.next (scan : RegionScan) (line : Bytes) : RegionScan :=
  if !scan.sawSeparator && isBase line then { scan with sawBase := true, current := .base }
  else if isSeparator line then { scan with sawSeparator := true, current := .theirs }
  else scan.push [line]

namespace RegionScan

variable {scan : RegionScan}

/-- Before the separator a line opens the base, is the separator or belongs to its side. -/
theorem next_cases (hSeparator : scan.sawSeparator = false) (line : Bytes) :
    isBase line = true ∧ isSeparator line = false ∧ scan.next line = { scan with sawBase := true, current := .base } ∨
      isBase line = false ∧ isSeparator line = true ∧
        scan.next line = { scan with sawSeparator := true, current := .theirs } ∨
      isBase line = false ∧ isSeparator line = false ∧ scan.next line = scan.push [line] := by
  rw [next, hSeparator]
  cases hBase : isBase line with
  | true =>
    have hNot : isSeparator line = false :=
      Bool.eq_false_iff.mpr fun hLine => absurd (isBase_of_isSeparator hLine) (by simp [hBase])
    exact .inl ⟨rfl, hNot, rfl⟩
  | false =>
    cases hLine : isSeparator line with
    | true => exact .inr (.inl ⟨rfl, rfl, rfl⟩)
    | false => exact .inr (.inr ⟨rfl, rfl, rfl⟩)

/-- After it every other line belongs to their side. -/
theorem next_after (hSeparator : scan.sawSeparator = true) (line : Bytes) :
    isSeparator line = true ∧ scan.next line = { scan with sawSeparator := true, current := .theirs } ∨
      isSeparator line = false ∧ scan.next line = scan.push [line] := by
  rw [next, hSeparator]
  cases isSeparator line with
  | true => exact .inl ⟨rfl, rfl⟩
  | false => exact .inr ⟨rfl, rfl⟩

end RegionScan

theorem scanRegion_cons (scan : RegionScan) (line : Bytes) (lines : List Bytes) :
    scanRegion scan (line :: lines) =
      if isEnding line then (scan, some lines) else scanRegion (scan.next line) lines := by
  have hSame : (isSeparator line = true) = (stripLineEnding line = separator) := propext beq_iff_eq
  rw [scanRegion, RegionScan.next]
  simp only [hSame]
  rw [apply_ite fun next => scanRegion next lines, apply_ite fun next => scanRegion next lines]
  rfl

/-- A line closes the region, or the scan goes on with what it makes of it. -/
theorem scanRegion_cons_cases {scan scan' : RegionScan} {line : Bytes} {lines rest : List Bytes}
    (h : scanRegion scan (line :: lines) = (scan', some rest)) :
    isEnding line = true ∧ scan' = scan ∧ rest = lines ∨
      isEnding line = false ∧ scanRegion (scan.next line) lines = (scan', some rest) := by
  rw [scanRegion_cons] at h
  cases hEnding : isEnding line with
  | true =>
    rw [hEnding, if_pos rfl] at h
    obtain ⟨hScan, hRest⟩ := Prod.mk.inj h
    exact .inl ⟨rfl, hScan.symm, (Option.some.inj hRest).symm⟩
  | false =>
    rw [hEnding, if_neg Bool.false_ne_true] at h
    exact .inr ⟨rfl, h⟩

theorem scanRegion_after_separator {scan scan' : RegionScan} {lines rest : List Bytes}
    (h : scanRegion scan lines = (scan', some rest)) (hSide : scan.current = .theirs)
    (hSeparator : scan.sawSeparator = true) :
    scan'.ours = scan.ours ∧
    scan'.theirs = scan.theirs ++
      (lines.takeWhile fun line => !isEnding line).filter (fun line => !isSeparator line) ∧
    rest = (lines.dropWhile fun line => !isEnding line).tail := by
  induction lines generalizing scan with
  | nil => cases h
  | cons line lines ih =>
    obtain ⟨hEnding, rfl, rfl⟩ | ⟨hEnding, h⟩ := scanRegion_cons_cases h
    · simp [hEnding]
    · obtain ⟨hLine, hNext⟩ | ⟨hKept, hNext⟩ := RegionScan.next_after hSeparator line
      · rw [hNext] at h
        simpa [hEnding, hLine] using ih h rfl rfl
      · rw [hNext] at h
        obtain ⟨ours, base, theirs, sawBase, sawSeparator, current⟩ := scan
        obtain rfl : current = .theirs := hSide
        simpa [RegionScan.push, hEnding, hKept] using ih h rfl hSeparator

theorem scanRegion_sides {scan scan' : RegionScan} {lines rest : List Bytes}
    (h : scanRegion scan lines = (scan', some rest)) (hSide : scan.current ≠ .theirs)
    (hSeparator : scan.sawSeparator = false) :
    scan'.ours = scan.ours ++
      (if scan.current = .ours then oursOf (lines.takeWhile fun line => !isEnding line) else []) ∧
    scan'.theirs = scan.theirs ++ theirsOf (lines.takeWhile fun line => !isEnding line) ∧
    rest = (lines.dropWhile fun line => !isEnding line).tail := by
  induction lines generalizing scan with
  | nil => cases h
  | cons line lines ih =>
    obtain ⟨hEnding, rfl, rfl⟩ | ⟨hEnding, h⟩ := scanRegion_cons_cases h
    · simp [hEnding, oursOf, theirsOf]
    · obtain ⟨hBase, hNot, hNext⟩ | ⟨hPlain, hLine, hNext⟩ | ⟨hPlain, hKept, hNext⟩ :=
        RegionScan.next_cases hSeparator line
      · rw [hNext] at h
        have hRest := ih h (by simp) hSeparator
        simpa [hEnding, oursOf, theirsOf, hBase, hNot] using hRest
      · rw [hNext] at h
        have hRest := scanRegion_after_separator h rfl rfl
        simpa [hEnding, oursOf, theirsOf, hLine] using hRest
      · rw [hNext] at h
        obtain ⟨ours, base, theirs, sawBase, sawSeparator, current⟩ := scan
        cases current with
        | ours =>
          have hRest := ih h hSide hSeparator
          simpa [RegionScan.push, hEnding, oursOf, theirsOf, hPlain, hKept] using hRest
        | base =>
          have hRest := ih h hSide hSeparator
          simpa [RegionScan.push, hEnding, oursOf, theirsOf, hKept] using hRest
        | theirs => exact absurd rfl hSide

theorem keptLines_text {line : Bytes} (h : isOpening line = false) (lines : List Bytes)
    (resolutions : List ConflictRegionResolution) :
    keptLines (line :: lines) resolutions = line :: keptLines lines resolutions := by
  cases resolutions with
  | nil => rfl
  | cons resolution resolutions =>
    simp [keptLines, textBefore, regionLines, afterRegion, afterOpening, h]

theorem keptLines_region {line : Bytes} (hOpening : isOpening line = true) {lines rest : List Bytes}
    {scan : RegionScan} (hScan : scanRegion {} lines = (scan, some rest))
    (resolution : ConflictRegionResolution) (resolutions : List ConflictRegionResolution) :
    keptLines (line :: lines) (resolution :: resolutions) =
      (if resolution.choice = .ours then scan.ours else scan.theirs) ++ keptLines rest resolutions := by
  obtain ⟨hOurs, hTheirs, hRest⟩ := scanRegion_sides hScan (by simp) rfl
  simp only [if_true, List.nil_append] at hOurs hTheirs
  have hBefore : textBefore (line :: lines) = [] := by simp [textBefore, hOpening]
  have hAfter : afterOpening (line :: lines) = lines := by simp [afterOpening, hOpening]
  rw [keptLines, hBefore, regionLines, afterRegion, hAfter, ← hOurs, ← hTheirs, ← hRest, List.nil_append]

/-- The segments that `flushText` adds. -/
def pendingSegments (pendingText : List Bytes) : List ConflictSegment :=
  if pendingText.isEmpty then [] else [{ kind := .text, lines := pendingText }]

theorem flushText_eq (pendingText : List Bytes) (result : ParsedConflictFile) :
    flushText pendingText result =
      { result with segments := result.segments ++ pendingSegments pendingText } := by
  rw [flushText, pendingSegments]
  split
  · rw [List.append_nil]
  · rfl

theorem assembleSegments_pending (pendingText : List Bytes) (segments : List ConflictSegment)
    (resolutions : List ConflictRegionResolution) :
    assembleSegments (pendingSegments pendingText ++ segments) resolutions =
      pendingText.flatten ++ assembleSegments segments resolutions := by
  cases pendingText with
  | nil => rfl
  | cons line pendingText => rfl

/-- The loop went from `before` to `after`, and added segments that assemble into the pending
text and the kept lines. -/
def AddsKept (before after : ParsedConflictFile) (pendingText lines : List Bytes) : Prop :=
  ∃ (segments : List ConflictSegment) (count : Nat),
    after = { before with
      segments := before.segments ++ segments
      regionCount := before.regionCount + count } ∧
    ∀ resolutions : List ConflictRegionResolution, resolutions.length = count →
      (∀ resolution ∈ resolutions, SideChosen resolution) →
      assembleSegments segments resolutions = (pendingText ++ keptLines lines resolutions).flatten

theorem addsKept_flush (pendingText : List Bytes) (result : ParsedConflictFile) :
    AddsKept result (flushText pendingText result) pendingText [] := by
  refine ⟨pendingSegments pendingText, 0, flushText_eq _ _, ?_⟩
  intro resolutions hNone _
  obtain rfl := List.length_eq_zero_iff.mp hNone
  have hSegments := assembleSegments_pending pendingText [] []
  rw [List.append_nil] at hSegments
  rw [hSegments, List.flatten_append]
  rfl

theorem addsKept_text {before after : ParsedConflictFile} {pendingText lines : List Bytes} {line : Bytes}
    (hLine : isOpening line = false) (h : AddsKept before after (pendingText ++ [line]) lines) :
    AddsKept before after pendingText (line :: lines) := by
  obtain ⟨segments, count, hAfter, hSegments⟩ := h
  refine ⟨segments, count, hAfter, ?_⟩
  intro resolutions hCount hSides
  rw [hSegments resolutions hCount hSides, keptLines_text hLine, List.append_assoc, List.singleton_append]

theorem addsKept_region {before after : ParsedConflictFile} {pendingText lines rest : List Bytes}
    {line : Bytes} {scan : RegionScan} (hLine : isOpening line = true)
    (hScan : scanRegion {} lines = (scan, some rest))
    (h : AddsKept (addRegion scan (flushText pendingText before)) after [] rest) :
    AddsKept before after pendingText (line :: lines) := by
  obtain ⟨segments, count, hAfter, hSegments⟩ := h
  refine ⟨pendingSegments pendingText ++ scan.segment :: segments, count + 1, ?_, ?_⟩
  · rw [hAfter, flushText_eq, addRegion]
    simp [Nat.add_assoc, Nat.add_comm 1]
  · intro resolutions hCount hSides
    obtain ⟨resolution, resolutions, rfl⟩ := List.exists_cons_of_length_eq_add_one hCount
    have hRest := hSegments resolutions (Nat.succ.inj hCount)
      fun other hOther => hSides other (List.mem_cons_of_mem _ hOther)
    have hChosen : chosen scan.segment resolution =
        if resolution.choice = .ours then scan.ours else scan.theirs := by
      rcases hSides resolution List.mem_cons_self with hOurs | hTheirs
      · rw [chosen, hOurs, if_pos rfl, RegionScan.segment]
      · rw [chosen, hTheirs, if_neg (by decide), RegionScan.segment]
    have hHead : assembleSegments (scan.segment :: segments) (resolution :: resolutions) =
        (chosen scan.segment resolution).flatten ++ assembleSegments segments resolutions := rfl
    rw [assembleSegments_pending, hHead, hRest, hChosen, keptLines_region hLine hScan]
    simp only [List.nil_append, List.flatten_append]

/-- By induction on the fuel, over the turns of a parse that ends well: a line of text, or a region
with its separator. -/
theorem parseLines_induction (all : List Bytes)
    {motive : Nat → ParsedConflictFile → ParsedConflictFile → List Bytes → List Bytes → Prop}
    (hFlush : ∀ fuel pendingText before, motive fuel before (flushText pendingText before) pendingText [])
    (hText : ∀ fuel before after pendingText line lines, isOpening line = false →
      motive fuel before after (pendingText ++ [line]) lines →
        motive (fuel + 1) before after pendingText (line :: lines))
    (hRegion : ∀ fuel before after pendingText line lines scan rest, isOpening line = true →
      scanRegion {} lines = (scan, some rest) → scan.sawSeparator = true →
      motive fuel (addRegion scan (flushText pendingText before)) after [] rest →
      motive (fuel + 1) before after pendingText (line :: lines))
    {fuel : Nat} {lines : List Bytes} (pendingText : List Bytes) (result : ParsedConflictFile)
    (hFuel : lines.length ≤ fuel) (hWell : (parseLines all fuel lines pendingText result).wellFormed = true) :
    motive fuel result (parseLines all fuel lines pendingText result) pendingText lines := by
  induction fuel generalizing lines pendingText result with
  | zero =>
    obtain rfl := List.length_eq_zero_iff.mp (Nat.le_zero.mp hFuel)
    exact hFlush 0 pendingText result
  | succ fuel ih =>
    cases lines with
    | nil => exact hFlush (fuel + 1) pendingText result
    | cons line lines =>
      rw [parseLines] at hWell ⊢
      by_cases hLine : startsWith (stripLineEnding line) oursMarker = true
      · simp only [hLine, Bool.not_true, Bool.false_eq_true, if_false] at hWell ⊢
        rcases hScan : scanRegion {} lines with ⟨scan, _ | rest⟩
        · rw [hScan] at hWell
          cases hWell
        · rw [hScan] at hWell
          by_cases hSeparator : scan.sawSeparator = true
          · simp only [hSeparator, if_true] at hWell ⊢
            have hTail : rest.length ≤ lines.length := by
              rw [(scanRegion_sides hScan (by simp) rfl).2.2]
              exact ((List.tail_sublist _).trans (List.dropWhile_sublist _)).length_le
            have hNext := ih [] _ (hTail.trans (Nat.le_of_succ_le_succ hFuel)) hWell
            exact hRegion fuel _ _ _ _ _ _ _ hLine hScan hSeparator hNext
          · simp only [if_neg hSeparator] at hWell
            cases hWell
      · have hNone : startsWith (stripLineEnding line) oursMarker = false := Bool.eq_false_iff.mpr hLine
        simp only [hNone, Bool.not_false, if_true] at hWell ⊢
        exact hText fuel _ _ _ _ _ hNone (ih _ _ (Nat.le_of_succ_le_succ hFuel) hWell)

theorem parseLines_kept (all : List Bytes) {fuel : Nat} {lines : List Bytes} (pendingText : List Bytes)
    (result : ParsedConflictFile) (hFuel : lines.length ≤ fuel)
    (hWell : (parseLines all fuel lines pendingText result).wellFormed = true) :
    AddsKept result (parseLines all fuel lines pendingText result) pendingText lines := by
  apply parseLines_induction (motive := fun _ => AddsKept) all
  case hFlush => exact fun _ pendingText before => addsKept_flush pendingText before
  case hText => exact fun _ _ _ _ _ _ hLine hNext => addsKept_text hLine hNext
  case hRegion => exact fun _ _ _ _ _ _ _ _ hLine hScan _ hNext => addsKept_region hLine hScan hNext
  case hFuel => exact hFuel
  case hWell => exact hWell

theorem oursOf_sublist (region : List Bytes) : (oursOf region).Sublist region :=
  List.takeWhile_sublist _

theorem theirsOf_sublist (region : List Bytes) : (theirsOf region).Sublist region :=
  (List.filter_sublist).trans ((List.tail_sublist _).trans (List.dropWhile_sublist _))

theorem keptLines_sublist (lines : List Bytes) (resolutions : List ConflictRegionResolution) :
    (keptLines lines resolutions).Sublist lines := by
  induction resolutions generalizing lines with
  | nil => exact List.Sublist.refl _
  | cons resolution resolutions ih =>
    have hSide : (if resolution.choice = .ours then oursOf (regionLines lines)
        else theirsOf (regionLines lines)).Sublist (regionLines lines) := by
      split
      · exact oursOf_sublist _
      · exact theirsOf_sublist _
    have hAfter : (regionLines lines ++ keptLines (afterRegion lines) resolutions).Sublist
        (afterOpening lines) := by
      have hTail : (keptLines (afterRegion lines) resolutions).Sublist
          ((afterOpening lines).dropWhile fun line => !isEnding line) :=
        (ih (afterRegion lines)).trans (List.tail_sublist _)
      have hWhole := List.Sublist.append (List.Sublist.refl (regionLines lines)) hTail
      rwa [regionLines, List.takeWhile_append_dropWhile] at hWhole
    have hBoth := (hSide.append (List.Sublist.refl _)).trans (hAfter.trans (List.tail_sublist _))
    have hWhole := List.Sublist.append (List.Sublist.refl (textBefore lines)) hBoth
    rw [textBefore, List.takeWhile_append_dropWhile, ← List.append_assoc] at hWhole
    exact hWhole

theorem FileLines.sublist {lines kept : List Bytes} (h : FileLines lines) (hKept : kept.Sublist lines) :
    FileLines kept := by
  obtain ⟨ended, rest, hEnded, hRest, rfl⟩ := h
  obtain ⟨front, last, rfl, hFront, hLast⟩ := List.sublist_append_iff.mp hKept
  obtain ⟨ended', hSub, rfl⟩ := List.sublist_map_iff.mp hFront
  have hFree : ∀ line ∈ ended', LF ∉ line := fun line hLine => hEnded line (hSub.subset hLine)
  cases rest with
  | nil =>
    obtain rfl := List.sublist_nil.mp hLast
    exact ⟨ended', [], hFree, List.not_mem_nil, rfl⟩
  | cons b rest =>
    rcases List.sublist_singleton.mp hLast with rfl | rfl
    · exact ⟨ended', [], hFree, List.not_mem_nil, rfl⟩
    · exact ⟨ended', b :: rest, hFree, hRest, rfl⟩

theorem splitKeepingLineEndings_fileLines (content : Bytes) :
    FileLines (splitKeepingLineEndings content) := by
  obtain ⟨hLines, hRest⟩ := Library.Lines.sep_not_mem_cut LF content
  exact ⟨_, _, hLines, hRest, rfl⟩

theorem marker_of_mem_oursOf {lines : List Bytes} {line : Bytes}
    (h : line ∈ oursOf (regionLines lines)) :
    isSeparator line = false ∧ isConflictMarker line = isOpening line := by
  have hEnding := List.mem_takeWhile_imp ((oursOf_sublist _).subset h)
  have hSide := List.mem_takeWhile_imp h
  simp only [Bool.not_eq_true', Bool.or_eq_false_iff] at hEnding hSide
  exact ⟨hSide.2, by rw [isConflictMarker, hEnding, hSide.1, Bool.or_false, Bool.or_false]⟩

theorem marker_of_mem_theirsOf {lines : List Bytes} {line : Bytes}
    (h : line ∈ theirsOf (regionLines lines)) :
    isSeparator line = false ∧ isConflictMarker line = (isOpening line || isBase line) := by
  have hEnding := List.mem_takeWhile_imp ((theirsOf_sublist _).subset h)
  have hSide := (List.mem_filter.mp h).2
  simp only [Bool.not_eq_true'] at hEnding hSide
  exact ⟨hSide, by rw [isConflictMarker, hEnding, Bool.or_false]⟩

theorem keptLines_iff {marker : Bytes → Bool}
    (hMarker : ∀ line, isSeparator line = false → marker line = isConflictMarker line)
    {resolutions : List ConflictRegionResolution}
    (hSides : ∀ resolution ∈ resolutions, SideChosen resolution) (lines : List Bytes) :
    (∀ line ∈ keptLines lines resolutions, marker line = false) ↔
      OnlyStructuralMarkers marker lines resolutions := by
  induction resolutions generalizing lines with
  | nil => exact Iff.rfl
  | cons resolution resolutions ih =>
    have hRest := ih (fun other hOther => hSides other (List.mem_cons_of_mem _ hOther)) (afterRegion lines)
    have hOurs : (∀ line ∈ oursOf (regionLines lines), marker line = false) ↔
        ∀ line ∈ oursOf (regionLines lines), isOpening line = false := by
      refine forall₂_congr fun line hLine => ?_
      obtain ⟨hText, hKind⟩ := marker_of_mem_oursOf hLine
      rw [hMarker line hText, hKind]
    have hTheirs : (∀ line ∈ theirsOf (regionLines lines), marker line = false) ↔
        ∀ line ∈ theirsOf (regionLines lines), isOpening line = false ∧ isBase line = false := by
      refine forall₂_congr fun line hLine => ?_
      obtain ⟨hText, hKind⟩ := marker_of_mem_theirsOf hLine
      rw [hMarker line hText, hKind, Bool.or_eq_false_iff]
    rw [keptLines, List.append_assoc, List.forall_mem_append, List.forall_mem_append, hRest,
      OnlyStructuralMarkers]
    rcases hSides resolution List.mem_cons_self with hChoice | hChoice
    · simp [hChoice, hOurs]
    · simp [hChoice, hTheirs]

/-- A resolution with one choice for each region is written, and its lines hold a marker exactly
when the file had one that the parser takes for a line of text. -/
theorem resolved_file_markers {content : Bytes} {resolutions : List ConflictRegionResolution}
    (hWell : (parse content).wellFormed = true)
    (hCount : resolutions.length = (parse content).regionCount)
    (hSides : ∀ resolution ∈ resolutions, SideChosen resolution) :
    ∃ out, assemble (parse content) resolutions = some out ∧
      ((∀ line ∈ splitKeepingLineEndings out, looksLikeMarker line = false) ↔
        OnlyStructuralMarkers looksLikeMarker (splitKeepingLineEndings content) resolutions) ∧
      ((∀ line ∈ splitKeepingLineEndings out, isConflictMarker line = false) ↔
        OnlyStructuralMarkers isConflictMarker (splitKeepingLineEndings content) resolutions) := by
  obtain ⟨segments, count, hParse, hSegments⟩ :=
    parseLines_kept (splitKeepingLineEndings content) [] {} (Nat.le_refl _) hWell
  have hParsed : parse content = { segments := segments, regionCount := count } := by
    rw [parse, hParse]
    simp
  have hLength : resolutions.length = count := by rw [hCount, hParsed]
  have hMade : ¬ resolutions.any (fun resolution => resolution.choice == .unresolved) = true := by
    intro hAny
    obtain ⟨resolution, hMem, hChoice⟩ := List.any_eq_true.mp hAny
    rcases hSides resolution hMem with hSide | hSide <;> rw [hSide] at hChoice <;> cases hChoice
  have hOut : assemble (parse content) resolutions =
      some (keptLines (splitKeepingLineEndings content) resolutions).flatten := by
    rw [assemble, if_neg (fun hNot => hNot hCount), if_neg hMade, hParsed,
      hSegments resolutions hLength hSides, List.nil_append]
  have hLines : splitKeepingLineEndings (keptLines (splitKeepingLineEndings content) resolutions).flatten =
      keptLines (splitKeepingLineEndings content) resolutions :=
    splitKeepingLineEndings_flatten
      ((splitKeepingLineEndings_fileLines content).sublist (keptLines_sublist _ _))
  refine ⟨_, hOut, ?_, ?_⟩
  · rw [hLines]
    refine keptLines_iff (fun line hText => ?_) hSides _
    rw [looksLikeMarker_eq, hText, Bool.or_false]
  · rw [hLines]
    exact keptLines_iff (fun _ _ => rfl) hSides _

/-- A side that was committed with its own conflict. -/
def nestedFile : Bytes :=
  ascii "<<<<<<< HEAD\n<<<<<<< old\nmine\n=======\nyours\n>>>>>>> feature\n"

theorem nestedFile_keeps_opening :
    (parse nestedFile).wellFormed = true ∧ (parse nestedFile).regionCount = 1 ∧
    assemble (parse nestedFile) [{ choice := .ours }] = some (ascii "<<<<<<< old\nmine\n") ∧
    ¬ ∀ line ∈ splitKeepingLineEndings (ascii "<<<<<<< old\nmine\n"), isConflictMarker line = false := by
  decide

theorem resolved_file_markers_nested :
    ∃ out, assemble (parse nestedFile) [{ choice := .theirs }] = some out ∧
      ((∀ line ∈ splitKeepingLineEndings out, looksLikeMarker line = false) ↔
        OnlyStructuralMarkers looksLikeMarker (splitKeepingLineEndings nestedFile) [{ choice := .theirs }]) ∧
      ((∀ line ∈ splitKeepingLineEndings out, isConflictMarker line = false) ↔
        OnlyStructuralMarkers isConflictMarker (splitKeepingLineEndings nestedFile) [{ choice := .theirs }]) :=
  resolved_file_markers (by decide) (by decide) (by decide)

end ConflictMarkerParser

end GitBranchManager
