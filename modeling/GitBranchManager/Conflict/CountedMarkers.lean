import GitBranchManager.Conflict.KeptMarkers

/-! # Marker lines that a region loses

The scan of a region drops every base line before the separator and every separator line, not
only the first of each. A region with one separator, and with at most one base line before it,
loses its markers only.
-/

namespace GitBranchManager

namespace ConflictMarkerParser

/-- The regions of the file, each without its opening and its closing line. -/
def regions : Nat → List Bytes → List (List Bytes)
  | fuel + 1, line :: lines =>
    if isOpening line then
      (lines.takeWhile fun line => !isEnding line) ::
        regions fuel (lines.dropWhile fun line => !isEnding line).tail
    else regions fuel lines
  | _, _ => []

def fileRegions (content : Bytes) : List (List Bytes) :=
  let lines := splitKeepingLineEndings content
  regions lines.length lines

def beforeSeparator (region : List Bytes) : List Bytes := region.takeWhile fun line => !isSeparator line

def OneOfEach (region : List Bytes) : Prop :=
  region.countP isSeparator = 1 ∧ (beforeSeparator region).countP isBase ≤ 1

instance (region : List Bytes) : Decidable (OneOfEach region) := inferInstanceAs (Decidable (_ ∧ _))

/-- The segments in order, each region between its four marker lines, are the lines. -/
def Accounted : List Bytes → List ConflictSegment → Prop
  | lines, [] => lines = []
  | lines, segment :: segments =>
    match segment.kind with
    | .text => ∃ rest, lines = segment.lines ++ rest ∧ Accounted rest segments
    | .region => ∃ (opening middle ending : Bytes) (baseLine : Option Bytes) (rest : List Bytes),
      isOpening opening = true ∧ (∀ line ∈ baseLine, isBase line = true) ∧ baseLine.isSome = segment.hasBase ∧
      isSeparator middle = true ∧ isEnding ending = true ∧
      lines = opening :: segment.ours ++ baseLine.toList ++ segment.base ++ middle :: segment.theirs ++
        ending :: rest ∧ Accounted rest segments

/-- The lines of a segment, with the markers that a region has. -/
def weight (segment : ConflictSegment) : Nat :=
  match segment.kind with
  | .text => segment.lines.length
  | .region =>
    segment.ours.length + segment.base.length + segment.theirs.length + if segment.hasBase then 4 else 3

/-- The lines that a region loses besides its markers. -/
def surplus (region : List Bytes) : Nat :=
  (region.countP isSeparator - 1) + ((beforeSeparator region).countP isBase - 1)

theorem length_of_accounted {lines : List Bytes} {segments : List ConflictSegment}
    (h : Accounted lines segments) : lines.length = (segments.map weight).sum := by
  induction segments generalizing lines with
  | nil => rw [show lines = [] from h]; rfl
  | cons segment segments ih =>
    rw [List.map_cons, List.sum_cons, weight]
    rw [Accounted] at h
    cases hKind : segment.kind with
    | text =>
      rw [hKind] at h
      obtain ⟨rest, rfl, hRest⟩ := h
      rw [List.length_append, ih hRest]
    | region =>
      rw [hKind] at h
      obtain ⟨opening, middle, ending, baseLine, rest, -, -, hBase, -, -, rfl, hRest⟩ := h
      have hLength := ih hRest
      rw [← hBase]
      cases baseLine <;> simp [hLength] <;> omega

theorem surplus_eq_zero_iff {region : List Bytes} (h : region.any isSeparator = true) :
    surplus region = 0 ↔ OneOfEach region := by
  have hSome : 0 < region.countP isSeparator := by
    obtain ⟨line, hMem, hLine⟩ := List.any_eq_true.mp h
    exact List.countP_pos_iff.mpr ⟨line, hMem, hLine⟩
  rw [surplus, OneOfEach]
  omega

/-! ## What the scan makes of a region -/

theorem scanRegion_base_after {scan scan' : RegionScan} {lines rest : List Bytes}
    (h : scanRegion scan lines = (scan', some rest)) (hSide : scan.current = .theirs)
    (hSeparator : scan.sawSeparator = true) :
    scan'.base = scan.base ∧ scan'.sawBase = scan.sawBase ∧ scan'.sawSeparator = true := by
  induction lines generalizing scan with
  | nil => cases h
  | cons line lines ih =>
    obtain ⟨-, rfl, -⟩ | ⟨-, h⟩ := scanRegion_cons_cases h
    · exact ⟨rfl, rfl, hSeparator⟩
    · obtain ⟨-, hNext⟩ | ⟨-, hNext⟩ := RegionScan.next_after hSeparator line
      · rw [hNext] at h
        have hRest := ih h rfl rfl
        exact hRest
      · rw [hNext] at h
        obtain ⟨ours, base, theirs, sawBase, sawSeparator, current⟩ := scan
        obtain rfl : current = .theirs := hSide
        have hRest := ih h rfl hSeparator
        exact hRest

theorem scanRegion_base {scan scan' : RegionScan} {lines rest : List Bytes}
    (h : scanRegion scan lines = (scan', some rest)) (hSide : scan.current ≠ .theirs)
    (hSeparator : scan.sawSeparator = false) :
    scan'.base = scan.base ++
      ((if scan.current = .base then beforeSeparator (lines.takeWhile fun line => !isEnding line)
        else (beforeSeparator (lines.takeWhile fun line => !isEnding line)).dropWhile
          fun line => !isBase line).filter fun line => !isBase line) ∧
    scan'.sawBase =
      (scan.sawBase || (beforeSeparator (lines.takeWhile fun line => !isEnding line)).any isBase) ∧
    scan'.sawSeparator = (lines.takeWhile fun line => !isEnding line).any isSeparator := by
  induction lines generalizing scan with
  | nil => cases h
  | cons line lines ih =>
    obtain ⟨hEnding, rfl, rfl⟩ | ⟨hEnding, h⟩ := scanRegion_cons_cases h
    · simp [hEnding, beforeSeparator, hSeparator]
    · obtain ⟨hBase, hNot, hNext⟩ | ⟨-, hLine, hNext⟩ | ⟨hPlain, hKept, hNext⟩ :=
        RegionScan.next_cases hSeparator line
      · rw [hNext] at h
        have hRest := ih h (by simp) hSeparator
        simpa [hEnding, beforeSeparator, hBase, hNot] using hRest
      · rw [hNext] at h
        have hRest := scanRegion_base_after h rfl rfl
        simpa [hEnding, beforeSeparator, hLine] using hRest
      · rw [hNext] at h
        obtain ⟨ours, base, theirs, sawBase, sawSeparator, current⟩ := scan
        cases current with
        | ours =>
          have hRest := ih h hSide hSeparator
          simpa [RegionScan.push, hEnding, beforeSeparator, hPlain, hKept] using hRest
        | base =>
          have hRest := ih h hSide hSeparator
          simpa [RegionScan.push, hEnding, beforeSeparator, hPlain, hKept] using hRest
        | theirs => exact absurd rfl hSide

/-- A region that the scan closes: its lines, its closing line, and what the scan keeps of it. -/
structure Scanned (lines : List Bytes) (scan : RegionScan) (rest : List Bytes) : Prop where
  closes : ∃ ending, isEnding ending = true ∧ lines = (lines.takeWhile fun line => !isEnding line) ++ ending :: rest
  rest : rest = (lines.dropWhile fun line => !isEnding line).tail
  ours : scan.ours = (beforeSeparator (lines.takeWhile fun line => !isEnding line)).takeWhile
    fun line => !isBase line
  base : scan.base = ((beforeSeparator (lines.takeWhile fun line => !isEnding line)).dropWhile
    fun line => !isBase line).filter fun line => !isBase line
  theirs : scan.theirs = theirsOf (lines.takeWhile fun line => !isEnding line)
  sawBase : scan.sawBase = (beforeSeparator (lines.takeWhile fun line => !isEnding line)).any isBase
  sawSeparator : scan.sawSeparator = (lines.takeWhile fun line => !isEnding line).any isSeparator

theorem scanRegion_closes {scan scan' : RegionScan} {lines rest : List Bytes}
    (h : scanRegion scan lines = (scan', some rest)) :
    ∃ ending, isEnding ending = true ∧
      lines = (lines.takeWhile fun line => !isEnding line) ++ ending :: rest := by
  induction lines generalizing scan with
  | nil => cases h
  | cons line lines ih =>
    obtain ⟨hEnding, -, rfl⟩ | ⟨hEnding, h⟩ := scanRegion_cons_cases h
    · exact ⟨line, hEnding, by simp [hEnding]⟩
    · obtain ⟨ending, hIs, hLines⟩ := ih h
      refine ⟨ending, hIs, ?_⟩
      rw [List.takeWhile_cons_of_pos (by simp [hEnding]), List.cons_append, ← hLines]

theorem oursOf_eq (region : List Bytes) :
    oursOf region = (beforeSeparator region).takeWhile fun line => !isBase line := by
  induction region with
  | nil => rfl
  | cons line region ih =>
    rw [oursOf, beforeSeparator] at ih ⊢
    cases hSeparator : isSeparator line with
    | true => simp [hSeparator]
    | false =>
      cases hBase : isBase line with
      | true => simp [hSeparator, hBase]
      | false => simpa [hSeparator, hBase] using ih

theorem scanned {lines rest : List Bytes} {scan : RegionScan} (h : scanRegion {} lines = (scan, some rest)) :
    Scanned lines scan rest := by
  obtain ⟨hOurs, hTheirs, hRest⟩ := scanRegion_sides h (by simp) rfl
  obtain ⟨hBase, hSawBase, hSawSeparator⟩ := scanRegion_base h (by simp) rfl
  simp only [if_true, List.nil_append, oursOf_eq] at hOurs
  simp only [reduceCtorEq, if_false, List.nil_append] at hBase hTheirs
  exact ⟨scanRegion_closes h, hRest, hOurs, hBase, hTheirs, by simpa using hSawBase, hSawSeparator⟩

theorem length_takeWhile_filter {α : Type} (p : α → Bool) (lines : List α) :
    (lines.takeWhile fun line => !p line).length +
      ((lines.dropWhile fun line => !p line).filter fun line => !p line).length + lines.countP p =
        lines.length := by
  have hFront : (lines.takeWhile fun line => !p line).countP p = 0 := by
    rw [List.countP_eq_zero]
    intro line hLine
    simpa using List.mem_takeWhile_imp hLine
  have hSplit := List.takeWhile_append_dropWhile (p := fun line => !p line) (l := lines)
  have hCount := congrArg (List.countP p) hSplit
  have hLength := congrArg List.length hSplit
  have hRest := List.length_eq_countP_add_countP p (l := lines.dropWhile fun line => !p line)
  have hKept : ((lines.dropWhile fun line => !p line).filter fun line => !p line).length =
      (lines.dropWhile fun line => !p line).countP fun line => ¬ p line := by
    rw [List.countP_eq_length_filter]
    simp
  rw [List.countP_append, hFront] at hCount
  rw [List.length_append] at hLength
  omega

theorem marked_of_dropWhile {marks : Bytes → Bool} {lines more : List Bytes} {line : Bytes}
    (h : (lines.dropWhile fun line => !marks line) = line :: more) : marks line = true := by
  have hSome : (lines.dropWhile fun line => !marks line) ≠ [] := by simp [h]
  have hHead := List.head_dropWhile_not (fun line => !marks line) hSome
  simpa [h] using hHead

theorem filter_of_countP {marks : Bytes → Bool} {lines : List Bytes} (h : lines.countP marks = 0) :
    (lines.filter fun line => !marks line) = lines := by
  rw [List.filter_eq_self]
  intro line hLine
  simpa using List.countP_eq_zero.mp h line hLine

theorem region_split {region : List Bytes} (h : region.any isSeparator = true) :
    ∃ middle back, isSeparator middle = true ∧ region = beforeSeparator region ++ middle :: back ∧
      theirsOf region = back.filter fun line => !isSeparator line := by
  cases hBack : region.dropWhile fun line => !isSeparator line with
  | nil =>
    obtain ⟨line, hMem, hLine⟩ := List.any_eq_true.mp h
    have hAll := List.dropWhile_eq_nil_iff.mp hBack line hMem
    rw [hLine] at hAll
    cases hAll
  | cons middle back =>
    refine ⟨middle, back, marked_of_dropWhile hBack, ?_, ?_⟩
    · rw [← hBack]
      exact List.takeWhile_append_dropWhile.symm
    · rw [theirsOf, hBack, List.tail_cons]

theorem countP_beforeSeparator (region : List Bytes) : (beforeSeparator region).countP isSeparator = 0 := by
  rw [List.countP_eq_zero]
  intro line hLine
  simpa using List.mem_takeWhile_imp hLine

/-- The lines of a region are kept on one of its sides, are base lines before the separator, or are
separators. -/
theorem length_region {region : List Bytes} (h : region.any isSeparator = true) :
    region.length =
      ((beforeSeparator region).takeWhile fun line => !isBase line).length +
      (((beforeSeparator region).dropWhile fun line => !isBase line).filter fun line => !isBase line).length +
      (theirsOf region).length + (beforeSeparator region).countP isBase + region.countP isSeparator := by
  have hFront := length_takeWhile_filter isBase (beforeSeparator region)
  obtain ⟨middle, back, hMiddle, hSplit, hTheirs⟩ := region_split h
  have hBackLength := List.length_eq_countP_add_countP isSeparator (l := back)
  have hKept : (back.filter fun line => !isSeparator line).length = back.countP fun line => ¬ isSeparator line := by
    rw [List.countP_eq_length_filter]
    simp
  have hLength := congrArg List.length hSplit
  have hCount := congrArg (List.countP isSeparator) hSplit
  rw [List.length_append, List.length_cons] at hLength
  rw [List.countP_append, List.countP_cons_of_pos hMiddle, countP_beforeSeparator] at hCount
  rw [hTheirs, hKept]
  omega

/-- With one marker of each kind nothing else is left out. -/
theorem region_parts {region : List Bytes} (h : OneOfEach region) :
    ∃ (middle : Bytes) (baseLine : Option Bytes), isSeparator middle = true ∧
      (∀ line ∈ baseLine, isBase line = true) ∧ baseLine.isSome = (beforeSeparator region).any isBase ∧
      region = ((beforeSeparator region).takeWhile fun line => !isBase line) ++ baseLine.toList ++
        (((beforeSeparator region).dropWhile fun line => !isBase line).filter fun line => !isBase line) ++
        middle :: theirsOf region := by
  obtain ⟨hSeparators, hBases⟩ := h
  have hAny : region.any isSeparator = true := by
    obtain ⟨line, hMem, hLine⟩ := List.countP_pos_iff.mp (Nat.lt_of_lt_of_eq Nat.zero_lt_one hSeparators.symm)
    exact List.any_eq_true.mpr ⟨line, hMem, hLine⟩
  obtain ⟨middle, back, hMiddle, hSplit, hTheirs⟩ := region_split hAny
  have hBack : theirsOf region = back := by
    have hCount := congrArg (List.countP isSeparator) hSplit
    rw [hSeparators, List.countP_append, List.countP_cons_of_pos hMiddle, countP_beforeSeparator] at hCount
    have hNone : back.countP isSeparator = 0 := by omega
    rw [hTheirs, filter_of_countP hNone]
  have hFront := List.takeWhile_append_dropWhile (p := fun line => !isBase line) (l := beforeSeparator region)
  cases hDrop : (beforeSeparator region).dropWhile fun line => !isBase line with
  | nil =>
    refine ⟨middle, none, hMiddle, by simp, ?_, ?_⟩
    · rw [Option.isSome_none, eq_comm, List.any_eq_false]
      intro line hLine
      simpa using List.dropWhile_eq_nil_iff.mp hDrop line hLine
    · rw [hDrop, List.append_nil] at hFront
      rw [hFront, hBack, Option.toList_none, List.filter_nil, List.append_nil, List.append_nil]
      exact hSplit
  | cons baseLine more =>
    have hBaseLine : isBase baseLine = true := marked_of_dropWhile hDrop
    rw [hDrop] at hFront
    have hMore : more.filter (fun line => !isBase line) = more := by
      have hCount := congrArg (List.countP isBase) hFront
      rw [List.countP_append, List.countP_cons_of_pos hBaseLine] at hCount
      have hNone : more.countP isBase = 0 := by omega
      exact filter_of_countP hNone
    refine ⟨middle, some baseLine, hMiddle, by simpa using hBaseLine, ?_, ?_⟩
    · rw [Option.isSome_some, eq_comm, List.any_eq_true]
      refine ⟨baseLine, ?_, hBaseLine⟩
      rw [← hFront]
      simp
    · have hWhole := hSplit
      rw [← hFront, List.append_assoc, List.cons_append] at hWhole
      rw [hBack, List.filter_cons_of_neg (by simp [hBaseLine]), hMore, Option.toList_some, List.append_assoc,
        List.append_assoc, List.singleton_append]
      exact hWhole

/-! ## What the parser makes of the file -/

/-- Without a base line there are no lines of the base to leave out. -/
theorem Scanned.base_kept {lines rest : List Bytes} {scan : RegionScan} (h : Scanned lines scan rest) :
    (if scan.sawBase then scan.base else []) = scan.base := by
  cases hSaw : scan.sawBase with
  | true => rfl
  | false =>
    rw [h.sawBase, List.any_eq_false] at hSaw
    have hDropped : (beforeSeparator (lines.takeWhile fun line => !isEnding line)).dropWhile
        (fun line => !isBase line) = [] := by
      rw [List.dropWhile_eq_nil_iff]
      intro line hLine
      simpa using hSaw line hLine
    rw [if_neg Bool.false_ne_true, h.base, hDropped, List.filter_nil]

theorem weight_region {lines rest : List Bytes} {scan : RegionScan} (h : Scanned lines scan rest)
    (hSeparator : scan.sawSeparator = true) :
    weight scan.segment + surplus (lines.takeWhile fun line => !isEnding line) + rest.length =
      lines.length + 1 := by
  obtain ⟨ending, -, hLines⟩ := h.closes
  have hLength := congrArg List.length hLines
  rw [List.length_append, List.length_cons] at hLength
  have hAny := h.sawSeparator.symm.trans hSeparator
  have hRegion := length_region hAny
  have hSome : 0 < (lines.takeWhile fun line => !isEnding line).countP isSeparator := by
    obtain ⟨line, hMem, hLine⟩ := List.any_eq_true.mp hAny
    exact List.countP_pos_iff.mpr ⟨line, hMem, hLine⟩
  have hBaseLines : scan.sawBase = true ↔
      0 < (beforeSeparator (lines.takeWhile fun line => !isEnding line)).countP isBase := by
    rw [h.sawBase, List.any_eq_true, List.countP_pos_iff]
  rw [← h.ours, ← h.base, ← h.theirs] at hRegion
  have hWeight : weight scan.segment =
      scan.ours.length + scan.base.length + scan.theirs.length + if scan.sawBase then 4 else 3 := by
    rw [← h.base_kept]
    rfl
  rw [hWeight, surplus]
  by_cases hSaw : scan.sawBase = true
  · have hSawBase := hBaseLines.mp hSaw
    rw [if_pos hSaw]
    omega
  · have hSawBase := Nat.eq_zero_of_not_pos fun hPos => hSaw (hBaseLines.mpr hPos)
    rw [if_neg hSaw]
    omega

theorem accounted_region {lines rest : List Bytes} {scan : RegionScan} {opening : Bytes}
    (h : Scanned lines scan rest) (hOpening : isOpening opening = true)
    (hOne : OneOfEach (lines.takeWhile fun line => !isEnding line)) {segments : List ConflictSegment}
    (hRest : Accounted rest segments) : Accounted (opening :: lines) (scan.segment :: segments) := by
  obtain ⟨ending, hEnding, hLines⟩ := h.closes
  obtain ⟨middle, baseLine, hMiddle, hBaseLine, hHas, hRegion⟩ := region_parts hOne
  rw [← h.sawBase] at hHas
  rw [← h.ours, ← h.base, ← h.theirs] at hRegion
  refine ⟨opening, middle, ending, baseLine, rest, hOpening, hBaseLine, hHas, hMiddle, hEnding, ?_, hRest⟩
  simp only [RegionScan.segment, h.base_kept]
  conv => lhs; rw [hLines, hRegion]
  simp

theorem accounted_pending {pendingText lines : List Bytes} {segments : List ConflictSegment}
    (h : Accounted lines segments) : Accounted (pendingText ++ lines) (pendingSegments pendingText ++ segments) := by
  cases pendingText with
  | nil => exact h
  | cons line pendingText => exact ⟨lines, rfl, h⟩

theorem weight_pending (pendingText : List Bytes) :
    ((pendingSegments pendingText).map weight).sum = pendingText.length := by
  cases pendingText with
  | nil => rfl
  | cons line pendingText => rfl

/-- The loop went from `before` to `after`, and added segments for the pending text and the lines. -/
structure AddsAccounted (fuel : Nat) (before after : ParsedConflictFile) (pendingText lines : List Bytes)
    (segments : List ConflictSegment) : Prop where
  adds : after.segments = before.segments ++ segments
  accounted : (∀ region ∈ regions fuel lines, OneOfEach region) → Accounted (pendingText ++ lines) segments
  length : (pendingText ++ lines).length = (segments.map weight).sum + ((regions fuel lines).map surplus).sum
  separated : ∀ region ∈ regions fuel lines, region.any isSeparator = true

theorem addsAccounted_flush (fuel : Nat) (pendingText : List Bytes) (result : ParsedConflictFile) :
    AddsAccounted fuel result (flushText pendingText result) pendingText [] (pendingSegments pendingText) := by
  have hNone : regions fuel [] = [] := by cases fuel <;> rfl
  constructor
  · rw [flushText_eq]
  · intro _
    have hPending : Accounted (pendingText ++ []) (pendingSegments pendingText ++ []) := accounted_pending rfl
    rwa [List.append_nil (pendingSegments pendingText)] at hPending
  · rw [hNone, weight_pending, List.append_nil]
    rfl
  · rw [hNone]
    intro region hRegion
    cases hRegion

theorem addsAccounted_text {fuel : Nat} {before after : ParsedConflictFile} {pendingText lines : List Bytes}
    {line : Bytes} {segments : List ConflictSegment} (hLine : isOpening line = false)
    (h : AddsAccounted fuel before after (pendingText ++ [line]) lines segments) :
    AddsAccounted (fuel + 1) before after pendingText (line :: lines) segments := by
  have hRegions : regions (fuel + 1) (line :: lines) = regions fuel lines := by
    rw [regions, if_neg (by simp [hLine])]
  have hLines : pendingText ++ [line] ++ lines = pendingText ++ line :: lines := by
    rw [List.append_assoc, List.singleton_append]
  obtain ⟨hAdds, hAccounted, hLength, hSeparated⟩ := h
  rw [hLines] at hAccounted hLength
  rw [← hRegions] at hAccounted hLength hSeparated
  exact ⟨hAdds, hAccounted, hLength, hSeparated⟩

theorem addsAccounted_region {fuel : Nat} {before after : ParsedConflictFile}
    {pendingText lines rest : List Bytes} {line : Bytes} {scan : RegionScan} {segments : List ConflictSegment}
    (hLine : isOpening line = true) (hScan : scanRegion {} lines = (scan, some rest))
    (hSeparator : scan.sawSeparator = true)
    (h : AddsAccounted fuel (addRegion scan (flushText pendingText before)) after [] rest segments) :
    AddsAccounted (fuel + 1) before after pendingText (line :: lines)
      (pendingSegments pendingText ++ scan.segment :: segments) := by
  have hScanned := scanned hScan
  have hRegions : regions (fuel + 1) (line :: lines) =
      (lines.takeWhile fun line => !isEnding line) :: regions fuel rest := by
    rw [regions, if_pos hLine, hScanned.rest]
  obtain ⟨hAdds, hAccounted, hLength, hSeparated⟩ := h
  rw [List.nil_append] at hAccounted hLength
  constructor
  · rw [hAdds, addRegion, flushText_eq]
    simp only [List.append_assoc, List.singleton_append]
  · intro hOne
    rw [hRegions, List.forall_mem_cons] at hOne
    exact accounted_pending (accounted_region hScanned hLine hOne.1 (hAccounted hOne.2))
  · have hWeight := weight_region hScanned hSeparator
    have hPending := weight_pending pendingText
    rw [hRegions, List.map_append, List.sum_append, hPending, List.length_append, List.length_cons]
    rw [List.map_cons, List.sum_cons, List.map_cons, List.sum_cons]
    omega
  · rw [hRegions, List.forall_mem_cons]
    exact ⟨hScanned.sawSeparator.symm.trans hSeparator, hSeparated⟩

theorem parseLines_accounted (all : List Bytes) {fuel : Nat} {lines : List Bytes} (pendingText : List Bytes)
    (result : ParsedConflictFile) (hFuel : lines.length ≤ fuel)
    (hWell : (parseLines all fuel lines pendingText result).wellFormed = true) :
    ∃ segments, AddsAccounted fuel result (parseLines all fuel lines pendingText result) pendingText lines
      segments := by
  apply parseLines_induction (motive := fun fuel before after pendingText lines =>
    ∃ segments, AddsAccounted fuel before after pendingText lines segments) all
  case hFlush => exact fun fuel pendingText before => ⟨_, addsAccounted_flush fuel pendingText before⟩
  case hText =>
    rintro fuel before after pendingText line lines hLine ⟨segments, hNext⟩
    exact ⟨segments, addsAccounted_text hLine hNext⟩
  case hRegion =>
    rintro fuel before after pendingText line lines scan rest hLine hScan hSeparator ⟨segments, hNext⟩
    exact ⟨_, addsAccounted_region hLine hScan hSeparator hNext⟩
  case hFuel => exact hFuel
  case hWell => exact hWell

/-- A parsed file has every line but its marker lines exactly when no region has a second
separator, or a second base line before its separator. -/
theorem keeps_lines_iff {content : Bytes} (hWell : (parse content).wellFormed = true) :
    Accounted (splitKeepingLineEndings content) (parse content).segments ↔
      ∀ region ∈ fileRegions content, OneOfEach region := by
  obtain ⟨segments, hAdds, hAccounted, hLength, hSeparated⟩ :=
    parseLines_accounted (splitKeepingLineEndings content) [] {} (Nat.le_refl _) hWell
  rw [List.nil_append] at hAccounted hLength
  rw [show (parse content).segments = segments from hAdds]
  constructor
  · intro hWhole region hRegion
    have hWeight := length_of_accounted hWhole
    have hNone : ((fileRegions content).map surplus).sum = 0 := by
      rw [fileRegions]
      omega
    have hSurplus := List.sum_eq_zero_iff_forall_eq_nat.mp hNone (surplus region) (List.mem_map_of_mem hRegion)
    exact (surplus_eq_zero_iff (hSeparated region hRegion)).mp hSurplus
  · intro hOne
    exact hAccounted hOne

/-- Their side has a heading, underlined by seven equals signs. -/
def headingFile : Bytes :=
  ascii "<<<<<<< HEAD\nmine\n=======\nTitle 2\n=======\nyours\n>>>>>>> feature\n"

theorem headingFile_loses_line :
    (parse headingFile).wellFormed = true ∧
    (parse headingFile).segments =
      [{ kind := .region, ours := [ascii "mine\n"], theirs := [ascii "Title 2\n", ascii "yours\n"] }] ∧
    ¬ Accounted (splitKeepingLineEndings headingFile) (parse headingFile).segments := by
  refine ⟨by decide, by decide, ?_⟩
  intro hWhole
  have hWeight := length_of_accounted hWhole
  revert hWeight
  decide

theorem keeps_lines_iff_nested :
    Accounted (splitKeepingLineEndings nestedFile) (parse nestedFile).segments ↔
      ∀ region ∈ fileRegions nestedFile, OneOfEach region :=
  keeps_lines_iff (by decide)

end ConflictMarkerParser

end GitBranchManager
