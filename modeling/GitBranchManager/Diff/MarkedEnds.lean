import GitBranchManager.Diff.LineSelection

/-! # Selections next to a missing final newline

A no-newline marker says that the line before it ends its file. A selection keeps the marker of
every line it emits; but a removed line that staging leaves alone, and an added line that
unstaging leaves alone, turn into context and stand on both sides from then on.
-/

namespace GitBranchManager.UnifiedDiffParser

/-- There is a side that both lines stand on. -/
def meets (line other : DiffLineKind) : Bool :=
  (line.onOldSide && other.onOldSide) || (line.onNewSide && other.onNewSide)

/-- A line is the last one of its sides, with `lines` behind it. -/
def Ends (line : DiffLineKind) (lines : List DiffLineKind) : Prop := ∀ later ∈ lines, meets line later = false

/-- Every marker follows a line that is the last one of each side it belongs to. -/
def MarkersLast : Option DiffLineKind → List DiffLineKind → Prop
  | _, [] => True
  | previous, kind :: lines =>
    (kind = .noNewlineMarker → ∃ line, previous = some line ∧ line ≠ .noNewlineMarker ∧ Ends line lines) ∧
      MarkersLast (some kind) lines

instance (kind : DiffLineKind) (lines : List DiffLineKind) : Decidable (Ends kind lines) :=
  List.decidableBAll _ lines

instance decidableMarkersLast : (previous : Option DiffLineKind) → (lines : List DiffLineKind) →
    Decidable (MarkersLast previous lines)
  | _, [] => isTrue trivial
  | none, kind :: lines =>
    have := decidableMarkersLast (some kind) lines
    decidable_of_iff (kind ≠ .noNewlineMarker ∧ MarkersLast (some kind) lines) (by simp [MarkersLast])
  | some line, kind :: lines =>
    have := decidableMarkersLast (some kind) lines
    decidable_of_iff ((kind = .noNewlineMarker → line ≠ .noNewlineMarker ∧ Ends line lines) ∧
      MarkersLast (some kind) lines) (by simp [MarkersLast])

def EmittedLine.kind (emitted : EmittedLine) : DiffLineKind :=
  if emitted.marker = space then .context
  else if emitted.marker = plus then .added
  else if emitted.marker = minus then .removed
  else .noNewlineMarker

def patchBody (hunk : DiffHunk) (selected : List Bool) (unstaging : Bool) : List EmittedLine :=
  selectLines unstaging false hunk.lines selected

/-- The kinds of a hunk's lines, each with its mark in the selection. -/
def picked : List DiffLine → List Bool → List (DiffLineKind × Bool)
  | [], _ => []
  | line :: lines, selected => (line.kind, selected.headD false) :: picked lines selected.tail

/-- What a line of the hunk is in the patch, if it is in it. -/
def emittedAs (unstaging : Bool) : DiffLineKind × Bool → Option DiffLineKind
  | (.context, _) => some .context
  | (.added, isSelected) => if isSelected then some .added else if unstaging then some .context else none
  | (.removed, isSelected) => if isSelected then some .removed else if unstaging then none else some .context
  | (.noNewlineMarker, _) => none

def emittedKinds (unstaging : Bool) : Bool → List (DiffLineKind × Bool) → List DiffLineKind
  | _, [] => []
  | previous, line :: lines =>
    if line.1 = .noNewlineMarker then
      if previous then .noNewlineMarker :: emittedKinds unstaging previous lines
      else emittedKinds unstaging previous lines
    else (emittedAs unstaging line).toList ++ emittedKinds unstaging (emittedAs unstaging line).isSome lines

theorem map_kind_selectLines (unstaging previous : Bool) (lines : List DiffLine) (selected : List Bool) :
    (selectLines unstaging previous lines selected).map EmittedLine.kind =
      emittedKinds unstaging previous (picked lines selected) := by
  induction lines generalizing previous selected with
  | nil => rfl
  | cons line lines ih =>
    rw [selectLines_cons, List.map_append, ih, picked, emittedKinds]
    cases line.kind with
    | context => rfl
    | added => cases unstaging <;> cases selected.headD false <;> rfl
    | removed => cases unstaging <;> cases selected.headD false <;> rfl
    | noNewlineMarker => cases previous <;> rfl

/-- A removed line that turns into context before or after an emitted added one, when staging; an
added one and an emitted removed one, when unstaging. -/
def clash (unstaging : Bool) : DiffLineKind × Bool → DiffLineKind × Bool → Bool
  | (.removed, removedSelected), (.added, addedSelected) =>
    removedSelected == unstaging && addedSelected != unstaging
  | (.added, addedSelected), (.removed, removedSelected) =>
    removedSelected == unstaging && addedSelected != unstaging
  | _, _ => false

/-- No line with a marker is followed by one that it clashes with. -/
def NoClash (unstaging : Bool) : Option (DiffLineKind × Bool) → List (DiffLineKind × Bool) → Prop
  | _, [] => True
  | previous, line :: lines =>
    (line.1 = .noNewlineMarker → ∀ marked, previous = some marked →
      ∀ later ∈ lines, clash unstaging marked later = false) ∧ NoClash unstaging (some line) lines

theorem emittedAs_content {unstaging : Bool} {line : DiffLineKind × Bool} {kind : DiffLineKind}
    (h : emittedAs unstaging line = some kind) : kind ≠ .noNewlineMarker := by
  obtain ⟨lineKind, isSelected⟩ := line
  cases lineKind <;> cases unstaging <;> cases isSelected <;> cases h <;> decide

theorem mem_emittedKinds {unstaging previous : Bool} {lines : List (DiffLineKind × Bool)} {kind : DiffLineKind}
    (hKind : kind ≠ .noNewlineMarker) :
    kind ∈ emittedKinds unstaging previous lines ↔ ∃ line ∈ lines, emittedAs unstaging line = some kind := by
  induction lines generalizing previous with
  | nil => simp [emittedKinds]
  | cons line lines ih =>
    rw [emittedKinds]
    split
    · rename_i hMarker
      have hNone : emittedAs unstaging line = none := by
        obtain ⟨kind, isSelected⟩ := line
        subst hMarker
        rfl
      split <;> simp [ih, hKind, hNone]
    · rw [List.mem_append, Option.mem_toList, ih]
      simp

/-- Of two lines on different sides each keeps to its own, unless they clash. -/
theorem meets_emittedAs {unstaging : Bool} {marked later : DiffLineKind × Bool} {kind : DiffLineKind}
    (hKind : emittedAs unstaging marked = some kind) (hSides : meets marked.1 later.1 = false) :
    (emittedAs unstaging later).any (meets kind) = clash unstaging marked later := by
  obtain ⟨markedKind, markedSelected⟩ := marked
  obtain ⟨laterKind, laterSelected⟩ := later
  cases markedKind <;> cases laterKind <;> cases unstaging <;> cases markedSelected <;> cases laterSelected <;>
    first | (cases hKind <;> rfl) | cases hSides

theorem ends_emittedKinds {unstaging previous : Bool} {marked : DiffLineKind × Bool} {kind : DiffLineKind}
    {lines : List (DiffLineKind × Bool)} (hKind : emittedAs unstaging marked = some kind)
    (hEnds : Ends marked.1 (lines.map Prod.fst)) :
    Ends kind (emittedKinds unstaging previous lines) ↔
      ∀ later ∈ lines, clash unstaging marked later = false := by
  have hMeets : ∀ later ∈ lines, (emittedAs unstaging later).any (meets kind) = clash unstaging marked later :=
    fun later hLater => meets_emittedAs hKind (hEnds later.1 (List.mem_map_of_mem hLater))
  constructor
  · intro hOut later hLater
    rw [← hMeets later hLater]
    cases hAfter : emittedAs unstaging later with
    | none => rfl
    | some after =>
      exact hOut after ((mem_emittedKinds (emittedAs_content hAfter)).mpr ⟨later, hLater, hAfter⟩)
  · intro hClash after hAfter
    by_cases hContent : after = .noNewlineMarker
    · subst hContent
      simp [meets, DiffLineKind.onOldSide, DiffLineKind.onNewSide]
    · obtain ⟨later, hLater, hEmitted⟩ := (mem_emittedKinds hContent).mp hAfter
      have hLine := hMeets later hLater
      rwa [hEmitted, hClash later hLater] at hLine

/-- A line that is dropped clashes with none. -/
theorem clash_of_dropped {unstaging : Bool} {marked : DiffLineKind × Bool}
    (hDropped : emittedAs unstaging marked = none) (later : DiffLineKind × Bool) :
    clash unstaging marked later = false := by
  obtain ⟨markedKind, markedSelected⟩ := marked
  obtain ⟨laterKind, laterSelected⟩ := later
  cases markedKind <;> cases laterKind <;> cases unstaging <;> cases markedSelected <;> cases laterSelected <;>
    first | rfl | cases hDropped

/-- By induction on the lines. `hEmitted` tells what the builder knows of the line before: whether
it was emitted, and then as what. -/
theorem markersLast_emittedKinds {unstaging : Bool} {lines : List (DiffLineKind × Bool)}
    {before : Option (DiffLineKind × Bool)} {previous : Bool} {last : Option DiffLineKind}
    (hLines : MarkersLast (before.map Prod.fst) (lines.map Prod.fst))
    (hEmitted : ∀ line, before = some line → line.1 ≠ .noNewlineMarker →
      previous = (emittedAs unstaging line).isSome ∧ (previous = true → last = emittedAs unstaging line)) :
    MarkersLast last (emittedKinds unstaging previous lines) ↔ NoClash unstaging before lines := by
  induction lines generalizing before previous last with
  | nil => exact Iff.rfl
  | cons line lines ih =>
    rw [List.map_cons, MarkersLast] at hLines
    obtain ⟨hMarker, hTail⟩ := hLines
    have hRest : MarkersLast ((some line).map Prod.fst) (lines.map Prod.fst) := hTail
    rw [emittedKinds, NoClash]
    by_cases hLine : line.1 = .noNewlineMarker
    · obtain ⟨marked, hMarked, hContent, hEnds⟩ := hMarker hLine
      obtain ⟨marked, rfl, rfl⟩ := Option.map_eq_some_iff.mp hMarked
      obtain ⟨hPrevious, hLast⟩ := hEmitted marked rfl hContent
      have hNext : ∀ {last : Option DiffLineKind}, MarkersLast last (emittedKinds unstaging previous lines) ↔
          NoClash unstaging (some line) lines := by
        intro last
        apply ih hRest
        rintro other hOther hContent
        obtain rfl := Option.some.inj hOther
        exact absurd hLine hContent
      rw [if_pos hLine]
      cases hOut : emittedAs unstaging marked with
      | none =>
        rw [hOut] at hPrevious
        rw [if_neg (by simp [hPrevious]), hNext]
        simp [clash_of_dropped hOut]
      | some kind =>
        rw [hOut] at hPrevious hLast
        have hGoesOn : previous = true := hPrevious
        rw [if_pos hGoesOn, MarkersLast, hNext, hLast hGoesOn]
        simp [hLine, emittedAs_content hOut, ends_emittedKinds hOut hEnds]
    · rw [if_neg hLine]
      have hNext : ∀ last, (∀ kind, emittedAs unstaging line = some kind → last = some kind) →
          (MarkersLast last (emittedKinds unstaging (emittedAs unstaging line).isSome lines) ↔
            NoClash unstaging (some line) lines) := by
        intro last hLast
        apply ih hRest
        rintro other hOther -
        obtain rfl := Option.some.inj hOther
        refine ⟨rfl, fun hSome => ?_⟩
        obtain ⟨kind, hKind⟩ := Option.isSome_iff_exists.mp hSome
        rw [hKind]
        exact hLast kind hKind
      cases hOut : emittedAs unstaging line with
      | none =>
        rw [hOut] at hNext
        simpa [hLine] using hNext last (by simp)
      | some kind =>
        rw [hOut] at hNext
        have hAfter := hNext (some kind) (by simp)
        simp only [Option.toList_some, List.singleton_append, MarkersLast, emittedAs_content hOut, hLine,
          false_imp_iff, true_and]
        exact hAfter

theorem getElem?_picked (lines : List DiffLine) (selected : List Bool) (i : Nat) :
    (picked lines selected)[i]? = lines[i]?.map fun line => (line.kind, selected.getD i false) := by
  induction lines generalizing selected i with
  | nil => rfl
  | cons line lines ih =>
    cases i with
    | zero => cases selected <;> rfl
    | succ i =>
      rw [picked, List.getElem?_cons_succ, ih, List.getElem?_cons_succ]
      cases selected <;> rfl

theorem noClash_iff_getElem? (unstaging : Bool) (first : DiffLineKind × Bool) (lines : List (DiffLineKind × Bool)) :
    NoClash unstaging (some first) lines ↔ ∀ (i k : Nat) (marked marker later : DiffLineKind × Bool), i + 1 < k →
      (first :: lines)[i]? = some marked → (first :: lines)[i + 1]? = some marker →
      marker.1 = .noNewlineMarker → (first :: lines)[k]? = some later → clash unstaging marked later = false := by
  induction lines generalizing first with
  | nil =>
    apply iff_of_true trivial
    intro i k marked marker later hOrder _ hMarker
    rw [List.getElem?_eq_none (by simp)] at hMarker
    cases hMarker
  | cons line lines ih =>
    rw [NoClash, ih line]
    constructor
    · rintro ⟨hFirst, hRest⟩ i k marked marker later hOrder hMarked hMarker hKind hLater
      cases k with
      | zero => omega
      | succ k =>
        rw [List.getElem?_cons_succ] at hMarker hLater
        cases i with
        | zero =>
          obtain rfl := Option.some.inj hMarked
          obtain rfl := Option.some.inj hMarker
          cases k with
          | zero => omega
          | succ k => exact hFirst hKind _ rfl later (List.mem_of_getElem? hLater)
        | succ i =>
          rw [List.getElem?_cons_succ] at hMarked
          exact hRest i k marked marker later (by omega) hMarked hMarker hKind hLater
    · intro hAll
      constructor
      · intro hKind marked hFirst later hLater
        obtain rfl := Option.some.inj hFirst
        obtain ⟨k, hLater⟩ := List.getElem?_of_mem hLater
        exact hAll 0 (k + 2) first line later (by omega) rfl rfl hKind hLater
      · intro i k marked marker later hOrder hMarked hMarker hKind hLater
        exact hAll (i + 1) (k + 1) marked marker later (by omega) hMarked hMarker hKind hLater

/-- A line with a marker is followed by one of the other kind, such that both reach a side: when
staging, the removed one is left alone and the added one is taken; when unstaging, the other way. -/
def JoinsLines (hunk : DiffHunk) (selected : List Bool) (unstaging : Bool) : Prop :=
  ∃ (i k : Nat) (marked marker later : DiffLine), i + 1 < k ∧ hunk.lines[i]? = some marked ∧
    hunk.lines[i + 1]? = some marker ∧ marker.kind = .noNewlineMarker ∧ hunk.lines[k]? = some later ∧
    clash unstaging (marked.kind, selected.getD i false) (later.kind, selected.getD k false) = true

theorem noClash_iff (hunk : DiffHunk) (selected : List Bool) (unstaging : Bool) :
    NoClash unstaging none (picked hunk.lines selected) ↔ ¬ JoinsLines hunk selected unstaging := by
  have hLines : NoClash unstaging none (picked hunk.lines selected) ↔
      ∀ (i k : Nat) (marked marker later : DiffLineKind × Bool), i + 1 < k →
        (picked hunk.lines selected)[i]? = some marked → (picked hunk.lines selected)[i + 1]? = some marker →
        marker.1 = .noNewlineMarker → (picked hunk.lines selected)[k]? = some later →
        clash unstaging marked later = false := by
    cases picked hunk.lines selected with
    | nil => simp [NoClash]
    | cons first lines =>
      rw [← noClash_iff_getElem?, NoClash]
      simp
  rw [hLines]
  constructor
  · rintro hAll ⟨i, k, marked, marker, later, hOrder, hMarked, hMarker, hKind, hLater, hClash⟩
    have hNone := hAll i k _ _ _ hOrder (by rw [getElem?_picked, hMarked]; rfl)
      (by rw [getElem?_picked, hMarker]; rfl) hKind (by rw [getElem?_picked, hLater]; rfl)
    rw [hClash] at hNone
    cases hNone
  · intro hNone i k marked marker later hOrder hMarked hMarker hKind hLater
    rw [getElem?_picked, Option.map_eq_some_iff] at hMarked hMarker hLater
    obtain ⟨markedLine, hMarkedLine, rfl⟩ := hMarked
    obtain ⟨markerLine, hMarkerLine, rfl⟩ := hMarker
    obtain ⟨laterLine, hLaterLine, rfl⟩ := hLater
    by_contra hClash
    rw [Bool.not_eq_false] at hClash
    exact hNone ⟨i, k, markedLine, markerLine, laterLine, hOrder, hMarkedLine, hMarkerLine, hKind, hLaterLine,
      hClash⟩

/-- Lines that clash hold a selected change, so that there is a patch. -/
theorem patch_of_joinsLines {hunk : DiffHunk} {selected : List Bool} {unstaging : Bool}
    (h : JoinsLines hunk selected unstaging) (file : DiffFile) :
    buildLineSelectionPatch file hunk selected unstaging ≠ [] := by
  obtain ⟨i, k, marked, marker, later, -, hMarked, -, -, hLater, hClash⟩ := h
  rw [ne_eq, (buildLineSelectionPatch_semantics file hunk selected unstaging).1]
  intro hNone
  have hUnselected : ∀ (j : Nat) (line : DiffLine), hunk.lines[j]? = some line → line.kind.isChange = true →
      selected.getD j false = false := by
    intro j line hLine hChange
    cases hSelected : selected[j]? with
    | none => simp [List.getD, hSelected]
    | some isSelected =>
      cases isSelected with
      | false => simp [List.getD, hSelected]
      | true =>
        rw [hNone j line hLine hSelected] at hChange
        cases hChange
  have hFirst := hUnselected i marked hMarked
  have hSecond := hUnselected k later hLater
  cases hMarkedKind : marked.kind <;> cases hLaterKind : later.kind <;>
    simp_all [clash, DiffLineKind.isChange]

/-- The patch says of no line that is not the last of its side that it has no newline. -/
def MarksLastLines (file : DiffFile) (hunk : DiffHunk) (selected : List Bool) (unstaging : Bool) : Prop :=
  buildLineSelectionPatch file hunk selected unstaging ≠ [] →
    (∃ ranges, buildLineSelectionPatch file hunk selected unstaging =
      patchHeaderOf file unstaging ++ ranges ++ (patchBody hunk selected unstaging).flatMap EmittedLine.bytes) ∧
    MarkersLast none ((patchBody hunk selected unstaging).map EmittedLine.kind)

/-- Of a hunk whose markers end their sides, a selection keeps them at the ends exactly when it
joins no line to a marked one. -/
theorem marksLastLines_iff (file : DiffFile) (hunk : DiffHunk)
    (hHunk : MarkersLast none (hunk.lines.map DiffLine.kind)) (selected : List Bool) (unstaging : Bool) :
    MarksLastLines file hunk selected unstaging ↔ ¬ JoinsLines hunk selected unstaging := by
  have hKinds : (picked hunk.lines selected).map Prod.fst = hunk.lines.map DiffLine.kind := by
    apply List.ext_getElem?
    intro i
    rw [List.getElem?_map, getElem?_picked, List.getElem?_map, Option.map_map]
    rfl
  have hMarkers : MarkersLast none ((patchBody hunk selected unstaging).map EmittedLine.kind) ↔
      ¬ JoinsLines hunk selected unstaging := by
    rw [patchBody, map_kind_selectLines, ← noClash_iff]
    apply markersLast_emittedKinds
    · rwa [hKinds]
    · intro line hNone
      cases hNone
  constructor
  · intro hPatch hJoins
    exact hMarkers.mp (hPatch (patch_of_joinsLines hJoins file)).2 hJoins
  · intro hNone hSome
    refine ⟨⟨hunkRanges hunk.oldStart (countLines EmittedLine.onOldSide (patchBody hunk selected unstaging))
      hunk.newStart (countLines EmittedLine.onNewSide (patchBody hunk selected unstaging)), ?_⟩, hMarkers.mpr hNone⟩
    rw [buildLineSelectionPatch] at hSome ⊢
    split at hSome
    · exact absurd rfl hSome
    · rename_i hChanges
      rw [if_neg hChanges]
      rfl

/-- The last line is changed, and neither version of it ends in a newline. -/
def openEnds : DiffHunk where
  oldStart := 1
  oldCount := 1
  newStart := 1
  newCount := 1
  lines := [
    { kind := .removed, oldLine := 1, text := ascii "one" },
    { kind := .noNewlineMarker, text := noNewlineText },
    { kind := .added, newLine := 1, text := ascii "two" },
    { kind := .noNewlineMarker, text := noNewlineText }]

theorem marksLastLines_iff_both :
    MarksLastLines { oldPath := ascii "f", newPath := ascii "f" } openEnds [true, false, true] false := by
  apply (marksLastLines_iff _ openEnds (by decide) _ _).mpr
  rw [← noClash_iff]
  simp [NoClash, picked, openEnds, clash]

/-- Only the added line is staged: the line before it is context without a newline. -/
theorem staged_line_joined :
    MarkersLast none (openEnds.lines.map DiffLine.kind) ∧
      (patchBody openEnds [false, false, true] false).flatMap EmittedLine.bytes =
        ascii " one\n\\ No newline at end of file\n+two\n\\ No newline at end of file\n" ∧
      ¬ MarksLastLines { oldPath := ascii "f", newPath := ascii "f" } openEnds [false, false, true] false := by
  refine ⟨by decide, by decide, ?_⟩
  intro hMarks
  have hPatch : buildLineSelectionPatch { oldPath := ascii "f", newPath := ascii "f" } openEnds
      [false, false, true] false ≠ [] := by decide
  exact absurd (hMarks hPatch).2 (by decide)

end GitBranchManager.UnifiedDiffParser
