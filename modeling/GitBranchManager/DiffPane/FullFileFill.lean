import GitBranchManager.DiffPane.DiffBlockOrder
import GitBranchManager.DiffPane.IndexRuler
import GitBranchManager.Library.Joined

/-! # The rows of the full-file view

The scan of the sources collects the index lines their hunks draw and offers every context row of
their full diffs. What is offered and not drawn is filled.
-/

namespace GitBranchManager.DiffPane

open Library

theorem kindValue_inj {a b : DiffLineKind} (h : kindValue a = kindValue b) : a = b := by
  cases a <;> cases b <;> first | rfl | exact absurd h (by decide)

theorem changeText_inj {a b : DiffLine} (h : changeText a = changeText b) : a = b := by
  have hText (line : DiffLine) : changeText line = intText (kindValue line.kind) ++ bar ::
      (intText line.oldLine ++ bar :: (intText line.newLine ++ bar :: line.text)) := by
    simp [changeText, List.intercalate, List.intersperse]
  rw [hText, hText] at h
  have hBar := bar_not_mem_intText
  obtain ⟨hKind, hRest⟩ := Joined.split_first (hBar _) (hBar _) h
  obtain ⟨hOld, hRest⟩ := Joined.split_first (hBar _) (hBar _) hRest
  obtain ⟨hNew, hText⟩ := Joined.split_first (hBar _) (hBar _) hRest
  have hKindEq : a.kind = b.kind := kindValue_inj (Int.ofNat.inj (intText_inj hKind))
  have hOldEq := intText_inj hOld
  have hNewEq := intText_inj hNew
  cases a
  cases b
  simp_all

/-- The added and removed rows of a diff. -/
def changedLines (hunks : List DiffHunk) : List DiffLine :=
  hunks.flatMap fun hunk => hunk.lines.filter fun line => isChanged line.kind

theorem sameChanges_iff {a b : DiffFile} :
    sameChanges a b = true ↔ changedLines a.hunks = changedLines b.hunks := by
  have hTexts (file : DiffFile) : changesOf file = (changedLines file.hunks).map changeText := by
    rw [changesOf, changedLines, List.map_flatMap]
  have hInjective : Function.Injective changeText := fun _ _ => changeText_inj
  rw [sameChanges, beq_iff_eq, hTexts, hTexts, hInjective.list_map.eq_iff]

/-- Why the fill is refused: a source with an excerpt has no full diff that goes with it. -/
def DiffFillSource.Refused (source : DiffFillSource) : Prop :=
  ∃ excerpt, source.excerpt = some excerpt ∧ ∀ full, source.full = some full →
    excerpt.binary = true ∨ full.binary = true ∨ changedLines excerpt.hunks ≠ changedLines full.hunks

theorem scanSource_eq_none {scan : FillScan} {source : DiffFillSource} {i : Nat} :
    scanSource scan source i = none ↔ source.Refused := by
  rw [scanSource, DiffFillSource.Refused]
  cases source.excerpt with
  | none => simp
  | some excerpt =>
    cases source.full with
    | none => simp
    | some full =>
      simp only [Option.some_inj, Bool.or_eq_true, Bool.not_eq_true', exists_eq_left',
        forall_eq', ← Bool.not_eq_true, sameChanges_iff]
      split
      next hBinary => exact iff_of_true rfl (hBinary.imp_right .inl)
      next hBinary =>
        split
        next hChanges => simp [hChanges]
        next hChanges =>
          simp only [reduceCtorEq, false_iff]
          tauto

theorem foldlM_scan_eq_none {sources : List DiffFillSource} {scan : FillScan} {k : Nat} :
    (sources.zipIdx k).foldlM (fun scan source => scanSource scan source.1 source.2) scan = none ↔
      ∃ source ∈ sources, source.Refused := by
  induction sources generalizing scan k with
  | nil => simp
  | cons source sources ih =>
    rw [List.zipIdx_cons, List.foldlM_cons]
    cases hScan : scanSource scan source k with
    | none => simp [scanSource_eq_none.mp hScan]
    | some next =>
      have hNot : ¬source.Refused := fun hRefused => by simp [scanSource_eq_none.mpr hRefused] at hScan
      simp [ih, hNot]

theorem fullFileFillRows_eq_none {sources : List DiffFillSource} :
    fullFileFillRows sources = none ↔ ∃ source ∈ sources, source.Refused := by
  rw [fullFileFillRows, Option.map_eq_none_iff, foldlM_scan_eq_none]

theorem exists_fillRows {sources : List DiffFillSource} (h : ¬∃ source ∈ sources, source.Refused) :
    ∃ rows, fullFileFillRows sources = some rows :=
  Option.ne_none_iff_exists'.mp (mt fullFileFillRows_eq_none.mp h)

section Scan

variable {scan next : FillScan} {source : DiffFillSource} {i : Nat} {n : Int}

/-- The source takes part in the fill, with its two diffs. -/
structure DiffFillSource.Gives (source : DiffFillSource) (excerpt full : DiffFile) : Prop where
  hasExcerpt : source.excerpt = some excerpt
  hasFull : source.full = some full
  text : excerpt.binary = false ∧ full.binary = false
  changes : changedLines excerpt.hunks = changedLines full.hunks

theorem scanSource_eq_some (h : scanSource scan source i = some next) :
    (source.excerpt = none ∧ next = scan) ∨ ∃ excerpt full, source.Gives excerpt full ∧
      next.drawn = scan.drawn ++ excerpt.hunks.flatMap (fun hunk =>
        hunk.lines.filterMap fun line => indexLineOf line source.staged) ∧
      next.candidates = (full.hunks.flatMap DiffHunk.lines).foldl
        (offerCandidate i source.staged) scan.candidates := by
  rw [scanSource] at h
  split at h
  next hExcerpt => exact .inl ⟨hExcerpt, (Option.some_inj.mp h).symm⟩
  next => exact absurd h (by simp)
  next excerpt full hExcerpt hFull =>
    split at h
    next => exact absurd h (by simp)
    next hBinary =>
      split at h
      next => exact absurd h (by simp)
      next hChanges =>
        obtain rfl := Option.some_inj.mp h
        rw [Bool.not_eq_true', Bool.not_eq_false, sameChanges_iff] at hChanges
        rw [Bool.not_eq_true, Bool.or_eq_false_iff] at hBinary
        exact .inr ⟨excerpt, full, ⟨hExcerpt, hFull, hBinary, hChanges⟩, rfl, rfl⟩

theorem indexLineOf_eq_some {line : DiffLine} {staged : Bool} : indexLineOf line staged = some n ↔
    line.kind ≠ .noNewlineMarker ∧ n ≠ 0 ∧ line.number staged = n := by
  simp only [indexLineOf]
  split
  next hNone =>
    simp only [reduceCtorEq, false_iff]
    rintro ⟨hKind, hn, rfl⟩
    exact hNone.elim hKind hn
  next hSome =>
    rw [not_or] at hSome
    rw [Option.some_inj]
    exact ⟨fun hEq => ⟨hSome.1, hEq ▸ hSome.2, hEq⟩, fun h => h.2.2⟩

/-- A hunk of the file draws the index line. -/
def DiffFile.Draws (file : DiffFile) (staged : Bool) (n : Int) : Prop :=
  ∃ hunk ∈ file.hunks, ∃ line ∈ hunk.lines, indexLineOf line staged = some n

variable {candidates : InsertionMap Int (Nat × DiffLine × Bool)} {staged : Bool} {line : DiffLine}

theorem get?_offerCandidate (i : Nat) (n : Int) (candidates : InsertionMap Int (Nat × DiffLine × Bool))
    (staged : Bool) (line : DiffLine) :
    (offerCandidate i staged candidates line).get? n = candidates.get? n ∨
      (line.kind = .context ∧ line.number staged = n ∧
        (offerCandidate i staged candidates line).get? n = some (i, line, staged)) := by
  have hPut : (candidates.put (line.number staged) (i, line, staged)).get? n = candidates.get? n ∨
      line.number staged = n ∧
        (candidates.put (line.number staged) (i, line, staged)).get? n = some (i, line, staged) := by
    rw [InsertionMap.get?_put]
    split
    next hSame => exact .inr ⟨hSame.symm, rfl⟩
    next => exact .inl rfl
  rw [offerCandidate]
  split
  next => exact .inl rfl
  next hContext =>
    have hKind : line.kind = .context := not_not.mp hContext
    split
    · exact hPut.imp_right fun h => ⟨hKind, h⟩
    · split
      · exact hPut.imp_right fun h => ⟨hKind, h⟩
      · exact .inl rfl

theorem offered_offerCandidate (hContext : line.kind = .context) :
    (offerCandidate i staged candidates line).get? (line.number staged) ≠ none := by
  rw [offerCandidate, if_neg (not_not.mpr hContext)]
  have hPut : (candidates.put (line.number staged) (i, line, staged)).get? (line.number staged) ≠
      none := by simp [InsertionMap.get?_put]
  split
  next => exact hPut
  next held hHeld =>
    split
    · exact hPut
    · simp [hHeld]

theorem get?_foldl_offerCandidate {lines : List DiffLine} {value : Nat × DiffLine × Bool}
    (h : (lines.foldl (offerCandidate i staged) candidates).get? n = some value) :
    candidates.get? n = some value ∨
      value.1 = i ∧ value.2.1 ∈ lines ∧ value.2.1.kind = .context ∧ value.2.1.number staged = n := by
  induction lines generalizing candidates with
  | nil => exact .inl h
  | cons line lines ih =>
    rcases ih h with hBefore | ⟨hSource, hMem, hLine⟩
    · rcases get?_offerCandidate i n candidates staged line with hKept | ⟨hContext, hNumber, hNew⟩
      · exact .inl (hKept ▸ hBefore)
      · obtain rfl := Option.some_inj.mp (hNew.symm.trans hBefore)
        exact .inr ⟨rfl, List.mem_cons_self, hContext, hNumber⟩
    · exact .inr ⟨hSource, List.mem_cons_of_mem _ hMem, hLine⟩

theorem kept_foldl_offerCandidate {lines : List DiffLine} (h : candidates.get? n ≠ none) :
    (lines.foldl (offerCandidate i staged) candidates).get? n ≠ none := by
  induction lines generalizing candidates with
  | nil => exact h
  | cons line lines ih =>
    refine ih ?_
    rcases get?_offerCandidate i n candidates staged line with hKept | ⟨_, _, hNew⟩
    · exact hKept ▸ h
    · simp [hNew]

theorem offered_foldl_offerCandidate {lines : List DiffLine} (hMem : line ∈ lines)
    (hContext : line.kind = .context) :
    (lines.foldl (offerCandidate i staged) candidates).get? (line.number staged) ≠ none := by
  induction lines generalizing candidates with
  | nil => exact absurd hMem List.not_mem_nil
  | cons first lines ih =>
    rcases List.mem_cons.mp hMem with rfl | hLater
    · rw [List.foldl_cons]
      exact kept_foldl_offerCandidate (offered_offerCandidate hContext)
    · exact ih hLater

end Scan

/-- What the scan of some sources has added to what it began with. -/
structure Scanned (sources : List DiffFillSource) (k : Nat) (scan next : FillScan) : Prop where
  gives : ∀ source ∈ sources, source.excerpt = none ∨ ∃ excerpt full, source.Gives excerpt full
  drawn : ∀ n, n ∈ next.drawn ↔ n ∈ scan.drawn ∨
    ∃ source ∈ sources, ∃ excerpt full, source.Gives excerpt full ∧ excerpt.Draws source.staged n
  origin : ∀ n value, next.candidates.get? n = some value → scan.candidates.get? n = some value ∨
    ∃ source excerpt full, (source, value.1) ∈ sources.zipIdx k ∧ source.Gives excerpt full ∧
      value.2.1 ∈ full.hunks.flatMap DiffHunk.lines ∧ value.2.1.kind = .context ∧
        value.2.1.number source.staged = n
  kept : ∀ n, scan.candidates.get? n ≠ none → next.candidates.get? n ≠ none
  offered : ∀ source ∈ sources, ∀ excerpt full, source.Gives excerpt full →
    ∀ line ∈ full.hunks.flatMap DiffHunk.lines, line.kind = .context →
      next.candidates.get? (line.number source.staged) ≠ none

theorem Scanned.nil (k : Nat) (scan : FillScan) : Scanned [] k scan scan where
  gives := by simp
  drawn := by simp
  origin n value h := .inl h
  kept n h := h
  offered := by simp

theorem DiffFillSource.Gives.unique {source : DiffFillSource} {e e' f f' : DiffFile}
    (h : source.Gives e f) (h' : source.Gives e' f') : e = e' ∧ f = f' :=
  ⟨Option.some_inj.mp (h.hasExcerpt.symm.trans h'.hasExcerpt),
    Option.some_inj.mp (h.hasFull.symm.trans h'.hasFull)⟩

theorem scanned_scanSource {source : DiffFillSource} {k : Nat} {scan next : FillScan}
    (h : scanSource scan source k = some next) : Scanned [source] k scan next := by
  rcases scanSource_eq_some h with ⟨hNone, rfl⟩ | ⟨excerpt, full, hGives, hDrawn, hOffers⟩
  · have hNot (e f : DiffFile) : ¬source.Gives e f := fun hGives => by
      simpa [hNone] using hGives.hasExcerpt
    exact ⟨by simp [hNone], by simp [hNot], fun _ _ hHeld => .inl hHeld, fun _ hHeld => hHeld,
      by simp [hNot]⟩
  · constructor
    · exact fun s hs => .inr ⟨excerpt, full, List.mem_singleton.mp hs ▸ hGives⟩
    · intro n
      rw [hDrawn, List.mem_append]
      refine or_congr_right ⟨fun hMem => ?_, ?_⟩
      · simp only [List.mem_flatMap, List.mem_filterMap] at hMem
        exact ⟨source, List.mem_singleton_self _, excerpt, full, hGives, hMem⟩
      · rintro ⟨s, hs, e, f, hGives', hDraws⟩
        obtain rfl := List.mem_singleton.mp hs
        obtain ⟨rfl, rfl⟩ := hGives.unique hGives'
        simpa only [List.mem_flatMap, List.mem_filterMap, DiffFile.Draws] using hDraws
    · intro n value hValue
      rw [hOffers] at hValue
      refine (get?_foldl_offerCandidate hValue).imp_right fun hFrom => ?_
      obtain ⟨hSource, hLine⟩ := hFrom
      exact ⟨source, excerpt, full, by simp [hSource], hGives, hLine⟩
    · intro n hHeld
      rw [hOffers]
      exact kept_foldl_offerCandidate hHeld
    · intro s hs e f hGives' line hLine hContext
      obtain rfl := List.mem_singleton.mp hs
      obtain ⟨rfl, rfl⟩ := hGives.unique hGives'
      rw [hOffers]
      exact offered_foldl_offerCandidate hLine hContext

theorem Scanned.cons {source : DiffFillSource} {sources : List DiffFillSource} {k : Nat}
    {scan mid next : FillScan} (hSource : Scanned [source] k scan mid)
    (hRest : Scanned sources (k + 1) mid next) : Scanned (source :: sources) k scan next where
  gives := List.forall_mem_cons.mpr ⟨hSource.gives source (List.mem_singleton_self _), hRest.gives⟩
  drawn n := by
    rw [hRest.drawn, hSource.drawn]
    simp [or_assoc]
  origin n value hValue := by
    rcases hRest.origin n value hValue with hMid | ⟨s, e, f, hMem, hFrom⟩
    · refine (hSource.origin n value hMid).imp_right fun ⟨s, e, f, hMem, hFrom⟩ => ⟨s, e, f, ?_, hFrom⟩
      rw [List.zipIdx_cons, List.zipIdx_nil, List.mem_singleton] at hMem
      exact hMem ▸ List.mem_cons_self
    · exact .inr ⟨s, e, f, List.mem_cons_of_mem _ hMem, hFrom⟩
  kept n hHeld := hRest.kept n (hSource.kept n hHeld)
  offered s hs e f hGives line hLine hContext := by
    rcases List.mem_cons.mp hs with rfl | hLater
    · exact hRest.kept _ (hSource.offered s (List.mem_singleton_self _) e f hGives line hLine hContext)
    · exact hRest.offered s hLater e f hGives line hLine hContext

theorem scanned_foldlM {sources : List DiffFillSource} {scan next : FillScan} {k : Nat}
    (h : (sources.zipIdx k).foldlM (fun scan source => scanSource scan source.1 source.2) scan =
      some next) : Scanned sources k scan next := by
  induction sources generalizing scan k with
  | nil =>
    obtain rfl : scan = next := by simpa using h
    exact .nil k scan
  | cons source sources ih =>
    rw [List.zipIdx_cons, List.foldlM_cons] at h
    obtain ⟨mid, hSource, hRest⟩ := Option.bind_eq_some_iff.mp h
    exact .cons (scanned_scanSource hSource) (ih hRest)

section FillRows

variable {scan : FillScan} {n : Int}

theorem get?_of_mem_fillRows {row : DiffFillRow} (h : row ∈ fillRows scan) :
    row.indexLine ∉ scan.drawn ∧ ∃ staged,
      scan.candidates.get? row.indexLine = some (row.sourceIndex, row.line, staged) := by
  obtain ⟨l, hl, hRow⟩ := List.mem_filterMap.mp h
  obtain ⟨held, hHeld, rfl⟩ := Option.map_eq_some_iff.mp hRow
  rw [(Comparison.sort_perm compare _).mem_iff, List.mem_filter] at hl
  exact ⟨by simpa using hl.2, held.2.2, hHeld⟩

theorem exists_fillRow (hHeld : scan.candidates.get? n ≠ none) (hDrawn : n ∉ scan.drawn) :
    ∃ row ∈ fillRows scan, row.indexLine = n := by
  obtain ⟨held, hSome⟩ := Option.ne_none_iff_exists'.mp hHeld
  refine ⟨{ sourceIndex := held.1, indexLine := n, line := held.2.1 }, List.mem_filterMap.mpr ?_, rfl⟩
  refine ⟨n, ?_, by rw [hSome]; rfl⟩
  rw [(Comparison.sort_perm compare _).mem_iff, List.mem_filter]
  exact ⟨List.mem_map.mpr ⟨_, InsertionMap.get?_eq_some.mp hSome, rfl⟩, by simpa using hDrawn⟩

theorem pairwise_fillRows : (fillRows scan).Pairwise fun a b => a.indexLine < b.indexLine := by
  have hPerm := Comparison.sort_perm compare
    ((scan.candidates.entries.map Prod.fst).filter fun l => !scan.drawn.contains l)
  have hNodup := hPerm.nodup_iff.mpr (scan.candidates.nodup.filter _)
  have hSorted := Comparison.pairwise_sort (compare : Int → Int → Ordering)
    (fun a b => by rw [Int.isLE_compare, Int.isLE_compare]; omega)
    (fun a b c => by rw [Int.isLE_compare, Int.isLE_compare, Int.isLE_compare]; omega)
    ((scan.candidates.entries.map Prod.fst).filter fun l => !scan.drawn.contains l)
  have hStrict : (Comparison.sort compare
      ((scan.candidates.entries.map Prod.fst).filter fun l => !scan.drawn.contains l)).Pairwise
        (· < ·) :=
    (hSorted.and hNodup).imp fun {a b} ⟨hLE, hNe⟩ =>
      lt_of_le_of_ne (Int.isLE_compare.mp hLE) hNe
  refine List.Pairwise.filterMap _ (fun a b hLess row hRow row' hRow' => ?_) hStrict
  obtain ⟨_, _, rfl⟩ := Option.map_eq_some_iff.mp hRow
  obtain ⟨_, _, rfl⟩ := Option.map_eq_some_iff.mp hRow'
  exact hLess

end FillRows

/-- The fill is the index lines of the full diffs' context that no excerpt draws. -/
structure Fill (sources : List DiffFillSource) (rows : List DiffFillRow) : Prop where
  gives : ∀ source ∈ sources, source.excerpt = none ∨ ∃ excerpt full, source.Gives excerpt full
  sorted : rows.Pairwise fun a b => a.indexLine < b.indexLine
  notDrawn : ∀ row ∈ rows, ∀ source ∈ sources, ∀ excerpt full, source.Gives excerpt full →
    ¬excerpt.Draws source.staged row.indexLine
  origin : ∀ row ∈ rows, ∃ source excerpt full, sources[row.sourceIndex]? = some source ∧
    source.Gives excerpt full ∧ row.line ∈ full.hunks.flatMap DiffHunk.lines ∧
      row.line.kind = .context ∧ row.line.number source.staged = row.indexLine
  covers : ∀ source ∈ sources, ∀ excerpt full, source.Gives excerpt full →
    ∀ line ∈ full.hunks.flatMap DiffHunk.lines, line.kind = .context →
      (∀ other ∈ sources, ∀ excerpt full, other.Gives excerpt full →
        ¬excerpt.Draws other.staged (line.number source.staged)) →
      ∃ row ∈ rows, row.indexLine = line.number source.staged

theorem fill_of_eq_some {sources : List DiffFillSource} {rows : List DiffFillRow}
    (h : fullFileFillRows sources = some rows) : Fill sources rows := by
  obtain ⟨scan, hScan, rfl⟩ := Option.map_eq_some_iff.mp h
  have hScanned := scanned_foldlM hScan
  refine ⟨hScanned.gives, pairwise_fillRows, ?_, ?_, ?_⟩
  · intro row hRow source hSource excerpt full hGives hDraws
    refine (get?_of_mem_fillRows hRow).1 ((hScanned.drawn _).mpr (.inr ?_))
    exact ⟨source, hSource, excerpt, full, hGives, hDraws⟩
  · intro row hRow
    obtain ⟨staged, hHeld⟩ := (get?_of_mem_fillRows hRow).2
    rcases hScanned.origin _ _ hHeld with hEmpty | ⟨source, excerpt, full, hMem, hFrom⟩
    · exact absurd hEmpty (by simp)
    · exact ⟨source, excerpt, full, List.mem_zipIdx_iff_getElem?.mp hMem, hFrom⟩
  · intro source hSource excerpt full hGives line hLine hContext hNotDrawn
    refine exists_fillRow (hScanned.offered source hSource excerpt full hGives line hLine hContext) ?_
    rw [hScanned.drawn]
    rintro (hEmpty | ⟨other, hOther, excerpt', full', hGives', hDraws⟩)
    · exact absurd hEmpty (List.not_mem_nil)
    · exact hNotDrawn other hOther excerpt' full' hGives' hDraws

end GitBranchManager.DiffPane
