import GitBranchManager.DiffPane.DiffScopes
import GitBranchManager.Library.Scans

/-! # Side by side

A hunk becomes rows of a left and a right line. Removed and added lines wait in two runs until a line
that is on both sides comes. The core's function is the reference of the view's, which is written again.
-/

namespace GitBranchManager

/-- A pointer to a line is the line's place in its hunk. -/
structure SideBySideRow where
  left : Option Nat := none
  right : Option Nat := none
  deriving DecidableEq, Repr

structure SideBySidePairing where
  rows : List SideBySideRow := []
  removedRun : List Nat := []
  addedRun : List Nat := []
  lastRealKind : DiffLineKind := .context
  deriving DecidableEq, Repr

namespace SideBySidePairing

def flushRun (s : SideBySidePairing) : SideBySidePairing :=
  let n := max s.removedRun.length s.addedRun.length
  { s with
    rows := s.rows ++ (List.range n).map fun i => { left := s.removedRun[i]?, right := s.addedRun[i]? }
    removedRun := []
    addedRun := [] }

def pushBoth (s : SideBySidePairing) (line : Nat) : SideBySidePairing :=
  { s.flushRun with rows := s.flushRun.rows ++ [{ left := some line, right := some line }] }

/-- A marker belongs to the side of the line that it follows. -/
def pairLine (s : SideBySidePairing) (item : DiffLine × Nat) : SideBySidePairing :=
  match item.1.kind with
  | .removed => { s with removedRun := s.removedRun ++ [item.2], lastRealKind := .removed }
  | .added => { s with addedRun := s.addedRun ++ [item.2], lastRealKind := .added }
  | .context => { s.pushBoth item.2 with lastRealKind := .context }
  | .noNewlineMarker =>
    if s.lastRealKind = .removed then { s with removedRun := s.removedRun ++ [item.2] }
    else if s.lastRealKind = .added then { s with addedRun := s.addedRun ++ [item.2] }
    else s.pushBoth item.2

end SideBySidePairing

def pairHunkForSideBySide (hunk : DiffHunk) : List SideBySideRow :=
  (hunk.lines.zipIdx.foldl SideBySidePairing.pairLine {}).flushRun.rows

namespace DiffPane

structure SideBySideRow where
  left : Option DiffLine := none
  right : Option DiffLine := none
  deriving DecidableEq, Repr

structure SideBySidePairing where
  rows : List SideBySideRow := []
  removedRun : List DiffLine := []
  addedRun : List DiffLine := []
  lastRealKind : DiffLineKind := .context
  deriving DecidableEq, Repr

namespace SideBySidePairing

def flushRun (s : SideBySidePairing) : SideBySidePairing :=
  let n := if s.removedRun.length > s.addedRun.length then s.removedRun.length else s.addedRun.length
  { s with
    rows := s.rows ++ (List.range n).map fun i => { left := s.removedRun[i]?, right := s.addedRun[i]? }
    removedRun := []
    addedRun := [] }

def pairLine (s : SideBySidePairing) (line : DiffLine) : SideBySidePairing :=
  match line.kind with
  | .removed => { s with removedRun := s.removedRun ++ [line], lastRealKind := .removed }
  | .added => { s with addedRun := s.addedRun ++ [line], lastRealKind := .added }
  | .context =>
    { s.flushRun with
      rows := s.flushRun.rows ++ [{ left := some line, right := some line }]
      lastRealKind := .context }
  | .noNewlineMarker =>
    if s.lastRealKind = .removed then { s with removedRun := s.removedRun ++ [line] }
    else if s.lastRealKind = .added then { s with addedRun := s.addedRun ++ [line] }
    else { s.flushRun with rows := s.flushRun.rows ++ [{ left := some line, right := some line }] }

end SideBySidePairing

def pairHunkForSideBySide (hunk : DiffHunk) : List SideBySideRow :=
  (hunk.lines.foldl SideBySidePairing.pairLine {}).flushRun.rows

/-- The hunk of the core as the view has it. -/
def DiffLine.ofCore (line : GitBranchManager.DiffLine) : DiffLine where
  kind := line.kind
  oldLine := line.oldLine.toNat
  newLine := line.newLine.toNat
  text := line.text

def DiffHunk.ofCore (hunk : GitBranchManager.DiffHunk) : DiffHunk where
  oldStart := hunk.oldStart.toNat
  oldCount := hunk.oldCount.toNat
  newStart := hunk.newStart.toNat
  newCount := hunk.newCount.toNat
  lines := hunk.lines.map DiffLine.ofCore

/-- The lines that a row of places points to. -/
def SideBySideRow.at (lines : List DiffLine) (row : GitBranchManager.SideBySideRow) : SideBySideRow where
  left := row.left.bind (lines[·]?)
  right := row.right.bind (lines[·]?)

end DiffPane

/-! ## Sides of lines -/

/-- The kind of the last of the first `n` lines that is no marker. -/
def realKind (lines : List DiffLine) (n : Nat) : DiffLineKind :=
  (((lines.take n).reverse.find? fun line => line.kind ≠ .noNewlineMarker).map DiffLine.kind).getD .context

/-- What a line counts as: a marker counts as the line that it follows. -/
def countsAs (lines : List DiffLine) (i : Nat) : DiffLineKind := realKind lines (i + 1)

section Sides

variable {lines : List DiffLine} {n : Nat} {line : DiffLine}

theorem realKind_succ (h : lines[n]? = some line) :
    realKind lines (n + 1) = if line.kind = .noNewlineMarker then realKind lines n else line.kind := by
  rw [realKind, List.take_add_one, h, Option.toList_some, List.reverse_append, List.reverse_singleton,
    List.singleton_append, List.find?_cons]
  split
  next hReal =>
    rw [if_neg (of_decide_eq_true hReal)]
    rfl
  next hMarker =>
    rw [if_pos (Decidable.not_not.mp (of_decide_eq_false hMarker))]
    rfl

theorem realKind_ne (lines : List DiffLine) (n : Nat) : realKind lines n ≠ .noNewlineMarker := by
  rw [realKind]
  cases hFind : (lines.take n).reverse.find? fun line => line.kind ≠ .noNewlineMarker with
  | none => exact DiffLineKind.noConfusion
  | some line =>
    have hReal := List.find?_some hFind
    exact of_decide_eq_true hReal

end Sides

namespace SideBySidePairing

/-- A line by what it counts as. -/
def pairAs (s : SideBySidePairing) (line : Nat) : DiffLineKind → SideBySidePairing
  | .removed => { s with removedRun := s.removedRun ++ [line], lastRealKind := .removed }
  | .added => { s with addedRun := s.addedRun ++ [line], lastRealKind := .added }
  | _ => { s.pushBoth line with lastRealKind := .context }

theorem rows_pairAs_context (s : SideBySidePairing) (line : Nat) :
    (s.pairAs line .context).rows = s.flushRun.rows ++ [{ left := some line, right := some line }] := rfl

theorem pairLine_eq {lines : List DiffLine} {n : Nat} {line : DiffLine} (h : lines[n]? = some line)
    {s : SideBySidePairing} (hLast : s.lastRealKind = realKind lines n) :
    s.pairLine (line, n) = s.pairAs n (countsAs lines n) := by
  rw [countsAs, realKind_succ h, pairLine]
  dsimp only
  cases hKind : line.kind with
  | noNewlineMarker =>
    have hReal := realKind_ne lines n
    rw [if_pos rfl, ← hLast]
    rw [← hLast] at hReal
    obtain ⟨rows, removedRun, addedRun, lastRealKind⟩ := s
    cases lastRealKind with
    | noNewlineMarker => exact absurd rfl hReal
    | _ => rfl
  | _ => rfl

theorem filterMap_left_flushRun (s : SideBySidePairing) :
    s.flushRun.rows.filterMap SideBySideRow.left = s.rows.filterMap SideBySideRow.left ++ s.removedRun := by
  rw [flushRun, List.filterMap_append, List.filterMap_map]
  exact congrArg _ (Library.Scans.filterMap_range_of_le s.removedRun (Nat.le_max_left _ _))

theorem filterMap_right_flushRun (s : SideBySidePairing) :
    s.flushRun.rows.filterMap SideBySideRow.right = s.rows.filterMap SideBySideRow.right ++ s.addedRun := by
  rw [flushRun, List.filterMap_append, List.filterMap_map]
  exact congrArg _ (Library.Scans.filterMap_range_of_le s.addedRun (Nat.le_max_right _ _))

/-- A row of two runs has a line of the longer one. -/
theorem filled_flushRun {s : SideBySidePairing} (h : ∀ row ∈ s.rows, row.left.isSome ∨ row.right.isSome) :
    ∀ row ∈ s.flushRun.rows, row.left.isSome ∨ row.right.isSome := by
  rw [flushRun, List.forall_mem_append]
  refine ⟨h, List.forall_mem_map.mpr fun i hMem => ?_⟩
  rw [List.mem_range] at hMem
  rcases Nat.lt_or_ge i s.removedRun.length with hRemoved | hLonger
  · exact .inl (Option.isSome_of_eq_some (List.getElem?_eq_getElem hRemoved))
  · have hAdded : i < s.addedRun.length := by omega
    exact .inr (Option.isSome_of_eq_some (List.getElem?_eq_getElem hAdded))

/-- The first `n` lines, in the rows and in the runs. -/
structure Paired (lines : List DiffLine) (n : Nat) (s : SideBySidePairing) : Prop where
  last : s.lastRealKind = realKind lines n
  left : s.rows.filterMap SideBySideRow.left ++ s.removedRun =
    (List.range n).filter fun i => countsAs lines i ≠ .added
  right : s.rows.filterMap SideBySideRow.right ++ s.addedRun =
    (List.range n).filter fun i => countsAs lines i ≠ .removed
  filled : ∀ row ∈ s.rows, row.left.isSome ∨ row.right.isSome
  both : ∀ i < n, countsAs lines i = .context → { left := some i, right := some i } ∈ s.rows

namespace Paired

variable {lines : List DiffLine} {n : Nat} {s : SideBySidePairing}

/-- A line of one side waits in its run. -/
theorem pairAs (h : Paired lines n s) : Paired lines (n + 1) (s.pairAs n (countsAs lines n)) := by
  have hReal : countsAs lines n ≠ .noNewlineMarker := realKind_ne lines (n + 1)
  have hLast : realKind lines (n + 1) = countsAs lines n := rfl
  have hBoth : countsAs lines n ≠ .context →
      ∀ i < n + 1, countsAs lines i = .context → { left := some i, right := some i } ∈ s.rows := by
    intro hOther i hi hContext
    rcases Nat.lt_succ_iff_lt_or_eq.mp hi with hLess | rfl
    · exact h.both i hLess hContext
    · exact absurd hContext hOther
  cases hKind : countsAs lines n with
  | noNewlineMarker => exact absurd hKind hReal
  | removed =>
    refine ⟨(hLast.trans hKind).symm, ?_, ?_, h.filled, hBoth (hKind ▸ DiffLineKind.noConfusion)⟩
    · rw [Library.Scans.filter_range_succ, hKind, ← h.left]
      exact (List.append_assoc ..).symm
    · rw [Library.Scans.filter_range_succ, hKind, ← h.right]
      exact (List.append_nil _).symm
  | added =>
    refine ⟨(hLast.trans hKind).symm, ?_, ?_, h.filled, hBoth (hKind ▸ DiffLineKind.noConfusion)⟩
    · rw [Library.Scans.filter_range_succ, hKind, ← h.left]
      exact (List.append_nil _).symm
    · rw [Library.Scans.filter_range_succ, hKind, ← h.right]
      exact (List.append_assoc ..).symm
  | context =>
    refine ⟨(hLast.trans hKind).symm, ?_, ?_, ?_, ?_⟩
    · rw [Library.Scans.filter_range_succ, hKind, ← h.left, rows_pairAs_context, List.filterMap_append,
        filterMap_left_flushRun]
      exact List.append_nil _
    · rw [Library.Scans.filter_range_succ, hKind, ← h.right, rows_pairAs_context, List.filterMap_append,
        filterMap_right_flushRun]
      exact List.append_nil _
    · rw [rows_pairAs_context]
      exact List.forall_mem_append.mpr ⟨filled_flushRun h.filled, List.forall_mem_singleton.mpr (.inl rfl)⟩
    · intro i hi hContext
      rw [rows_pairAs_context]
      rcases Nat.lt_succ_iff_lt_or_eq.mp hi with hLess | rfl
      · exact List.mem_append_left _ (List.mem_append_left _ (h.both i hLess hContext))
      · exact List.mem_append_right _ (List.mem_singleton.mpr rfl)

theorem foldl_pairLine {n : Nat} (h : n ≤ lines.length) :
    Paired lines n ((lines.zipIdx.take n).foldl pairLine {}) := by
  induction n with
  | zero => exact ⟨rfl, rfl, rfl, nofun, fun i hi => absurd hi (Nat.not_lt_zero i)⟩
  | succ n ih =>
    have hLine := List.getElem?_eq_getElem (Nat.lt_of_succ_le h)
    have hItem : lines.zipIdx[n]? = some (lines[n], n) := by
      rw [List.getElem?_zipIdx, hLine, Option.map_some, Nat.zero_add]
    have hBefore := ih (Nat.le_of_succ_le h)
    rw [List.take_add_one, hItem, Option.toList_some, List.foldl_append, List.foldl_cons, List.foldl_nil,
      pairLine_eq hLine hBefore.last]
    exact hBefore.pairAs

end Paired

end SideBySidePairing

/-! ## The view's rows -/

namespace DiffPane.SideBySidePairing

/-- A run of places and the lines there. -/
def Named (lines : List DiffLine) (places : List Nat) (run : List DiffLine) : Prop :=
  places.map (lines[·]?) = run.map some

namespace Named

variable {lines : List DiffLine} {places : List Nat} {run : List DiffLine}

theorem concat (h : Named lines places run) {n : Nat} {line : DiffLine} (hLine : lines[n]? = some line) :
    Named lines (places ++ [n]) (run ++ [line]) := by
  rw [Named, List.map_append, List.map_append, h]
  exact congrArg (fun last => run.map some ++ [last]) hLine

theorem length_eq (h : Named lines places run) : places.length = run.length := by
  simpa using congrArg List.length h

theorem getElem? (h : Named lines places run) (i : Nat) : run[i]? = places[i]?.bind (lines[·]?) := by
  have hAt := congrArg (fun items => items[i]?.join) h
  rw [List.getElem?_map, List.getElem?_map] at hAt
  cases hPlace : places[i]? with
  | none =>
    rw [List.getElem?_eq_none_iff, h.length_eq] at hPlace
    exact List.getElem?_eq_none hPlace
  | some place =>
    rw [hPlace] at hAt
    cases hRun : run[i]? with
    | none =>
      rw [List.getElem?_eq_none_iff, ← h.length_eq, ← List.getElem?_eq_none_iff, hPlace] at hRun
      cases hRun
    | some line =>
      rw [hRun] at hAt
      exact hAt.symm

end Named

structure Shows (lines : List DiffLine) (s : GitBranchManager.SideBySidePairing) (view : SideBySidePairing) :
    Prop where
  rows : view.rows = s.rows.map (SideBySideRow.at lines)
  removed : Named lines s.removedRun view.removedRun
  added : Named lines s.addedRun view.addedRun
  last : view.lastRealKind = s.lastRealKind

namespace Shows

variable {lines : List DiffLine} {s : GitBranchManager.SideBySidePairing} {view : SideBySidePairing}

theorem flushRun (h : Shows lines s view) : Shows lines s.flushRun view.flushRun := by
  refine ⟨?_, rfl, rfl, h.last⟩
  have hCount : (if view.removedRun.length > view.addedRun.length then view.removedRun.length
      else view.addedRun.length) = max s.removedRun.length s.addedRun.length := by
    rw [h.removed.length_eq, h.added.length_eq]
    split <;> omega
  rw [SideBySidePairing.flushRun, GitBranchManager.SideBySidePairing.flushRun, List.map_append, List.map_map, h.rows]
  dsimp only
  rw [hCount]
  congr 1
  refine List.map_congr_left fun i _ => ?_
  rw [h.removed.getElem?, h.added.getElem?]
  rfl

theorem pushBoth (h : Shows lines s view) {n : Nat} {line : DiffLine} (hLine : lines[n]? = some line) :
    Shows lines (s.pushBoth n)
      { view.flushRun with rows := view.flushRun.rows ++ [{ left := some line, right := some line }] } := by
  refine ⟨?_, h.flushRun.removed, h.flushRun.added, h.last⟩
  rw [GitBranchManager.SideBySidePairing.pushBoth, List.map_append, h.flushRun.rows]
  refine congrArg (_ ++ [·]) ?_
  rw [SideBySideRow.at, Option.bind_some, hLine]

theorem pairLine (h : Shows lines s view) {n : Nat} {line : GitBranchManager.DiffLine}
    (hLine : lines[n]? = some (.ofCore line)) :
    Shows lines (s.pairLine (line, n)) (view.pairLine (.ofCore line)) := by
  have hKind : (DiffLine.ofCore line).kind = line.kind := rfl
  rw [SideBySidePairing.pairLine, GitBranchManager.SideBySidePairing.pairLine, hKind, h.last]
  dsimp only
  cases line.kind with
  | removed => exact ⟨h.rows, h.removed.concat hLine, h.added, rfl⟩
  | added => exact ⟨h.rows, h.removed, h.added.concat hLine, rfl⟩
  | context =>
    have hBoth := h.pushBoth hLine
    exact ⟨hBoth.rows, hBoth.removed, hBoth.added, rfl⟩
  | noNewlineMarker =>
    dsimp only
    split
    · exact ⟨h.rows, h.removed.concat hLine, h.added, rfl⟩
    · split
      · exact ⟨h.rows, h.removed, h.added.concat hLine, rfl⟩
      · exact h.pushBoth hLine

theorem foldl_pairLine {lines : List GitBranchManager.DiffLine} {n : Nat} (h : n ≤ lines.length) :
    Shows (lines.map .ofCore) ((lines.zipIdx.take n).foldl GitBranchManager.SideBySidePairing.pairLine {})
      (((lines.map .ofCore).take n).foldl SideBySidePairing.pairLine {}) := by
  induction n with
  | zero => exact ⟨rfl, rfl, rfl, rfl⟩
  | succ n ih =>
    have hLine := List.getElem?_eq_getElem (Nat.lt_of_succ_le h)
    have hItem : lines.zipIdx[n]? = some (lines[n], n) := by
      rw [List.getElem?_zipIdx, hLine, Option.map_some, Nat.zero_add]
    have hView : (lines.map DiffLine.ofCore)[n]? = some (.ofCore lines[n]) := by
      rw [List.getElem?_map, hLine, Option.map_some]
    rw [List.take_add_one, List.take_add_one, hItem, hView, Option.toList_some, Option.toList_some,
      List.foldl_append, List.foldl_append]
    exact (ih (Nat.le_of_succ_le h)).pairLine hView

end Shows

end DiffPane.SideBySidePairing

/-- Every line is in its place on its side, and the view shows the core's rows. -/
theorem side_by_side_keeps_lines (hunk : DiffHunk) :
    let rows := pairHunkForSideBySide hunk
    let places := List.range hunk.lines.length
    rows.filterMap SideBySideRow.left = (places.filter fun i => countsAs hunk.lines i ≠ .added) ∧
      rows.filterMap SideBySideRow.right = (places.filter fun i => countsAs hunk.lines i ≠ .removed) ∧
      (∀ i ∈ places, countsAs hunk.lines i = .context → { left := some i, right := some i } ∈ rows) ∧
      (∀ row ∈ rows, row.left.isSome ∨ row.right.isSome) ∧
      DiffPane.pairHunkForSideBySide (.ofCore hunk) =
        rows.map (DiffPane.SideBySideRow.at (DiffPane.DiffHunk.ofCore hunk).lines) := by
  have hPaired := SideBySidePairing.Paired.foldl_pairLine (Nat.le_refl hunk.lines.length)
  have hShows := DiffPane.SideBySidePairing.Shows.foldl_pairLine (Nat.le_refl hunk.lines.length)
  rw [List.take_of_length_le (by rw [List.length_zipIdx])] at hPaired hShows
  rw [List.take_of_length_le (by rw [List.length_map])] at hShows
  refine ⟨?_, ?_, ?_, ?_, hShows.flushRun.rows⟩
  · exact (SideBySidePairing.filterMap_left_flushRun _).trans hPaired.left
  · exact (SideBySidePairing.filterMap_right_flushRun _).trans hPaired.right
  · intro i hMem hContext
    exact List.mem_append_left _ (hPaired.both i (List.mem_range.mp hMem) hContext)
  · exact SideBySidePairing.filled_flushRun hPaired.filled

end GitBranchManager
