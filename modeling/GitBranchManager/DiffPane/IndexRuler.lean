import GitBranchManager.Diff.PatchBuilder
import GitBranchManager.DiffPane.DiffScopes
import GitBranchManager.Library.Cuts

/-! # The index as a ruler

In a well-numbered diff the rows of the index side carry consecutive numbers. A row that is no
index line stands after the last one passed.
-/

namespace GitBranchManager.DiffPane

open Library

def onIndex (staged : Bool) (line : DiffLine) : Bool :=
  if staged then line.kind.onNewSide else line.kind.onOldSide

/-- The rows count up from `n` on one side of the diff. -/
def NumberedFrom (staged : Bool) (n : Int) : List DiffLine → Prop
  | [] => True
  | line :: lines =>
    line.number staged = (if onIndex staged line then n else 0) ∧
      NumberedFrom staged (if onIndex staged line then n + 1 else n) lines

instance decidableNumberedFrom (staged : Bool) :
    (n : Int) → (lines : List DiffLine) → Decidable (NumberedFrom staged n lines)
  | _, [] => inferInstanceAs (Decidable True)
  | n, line :: lines =>
    have := decidableNumberedFrom staged (if onIndex staged line then n + 1 else n) lines
    inferInstanceAs (Decidable (_ ∧ _))

def DiffHunk.count (staged : Bool) (hunk : DiffHunk) : Int :=
  if staged then hunk.newCount else hunk.oldCount

/-- A side without lines may start at 0. -/
structure DiffHunk.WellNumbered (hunk : DiffHunk) (staged : Bool) : Prop where
  numbers : NumberedFrom staged (hunk.start staged) hunk.lines
  count : hunk.count staged = hunk.lines.countP (onIndex staged)
  start : 0 < hunk.start staged ∨ hunk.count staged = 0

/-- The hunks of a diff: numbered on both sides, in order and apart. -/
structure WellNumbered (hunks : List DiffHunk) : Prop where
  hunk : ∀ hunk ∈ hunks, ∀ staged, hunk.WellNumbered staged
  apart : ∀ staged, hunks.Pairwise fun a b => a.start staged + a.count staged ≤ b.start staged

instance (hunk : DiffHunk) (staged : Bool) : Decidable (hunk.WellNumbered staged) :=
  decidable_of_iff (NumberedFrom staged (hunk.start staged) hunk.lines ∧
      hunk.count staged = hunk.lines.countP (onIndex staged) ∧
        (0 < hunk.start staged ∨ hunk.count staged = 0))
    ⟨fun h => ⟨h.1, h.2.1, h.2.2⟩, fun h => ⟨h.numbers, h.count, h.start⟩⟩

instance (hunks : List DiffHunk) : Decidable (WellNumbered hunks) :=
  decidable_of_iff ((∀ hunk ∈ hunks, hunk.WellNumbered false ∧ hunk.WellNumbered true) ∧
      hunks.Pairwise (fun a b => a.start false + a.count false ≤ b.start false) ∧
        hunks.Pairwise (fun a b => a.start true + a.count true ≤ b.start true))
    ⟨fun h => ⟨fun hunk hMem => Bool.rec (h.1 hunk hMem).1 (h.1 hunk hMem).2,
        Bool.rec h.2.1 h.2.2⟩,
      fun h => ⟨fun hunk hMem => ⟨h.hunk hunk hMem false, h.hunk hunk hMem true⟩, h.apart false,
        h.apart true⟩⟩

instance : LE IndexPosition := ⟨fun a b => (compareIndexPositions a b).isLE = true⟩

theorem IndexPosition.le_iff {a b : IndexPosition} :
    a ≤ b ↔ a.line < b.line ∨ a.line = b.line ∧ a.offset ≤ b.offset := by
  change (compareIndexPositions a b).isLE = true ↔ _
  rw [compareIndexPositions, Comparison.isLE_compare_then, Int.isLE_compare]

theorem IndexPosition.le_refl (a : IndexPosition) : a ≤ a := le_iff.mpr (.inr ⟨rfl, Int.le_refl _⟩)

theorem IndexPosition.le_trans {a b c : IndexPosition} (hab : a ≤ b) (hbc : b ≤ c) : a ≤ c := by
  rw [le_iff] at hab hbc ⊢
  omega

theorem IndexPosition.after_le {m n : Int} (h : m ≤ n) :
    ({ line := m, offset := 1 } : IndexPosition) ≤ { line := n, offset := 1 } := by
  rw [le_iff]
  dsimp only
  omega

/-- The rows before `l` that are index lines. -/
abbrev passedLines (staged : Bool) (lines : List DiffLine) (l : Nat) : Nat :=
  Ruler.passed (onIndex staged) lines l

theorem passedLines_cons {staged : Bool} (first : DiffLine) (lines : List DiffLine) (l : Nat) :
    passedLines staged (first :: lines) (l + 1) =
      passedLines staged lines l + if onIndex staged first then 1 else 0 :=
  Ruler.passed_cons first l

theorem passedLines_succ {staged : Bool} {lines : List DiffLine} {l : Nat} {line : DiffLine}
    (hLine : lines[l]? = some line) :
    passedLines staged lines (l + 1) =
      passedLines staged lines l + if onIndex staged line then 1 else 0 :=
  Ruler.passed_succ hLine

theorem passedLines_mono (staged : Bool) (lines : List DiffLine) {l l' : Nat} (h : l ≤ l') :
    passedLines staged lines l ≤ passedLines staged lines l' :=
  Ruler.passed_mono h

namespace NumberedFrom

variable {staged : Bool} {n : Int} {lines : List DiffLine} {l : Nat} {line : DiffLine}

theorem number_eq (h : NumberedFrom staged n lines) (hLine : lines[l]? = some line) :
    line.number staged = if onIndex staged line then n + passedLines staged lines l else 0 := by
  induction lines generalizing n l with
  | nil => exact absurd hLine (by simp)
  | cons first lines ih =>
    cases l with
    | zero =>
      obtain rfl : first = line := by simpa using hLine
      rw [h.1, passedLines, Ruler.passed_zero]
      simp
    | succ l =>
      rw [ih h.2 hLine, passedLines_cons]
      split
      next =>
        split
        · push_cast
          rw [Int.add_assoc, Int.add_comm 1]
        · simp
      next => rfl

theorem positions (h : NumberedFrom staged n lines)
    (hStart : 0 < n ∨ lines.countP (onIndex staged) = 0) (hLine : lines[l]? = some line) :
    (positionsFrom staged (n - 1) lines)[l]? =
      some (if onIndex staged line then { line := n + passedLines staged lines l, offset := 0 }
        else { line := n + passedLines staged lines l - 1, offset := 1 }) := by
  induction lines generalizing n l with
  | nil => exact absurd hLine (by simp)
  | cons first lines ih =>
    have hNumber := h.1
    rw [List.countP_cons] at hStart
    cases hMark : onIndex staged first with
    | true =>
      have hPositive : 0 < n := by simpa [hMark] using hStart
      have hRest := h.2
      rw [hMark, if_pos rfl] at hNumber hRest
      simp only [positionsFrom, hNumber, hPositive, if_true]
      cases l with
      | zero =>
        obtain rfl : first = line := by simpa using hLine
        simp [hMark]
      | succ l =>
        have hNext := ih hRest (.inl (by omega)) hLine
        rw [Int.add_sub_cancel] at hNext
        rw [List.getElem?_cons_succ, hNext, passedLines_cons, hMark, if_pos rfl]
        push_cast
        rw [Int.add_assoc, Int.add_comm 1]
    | false =>
      have hRest := h.2
      rw [hMark, if_neg Bool.false_ne_true] at hNumber hRest
      simp only [positionsFrom, hNumber, gt_iff_lt, lt_irrefl, if_false]
      cases l with
      | zero =>
        obtain rfl : first = line := by simpa using hLine
        simp [hMark]
      | succ l =>
        rw [List.getElem?_cons_succ, ih hRest (by simpa [hMark] using hStart) hLine, passedLines_cons,
          hMark, if_neg Bool.false_ne_true, Nat.add_zero]

end NumberedFrom

namespace DiffHunk.WellNumbered

variable {hunk : DiffHunk} {staged : Bool} {l l' : Nat} {line line' : DiffLine}

theorem start_or_none (h : hunk.WellNumbered staged) :
    0 < hunk.start staged ∨ hunk.lines.countP (onIndex staged) = 0 := by
  have hCount := h.count
  have hStart := h.start
  omega

theorem number_eq (h : hunk.WellNumbered staged) (hLine : hunk.lines[l]? = some line)
    (hMark : onIndex staged line = true) :
    line.number staged = hunk.start staged + passedLines staged hunk.lines l := by
  rw [h.numbers.number_eq hLine, if_pos hMark]

theorem number_pos_iff (h : hunk.WellNumbered staged) (hLine : hunk.lines[l]? = some line) :
    0 < line.number staged ↔ onIndex staged line = true := by
  rw [h.numbers.number_eq hLine]
  split
  next hMark =>
    have hSome : 0 < hunk.lines.countP (onIndex staged) :=
      List.countP_pos_iff.mpr ⟨line, List.mem_of_getElem? hLine, hMark⟩
    have hStart := h.start_or_none
    exact ⟨fun _ => hMark, fun _ => by omega⟩
  next hMark => exact ⟨fun h0 => absurd h0 (lt_irrefl 0), fun hYes => absurd hYes hMark⟩

theorem position_eq (h : hunk.WellNumbered staged) (hLine : hunk.lines[l]? = some line) :
    indexPositionOf hunk l staged =
      if onIndex staged line then
        { line := hunk.start staged + passedLines staged hunk.lines l, offset := 0 }
      else { line := hunk.start staged + passedLines staged hunk.lines l - 1, offset := 1 } := by
  have hLength := (List.getElem?_eq_some_iff.mp hLine).1
  simp only [indexPositionOf, if_pos hLength, positionsOf, List.getD_eq_getElem?_getD,
    h.numbers.positions h.start_or_none hLine, Option.getD_some]

theorem position_of_mark (h : hunk.WellNumbered staged) (hLine : hunk.lines[l]? = some line)
    (hMark : onIndex staged line = true) :
    indexPositionOf hunk l staged =
      { line := hunk.start staged + passedLines staged hunk.lines l, offset := 0 } := by
  rw [h.position_eq hLine, if_pos hMark]

theorem position_between (h : hunk.WellNumbered staged) (hLine : hunk.lines[l]? = some line)
    (hMark : onIndex staged line = false) :
    indexPositionOf hunk l staged =
      { line := hunk.start staged + passedLines staged hunk.lines l - 1, offset := 1 } := by
  rw [h.position_eq hLine, hMark, if_neg Bool.false_ne_true]

theorem position_le_iff (h : hunk.WellNumbered staged) (hLine : hunk.lines[l]? = some line)
    {n : Int} : indexPositionOf hunk l staged ≤ { line := n, offset := 0 } ↔
      hunk.start staged + passedLines staged hunk.lines l ≤ n := by
  cases hMark : onIndex staged line with
  | true =>
    rw [h.position_of_mark hLine hMark, IndexPosition.le_iff]
    dsimp only
    omega
  | false =>
    rw [h.position_between hLine hMark, IndexPosition.le_iff]
    dsimp only
    omega

/-- A row stands after the index lines passed before it, -/
theorem after_le_position (h : hunk.WellNumbered staged) (hLine : hunk.lines[l]? = some line) :
    { line := hunk.start staged + passedLines staged hunk.lines l - 1, offset := 1 } ≤
      indexPositionOf hunk l staged := by
  cases hMark : onIndex staged line with
  | true =>
    rw [h.position_of_mark hLine hMark, IndexPosition.le_iff]
    dsimp only
    omega
  | false =>
    rw [h.position_between hLine hMark]
    exact IndexPosition.le_refl _

/-- and not after those passed with it. -/
theorem position_le_after (h : hunk.WellNumbered staged) (hLine : hunk.lines[l]? = some line) :
    indexPositionOf hunk l staged ≤
      { line := hunk.start staged + passedLines staged hunk.lines (l + 1) - 1, offset := 1 } := by
  rw [passedLines_succ hLine]
  cases hMark : onIndex staged line with
  | true =>
    rw [h.position_of_mark hLine hMark, if_pos rfl, IndexPosition.le_iff]
    dsimp only
    omega
  | false =>
    rw [h.position_between hLine hMark, if_neg Bool.false_ne_true]
    exact IndexPosition.le_refl _

theorem position_mono (h : hunk.WellNumbered staged) (hLine : hunk.lines[l]? = some line)
    (hLine' : hunk.lines[l']? = some line') (hle : l ≤ l') :
    indexPositionOf hunk l staged ≤ indexPositionOf hunk l' staged := by
  rcases Nat.eq_or_lt_of_le hle with rfl | hLess
  · exact IndexPosition.le_refl _
  · have hPassed : passedLines staged hunk.lines (l + 1) ≤ passedLines staged hunk.lines l' :=
      passedLines_mono staged hunk.lines hLess
    refine IndexPosition.le_trans (h.position_le_after hLine) ?_
    exact IndexPosition.le_trans (IndexPosition.after_le (by omega)) (h.after_le_position hLine')

theorem le_position (h : hunk.WellNumbered staged) (hLine : hunk.lines[l]? = some line) :
    { line := hunk.start staged - 1, offset := 1 } ≤ indexPositionOf hunk l staged :=
  IndexPosition.le_trans (IndexPosition.after_le (by omega)) (h.after_le_position hLine)

theorem position_le (h : hunk.WellNumbered staged) (hLine : hunk.lines[l]? = some line) :
    indexPositionOf hunk l staged ≤
      { line := hunk.start staged + hunk.count staged - 1, offset := 1 } := by
  have hPassed : passedLines staged hunk.lines (l + 1) ≤ hunk.lines.countP (onIndex staged) :=
    Ruler.passed_le_countP (l + 1)
  have hCount := h.count
  exact IndexPosition.le_trans (h.position_le_after hLine) (IndexPosition.after_le (by omega))

theorem not_le_position_before (h : hunk.WellNumbered staged) (hLine : hunk.lines[l]? = some line)
    (hLine' : hunk.lines[l']? = some line') (hMark : 0 < line'.number staged) (hLess : l < l') :
    ¬{ line := line'.number staged, offset := 0 } ≤ indexPositionOf hunk l staged := by
  intro hLow
  rw [h.number_pos_iff hLine'] at hMark
  have hPassed : passedLines staged hunk.lines (l + 1) ≤ passedLines staged hunk.lines l' :=
    passedLines_mono staged hunk.lines hLess
  have hNext := IndexPosition.le_trans hLow (h.position_le_after hLine)
  rw [h.number_eq hLine' hMark, IndexPosition.le_iff] at hNext
  dsimp only at hNext
  omega

theorem not_position_le_after (h : hunk.WellNumbered staged) (hLine : hunk.lines[l]? = some line)
    (hLine' : hunk.lines[l']? = some line') (hMark : 0 < line.number staged) (hLess : l < l') :
    ¬indexPositionOf hunk l' staged ≤ { line := line.number staged, offset := 0 } := by
  rw [h.number_pos_iff hLine] at hMark
  have hPassed := passedLines_mono staged hunk.lines hLess
  rw [passedLines_succ hLine, if_pos hMark] at hPassed
  rw [h.position_le_iff hLine', h.number_eq hLine hMark]
  omega

/-- A hunk that steps over an index line shows it. -/
theorem exists_number (h : hunk.WellNumbered staged) (hLine : hunk.lines[l]? = some line)
    (hLine' : hunk.lines[l']? = some line') {n : Int}
    (hLow : indexPositionOf hunk l staged ≤ { line := n, offset := 0 })
    (hHigh : ¬indexPositionOf hunk l' staged ≤ { line := n, offset := 0 }) :
    ∃ m row, l ≤ m ∧ m < l' ∧ hunk.lines[m]? = some row ∧ row.number staged = n := by
  rw [h.position_le_iff hLine] at hLow
  rw [h.position_le_iff hLine'] at hHigh
  have hLength := (List.getElem?_eq_some_iff.mp hLine').1
  have hBefore : passedLines staged hunk.lines l ≤ (n - hunk.start staged).toNat := by omega
  have hAfter : (n - hunk.start staged).toNat < passedLines staged hunk.lines l' := by omega
  obtain ⟨m, row, hFrom, hTo, hRow, hMark, hPassed⟩ := Ruler.exists_mark hLength.le hBefore hAfter
  refine ⟨m, row, hFrom, hTo, hRow, ?_⟩
  rw [h.number_eq hRow hMark, passedLines, hPassed]
  omega

end DiffHunk.WellNumbered

/-- A row of a list of hunks. -/
structure RowAt (hunks : List DiffHunk) (h l : Nat) (hunk : DiffHunk) (line : DiffLine) : Prop where
  inHunks : hunks[h]? = some hunk
  inHunk : hunk.lines[l]? = some line

/-- The order in which a diff lists its rows. -/
def RowBefore (h l h' l' : Nat) : Prop := h < h' ∨ h = h' ∧ l < l'

namespace RowAt

variable {hunks : List DiffHunk} {h l h' l' : Nat} {hunk hunk' : DiffHunk} {line line' : DiffLine}
  {staged : Bool}

theorem mem (row : RowAt hunks h l hunk line) : hunk ∈ hunks ∧ line ∈ hunk.lines :=
  ⟨List.mem_of_getElem? row.inHunks, List.mem_of_getElem? row.inHunk⟩

theorem of_mem (hHunk : hunk ∈ hunks) (hLine : line ∈ hunk.lines) :
    ∃ h l, RowAt hunks h l hunk line := by
  obtain ⟨h, hAt⟩ := List.getElem?_of_mem hHunk
  obtain ⟨l, hLineAt⟩ := List.getElem?_of_mem hLine
  exact ⟨h, l, hAt, hLineAt⟩

theorem wellNumbered (row : RowAt hunks h l hunk line) (hDiff : WellNumbered hunks) (staged : Bool) :
    hunk.WellNumbered staged :=
  hDiff.hunk hunk row.mem.1 staged

theorem same_hunk (row : RowAt hunks h l hunk line) (row' : RowAt hunks h l' hunk' line') :
    hunk = hunk' :=
  Option.some_inj.mp (row.inHunks.symm.trans row'.inHunks)

theorem apart (row : RowAt hunks h l hunk line) (row' : RowAt hunks h' l' hunk' line')
    (hDiff : WellNumbered hunks) (staged : Bool) (hLess : h < h') :
    hunk.start staged + hunk.count staged ≤ hunk'.start staged := by
  obtain ⟨hLength, hHunk⟩ := List.getElem?_eq_some_iff.mp row.inHunks
  obtain ⟨hLength', hHunk'⟩ := List.getElem?_eq_some_iff.mp row'.inHunks
  have hApart := List.pairwise_iff_getElem.mp (hDiff.apart staged) h h' hLength hLength' hLess
  rwa [hHunk, hHunk'] at hApart

theorem position_mono (row : RowAt hunks h l hunk line) (row' : RowAt hunks h' l' hunk' line')
    (hDiff : WellNumbered hunks) (hBefore : RowBefore h l h' l') :
    indexPositionOf hunk l staged ≤ indexPositionOf hunk' l' staged := by
  rcases hBefore with hLess | ⟨rfl, hLess⟩
  · have hApart := row.apart row' hDiff staged hLess
    have hLow := (row.wellNumbered hDiff staged).position_le row.inHunk
    have hHigh := (row'.wellNumbered hDiff staged).le_position row'.inHunk
    rw [IndexPosition.le_iff] at hLow hHigh ⊢
    dsimp only at hLow hHigh
    omega
  · obtain rfl := row.same_hunk row'
    exact (row.wellNumbered hDiff staged).position_mono row.inHunk row'.inHunk hLess.le

theorem number_lt (row : RowAt hunks h l hunk line) (row' : RowAt hunks h' l' hunk' line')
    (hDiff : WellNumbered hunks) (hMark : 0 < line.number staged) (hMark' : 0 < line'.number staged)
    (hBefore : RowBefore h l h' l') : line.number staged < line'.number staged := by
  have hHunk := row.wellNumbered hDiff staged
  have hHunk' := row'.wellNumbered hDiff staged
  rw [hHunk.number_pos_iff row.inHunk] at hMark
  rw [hHunk'.number_pos_iff row'.inHunk] at hMark'
  rw [hHunk.number_eq row.inHunk hMark, hHunk'.number_eq row'.inHunk hMark']
  rcases hBefore with hLess | ⟨rfl, hLess⟩
  · have hApart := row.apart row' hDiff staged hLess
    have hCount := hHunk.count
    have hPassed : passedLines staged hunk.lines (l + 1) ≤ hunk.lines.countP (onIndex staged) :=
      Ruler.passed_le_countP (l + 1)
    rw [passedLines_succ row.inHunk, if_pos hMark] at hPassed
    omega
  · obtain rfl := row.same_hunk row'
    have hPassed : passedLines staged hunk.lines l < passedLines staged hunk.lines l' :=
      Ruler.passed_lt row.inHunk hMark hLess
    omega

/-- An index line is shown once in a diff. -/
theorem number_inj (row : RowAt hunks h l hunk line) (row' : RowAt hunks h' l' hunk' line')
    (hDiff : WellNumbered hunks) (hMark : 0 < line.number staged)
    (hSame : line.number staged = line'.number staged) : h = h' ∧ l = l' := by
  have hMark' : 0 < line'.number staged := hSame ▸ hMark
  have hNotBefore : ¬RowBefore h l h' l' := fun hBefore =>
    (row.number_lt row' hDiff hMark hMark' hBefore).ne hSame
  have hNotAfter : ¬RowBefore h' l' h l := fun hAfter =>
    (row'.number_lt row hDiff hMark' hMark hAfter).ne hSame.symm
  unfold RowBefore at hNotBefore hNotAfter
  omega

theorem number_pos_of_context (row : RowAt hunks h l hunk line) (hDiff : WellNumbered hunks)
    (hContext : line.kind = .context) : 0 < line.number staged := by
  rw [(row.wellNumbered hDiff staged).number_pos_iff row.inHunk, onIndex, hContext]
  cases staged <;> rfl

theorem context_or_changed (row : RowAt hunks h l hunk line) (hDiff : WellNumbered hunks)
    (hNumber : 0 < line.number staged) : line.kind = .context ∨ isChanged line.kind = true := by
  rw [(row.wellNumbered hDiff staged).number_pos_iff row.inHunk, onIndex] at hNumber
  revert hNumber
  cases line.kind <;> cases staged <;> decide

theorem position_of_number (row : RowAt hunks h l hunk line) (hDiff : WellNumbered hunks)
    (hMark : 0 < line.number staged) :
    indexPositionOf hunk l staged = { line := line.number staged, offset := 0 } := by
  have hHunk := row.wellNumbered hDiff staged
  rw [hHunk.number_pos_iff row.inHunk] at hMark
  rw [hHunk.position_of_mark row.inHunk hMark, hHunk.number_eq row.inHunk hMark]

end RowAt

/-- The hunks the pane reads of a side. -/
def DiffSide.hunks (side : DiffSide) : List DiffHunk :=
  match side.file with
  | none => []
  | some file => if file.binary then [] else file.hunks

end GitBranchManager.DiffPane
