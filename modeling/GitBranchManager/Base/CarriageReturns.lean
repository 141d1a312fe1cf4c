import GitBranchManager.Base.Bytes
import GitBranchManager.Library.Lines
import GitBranchManager.Library.Pieces

/-! # Progress redraws

`git --progress` redraws a line in place with `\r`. The log keeps the last state of each line, but
a line that ends in `\r\r\n` keeps none: the `\r` of its line end is taken for the next state.
-/

namespace GitBranchManager

open Library Library.Pieces

/-- The loop of `collapseCarriageReturns`. -/
structure Collapse where
  out : Bytes := []
  lineStart : Nat := 0
  redrawPending : Bool := false

namespace Collapse

def push (s : Collapse) (c : UInt8) : Collapse :=
  let out := (if s.redrawPending then s.out.take s.lineStart else s.out) ++ [c]
  { out, lineStart := if c = LF then out.length else s.lineStart }

def run (s : Collapse) : Bytes → Bytes
  | [] => s.out
  | c :: text =>
    if c = CR ∧ text.head? ≠ some LF then run { s with redrawPending := true } text
    else run (s.push c) text

end Collapse

def collapseCarriageReturns (text : Bytes) : Bytes := Collapse.run {} text

/-- A `\r` that is not directly before a `\n`. -/
def hasLoneCr : Bytes → Bool
  | [] => false
  | c :: text => decide (c = CR ∧ text.head? ≠ some LF) || hasLoneCr text

/-- The last piece between lone `\r`s that is not empty. -/
def lastState (content : Bytes) : Bytes :=
  (((content.splitOn CR).filter fun state => !state.isEmpty).getLast?).getD []

/-- A line that `\n` ends, its `\r` being part of the line end. -/
def lastStateOfLine (line : Bytes) : Bytes :=
  if line.getLast? = some CR then lastState line.dropLast ++ [CR] else lastState line

/-- Each line in its last state, with its own line end. -/
def lastStates (text : Bytes) : Bytes :=
  Lines.join LF ((Lines.cut LF text).1.map lastStateOfLine) ++ lastState (Lines.cut LF text).2

namespace Collapse

/-- What a byte makes of the line shown, and of the redraw pending. -/
def redraw (line : Bytes × Bool) (b : UInt8) : Bytes × Bool :=
  if b = CR then (line.1, true) else ((if line.2 then [] else line.1) ++ [b], false)

/-- A state that a redraw leaves is replaced by the next one that is not empty. -/
theorem fst_foldl_redraw (content shown : Bytes) :
    (content.foldl redraw (shown, true)).1 =
        (((content.splitOn CR).filter fun state => !state.isEmpty).getLast?).getD shown ∧
      ∀ first more, content.splitOn CR = first :: more →
        (content.foldl redraw (shown, false)).1 =
          ((more.filter fun state => !state.isEmpty).getLast?).getD (shown ++ first) := by
  induction content generalizing shown with
  | nil =>
    refine ⟨rfl, ?_⟩
    rintro first more hParts
    obtain ⟨rfl, rfl⟩ := List.cons.inj hParts
    exact (List.append_nil shown).symm
  | cons b content ih =>
    obtain ⟨first, more, hContent⟩ := exists_splitOn CR content
    by_cases hb : b = CR
    · rw [hb, splitOn_sep, List.foldl_cons, List.foldl_cons, redraw, if_pos rfl, redraw, if_pos rfl]
      refine ⟨(ih shown).1, ?_⟩
      rintro front later hParts
      obtain ⟨rfl, rfl⟩ := List.cons.inj hParts
      rw [List.append_nil]
      exact (ih shown).1
    · rw [splitOn_cons hb, hContent, List.modifyHead_cons, List.foldl_cons, List.foldl_cons, redraw, if_neg hb,
        redraw, if_neg hb]
      have hOpen := fun shown' => (ih shown').2 first more hContent
      constructor
      · rw [List.filter_cons_of_pos rfl, List.getLast?_cons, Option.getD_some]
        exact hOpen [b]
      · rintro front later hParts
        obtain ⟨rfl, rfl⟩ := List.cons.inj hParts
        rw [List.append_cons shown b first]
        exact hOpen (shown ++ [b])

theorem foldl_redraw (content : Bytes) :
    content.foldl redraw ([], false) = (lastState content, content.getLast? == some CR) := by
  apply Prod.ext
  · obtain ⟨first, more, hParts⟩ := exists_splitOn CR content
    rw [(fst_foldl_redraw content []).2 first more hParts, lastState, hParts, List.filter_cons, List.nil_append]
    cases first with
    | nil => rfl
    | cons b first => simp [List.getLast?_cons]
  · rcases List.eq_nil_or_concat' content with rfl | ⟨front, b, rfl⟩
    · rfl
    · rw [List.foldl_append, List.getLast?_concat, List.foldl_cons, List.foldl_nil, redraw]
      split
      next hb => rw [hb]; rfl
      next hb => exact (beq_eq_false_iff_ne.mpr fun hSame => hb (Option.some.inj hSame)).symm

/-- The lines done, and the one the cursor is in. -/
def within (done : Bytes) (line : Bytes × Bool) : Collapse where
  out := done ++ line.1
  lineStart := done.length
  redrawPending := line.2

theorem push_within {done : Bytes} {line : Bytes × Bool} {b : UInt8} (h : b ≠ LF) :
    (within done line).push b = within done ((if line.2 then [] else line.1) ++ [b], false) := by
  obtain ⟨shown, pending⟩ := line
  cases pending <;> simp [push, within, h]

/-- Over the content of a line the loop keeps to this line. -/
theorem run_content {content : Bytes} (hContent : LF ∉ content) {rest : Bytes}
    (hRest : content.getLast? = some CR → rest.head? ≠ some LF) (done : Bytes) (line : Bytes × Bool) :
    (within done line).run (content ++ rest) = (within done (content.foldl redraw line)).run rest := by
  induction content generalizing line with
  | nil => rfl
  | cons b content ih =>
    obtain ⟨hb, hMore⟩ := not_or.mp (List.mem_cons.not.mp hContent)
    have hNext := ih hMore (by
      intro hLast
      apply hRest
      rw [List.getLast?_cons, hLast, Option.getD_some])
    rw [List.cons_append, run, List.foldl_cons, redraw]
    by_cases hCr : b = CR
    · have hHead : (content ++ rest).head? ≠ some LF := by
        cases content with
        | nil => exact hRest (congrArg some hCr)
        | cons c content =>
          rintro hSame
          exact hMore (Option.some.inj hSame ▸ List.mem_cons_self)
      rw [if_pos ⟨hCr, hHead⟩, if_pos hCr]
      exact hNext (line.1, true)
    · rw [if_neg (fun hBoth => hCr hBoth.1), if_neg hCr, push_within (Ne.symm hb)]
      exact hNext _

theorem run_open {content : Bytes} (h : LF ∉ content) (done : Bytes) :
    (within done ([], false)).run content = done ++ lastState content := by
  have hRun := @run_content content h [] (fun _ => nofun) done ([], false)
  rwa [List.append_nil, foldl_redraw] at hRun

/-- What the loop leaves of a line: nothing of one that ends in two `\r`s. -/
def lineLeft (line : Bytes) : Bytes :=
  if line.getLast? = some CR then
    (if line.dropLast.getLast? == some CR then [] else lastState line.dropLast) ++ [CR]
  else lastState line

theorem push_line (done : Bytes) (line : Bytes × Bool) :
    (within done line).push LF = within (done ++ (if line.2 then [] else line.1) ++ [LF]) ([], false) := by
  obtain ⟨shown, pending⟩ := line
  cases pending <;> simp [push, within]

theorem run_line {line : Bytes} (hLine : LF ∉ line) (done text : Bytes) :
    (within done ([], false)).run (line ++ LF :: text) =
      (within (done ++ lineLeft line ++ [LF]) ([], false)).run text := by
  have hFeed : ¬ (LF = CR ∧ text.head? ≠ some LF) := fun hBoth => absurd hBoth.1 (by decide)
  by_cases hCr : line.getLast? = some CR
  · have hReturn : ¬ (CR = CR ∧ (LF :: text).head? ≠ some LF) := fun hBoth => hBoth.2 rfl
    have hContent : LF ∉ line.dropLast := fun hm => hLine (List.mem_of_mem_dropLast hm)
    have hSplit : line ++ LF :: text = line.dropLast ++ CR :: LF :: text := by
      rw [← List.dropLast_append_getLast? CR hCr, List.dropLast_concat, List.append_assoc]
      rfl
    rw [hSplit, run_content hContent (fun _ => by simp [CR, LF]), foldl_redraw, run, if_neg hReturn, run,
      if_neg hFeed, push_within (by decide), push_line, lineLeft, if_pos hCr]
    rfl
  · rw [run_content hLine (fun hLast => absurd hLast hCr), foldl_redraw, run, if_neg hFeed, push_line, lineLeft,
      if_neg hCr, beq_eq_false_iff_ne.mpr hCr]
    rfl

end Collapse

theorem collapseCarriageReturns_eq (text : Bytes) : collapseCarriageReturns text =
    Lines.join LF ((Lines.cut LF text).1.map Collapse.lineLeft) ++ lastState (Lines.cut LF text).2 := by
  obtain ⟨hLines, hRest⟩ := Lines.sep_not_mem_cut LF text
  have hText := Lines.join_cut LF text
  generalize (Lines.cut LF text).1 = lines, (Lines.cut LF text).2 = rest at hLines hRest hText ⊢
  have hRun : ∀ done, (Collapse.within done ([], false)).run (Lines.join LF lines ++ rest) =
      done ++ (Lines.join LF (lines.map Collapse.lineLeft) ++ lastState rest) := by
    clear hText
    induction lines with
    | nil => exact Collapse.run_open hRest
    | cons line lines ih =>
      intro done
      obtain ⟨hLine, hMore⟩ := List.forall_mem_cons.mp hLines
      rw [Lines.join_cons, List.append_assoc, List.cons_append, Collapse.run_line hLine, ih hMore,
        List.map_cons, Lines.join_cons]
      simp only [List.append_assoc, List.cons_append, List.nil_append]
  rw [← hText]
  exact hRun []

theorem mem_of_mem_lastState {b : UInt8} {content : Bytes} (h : b ∈ lastState content) : b ∈ content ∧ b ≠ CR := by
  rw [lastState] at h
  cases hLast : ((content.splitOn CR).filter fun state => !state.isEmpty).getLast? with
  | none =>
    rw [hLast] at h
    cases h
  | some state =>
    rw [hLast, Option.getD_some] at h
    exact mem_of_mem_piece (List.mem_of_mem_filter (List.mem_of_getLast? hLast)) h

theorem lastState_eq_nil_iff {content : Bytes} : lastState content = [] ↔ ∀ b ∈ content, b = CR := by
  rw [← pieces_eq_nil_iff, lastState]
  cases hLast : ((content.splitOn CR).filter fun state => !state.isEmpty).getLast? with
  | none =>
    rw [List.getLast?_eq_none_iff, List.filter_eq_nil_iff] at hLast
    simpa using hLast
  | some state =>
    obtain ⟨hPiece, hState⟩ := List.mem_filter.mp (List.mem_of_getLast? hLast)
    rw [Bool.not_eq_true', List.isEmpty_eq_false_iff] at hState
    rw [Option.getD_some]
    exact iff_of_false hState fun hAll => hState (hAll state hPiece)

theorem lineLeft_eq_iff (line : Bytes) : Collapse.lineLeft line = lastStateOfLine line ↔
    ([CR, CR] <:+ line → ∀ b ∈ line, b = CR) := by
  rw [Collapse.lineLeft, lastStateOfLine]
  rcases List.eq_nil_or_concat' line with rfl | ⟨content, b, rfl⟩
  · simp
  · have hSuffix : [CR, CR] <:+ content ++ [b] ↔ content.getLast? = some CR ∧ b = CR := by
      rw [← List.reverse_prefix, List.reverse_concat, ← List.head?_reverse]
      cases content.reverse with
      | nil => simp [List.cons_prefix_cons]
      | cons c front => simp [List.cons_prefix_cons, and_comm, eq_comm]
    rw [List.getLast?_concat, List.dropLast_concat, hSuffix]
    by_cases hb : b = CR
    · rw [if_pos (congrArg some hb), if_pos (congrArg some hb), List.append_left_inj]
      have hAll : (∀ c ∈ content ++ [b], c = CR) ↔ lastState content = [] := by
        rw [lastState_eq_nil_iff, List.forall_mem_append, List.forall_mem_singleton, and_iff_left hb]
      rw [hAll]
      by_cases hLast : content.getLast? = some CR
      · simp [hLast, hb, eq_comm]
      · simp [hLast]
    · have hKept : ¬ some b = some CR := fun hSame => hb (Option.some.inj hSame)
      rw [if_neg hKept, if_neg hKept]
      simp [hb]

theorem hasLoneCr_append {content : Bytes} (h : CR ∉ content) (text : Bytes) :
    hasLoneCr (content ++ text) = hasLoneCr text := by
  induction content with
  | nil => rfl
  | cons b content ih =>
    obtain ⟨hb, hMore⟩ := not_or.mp (List.mem_cons.not.mp h)
    rw [List.cons_append, hasLoneCr, decide_eq_false (fun hBoth => hb hBoth.1.symm), Bool.false_or, ih hMore]

theorem hasLoneCr_lineLeft (line text : Bytes) :
    hasLoneCr (Collapse.lineLeft line ++ LF :: text) = hasLoneCr text := by
  have hFeed : hasLoneCr (LF :: text) = hasLoneCr text := by
    rw [hasLoneCr, decide_eq_false (fun hBoth => absurd hBoth.1 (by decide)), Bool.false_or]
  have hState : ∀ content, CR ∉ lastState content := fun content hMem => (mem_of_mem_lastState hMem).2 rfl
  rw [Collapse.lineLeft]
  split
  · have hContent : CR ∉ if line.dropLast.getLast? == some CR then [] else lastState line.dropLast := by
      split
      · exact List.not_mem_nil
      · exact hState _
    rw [List.append_assoc, hasLoneCr_append hContent, List.singleton_append, hasLoneCr, hFeed]
    simp
  · rw [hasLoneCr_append (hState line), hFeed]

theorem hasLoneCr_collapse (text : Bytes) : hasLoneCr (collapseCarriageReturns text) = false := by
  rw [collapseCarriageReturns_eq]
  induction (Lines.cut LF text).1 with
  | nil =>
    have hState : CR ∉ lastState (Lines.cut LF text).2 := fun hMem => (mem_of_mem_lastState hMem).2 rfl
    have hNone := hasLoneCr_append hState []
    rwa [List.append_nil] at hNone
  | cons line lines ih =>
    rw [List.map_cons, Lines.join_cons, List.append_assoc, List.cons_append, hasLoneCr_lineLeft, ih]

theorem run_of_no_lone {text : Bytes} (h : hasLoneCr text = false) {s : Collapse}
    (hPending : s.redrawPending = false) : s.run text = s.out ++ text := by
  induction text generalizing s with
  | nil => exact (List.append_nil s.out).symm
  | cons c text ih =>
    rw [hasLoneCr, Bool.or_eq_false_iff, decide_eq_false_iff_not] at h
    obtain ⟨hKept, hText⟩ := h
    rw [Collapse.run, if_neg hKept, ih hText rfl, Collapse.push, hPending]
    simp

theorem not_mem_lastStateOfLine {line : Bytes} (h : LF ∉ line) :
    LF ∉ lastStateOfLine line ∧ LF ∉ Collapse.lineLeft line := by
  have hState : ∀ content, content ⊆ line → LF ∉ lastState content := fun content hPart hMem =>
    h (hPart (mem_of_mem_lastState hMem).1)
  have hBefore : LF ∉ lastState line.dropLast := hState _ (List.dropLast_subset line)
  have hReturn : LF ∉ [CR] := by decide
  rw [lastStateOfLine, Collapse.lineLeft]
  split
  · rw [List.mem_append, List.mem_append, not_or, not_or]
    refine ⟨⟨hBefore, hReturn⟩, ?_, hReturn⟩
    split
    · exact List.not_mem_nil
    · exact hBefore
  · exact ⟨hState line (List.Subset.refl line), hState line (List.Subset.refl line)⟩

/-- Lines keep their last state, unless a `\r` stands between it and their `\r\n`. -/
theorem collapse_exact_iff (text : Bytes) :
    (collapseCarriageReturns text = lastStates text ∧ hasLoneCr (collapseCarriageReturns text) = false ∧
      collapseCarriageReturns (collapseCarriageReturns text) = collapseCarriageReturns text) ↔
    ∀ line ∈ (Lines.cut LF text).1, [CR, CR] <:+ line → ∀ b ∈ line, b = CR := by
  have hLone := hasLoneCr_collapse text
  have hAgain : collapseCarriageReturns (collapseCarriageReturns text) = collapseCarriageReturns text :=
    run_of_no_lone hLone rfl
  obtain ⟨hLines, hRest⟩ := Lines.sep_not_mem_cut LF text
  rw [and_iff_left ⟨hLone, hAgain⟩, collapseCarriageReturns_eq, lastStates, List.append_left_inj]
  have hMap : (Lines.cut LF text).1.map Collapse.lineLeft = (Lines.cut LF text).1.map lastStateOfLine ↔
      ∀ line ∈ (Lines.cut LF text).1, [CR, CR] <:+ line → ∀ b ∈ line, b = CR := by
    rw [List.map_inj_left]
    exact forall₂_congr fun line _ => lineLeft_eq_iff line
  rw [← hMap]
  constructor
  · apply Lines.join_inj LF
    · rw [List.forall_mem_map]
      exact fun line hLine => (not_mem_lastStateOfLine (hLines line hLine)).2
    · rw [List.forall_mem_map]
      exact fun line hLine => (not_mem_lastStateOfLine (hLines line hLine)).1
  · exact congrArg (Lines.join LF)

/-- The state of a line that ends in `\r\r\n` is lost. -/
theorem collapse_loses_state : ¬ (collapseCarriageReturns (ascii "abc" ++ [CR, CR, LF]) =
      lastStates (ascii "abc" ++ [CR, CR, LF]) ∧
    hasLoneCr (collapseCarriageReturns (ascii "abc" ++ [CR, CR, LF])) = false ∧
    collapseCarriageReturns (collapseCarriageReturns (ascii "abc" ++ [CR, CR, LF])) =
      collapseCarriageReturns (ascii "abc" ++ [CR, CR, LF])) := by
  decide

end GitBranchManager
