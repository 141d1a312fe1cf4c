import GitBranchManager.Base.Bytes
import Mathlib.Algebra.BigOperators.Group.Finset.Basic
import Mathlib.Algebra.BigOperators.Group.Finset.Piecewise
import Mathlib.Algebra.Order.BigOperators.Group.Finset
import Mathlib.Algebra.Order.Ring.Rat
import Mathlib.Tactic.Linarith
import Mathlib.Tactic.NormNum

/-! # The columns of a commit row

A row that is too narrow for its columns gives up one after another, until the subject has its minimum. The
graph is cut last, and only while its lanes are drawn.
-/

namespace GitBranchManager

namespace CommitRows

/-! ## Columns -/

inductive GbmGraphColumnId
  | graph
  | message
  | refs
  | author
  | date
  | hash
  | committer
  | changedFiles
  deriving DecidableEq, Repr

namespace GbmGraphColumnId

def storageId : GbmGraphColumnId → Utf16
  | .graph => utf16 "graph"
  | .message => utf16 "message"
  | .refs => utf16 "refs"
  | .author => utf16 "author"
  | .date => utf16 "date"
  | .hash => utf16 "hash"
  | .committer => utf16 "committer"
  | .changedFiles => utf16 "changedFiles"

def defaultWidth : GbmGraphColumnId → ℚ
  | .graph => 99
  | .message => 0
  | .refs => 104
  | .author => 110
  | .date => 80
  | .hash => 64
  | .committer => 110
  | .changedFiles => 64

def defaultVisible : GbmGraphColumnId → Bool
  | .committer => false
  | .changedFiles => false
  | _ => true

def isLocked (id : GbmGraphColumnId) : Bool := id == .graph || id == .message

end GbmGraphColumnId

def kGraphColumnOrderDefault : List GbmGraphColumnId :=
  [.graph, .message, .refs, .author, .date, .hash, .committer, .changedFiles]

def kDefaultHiddenGraphColumnIds : Finset Utf16 :=
  ((kGraphColumnOrderDefault.filter fun id => !id.defaultVisible).map GbmGraphColumnId.storageId).toFinset

def kColumnDropOrder : List GbmGraphColumnId := [.changedFiles, .committer, .date, .author, .hash, .refs]

def kMinSubjectWidth : ℚ := 80

def kGraphLaneWidth : ℚ := 11

def space2 : ℚ := 8

def space3 : ℚ := 12

def gapAfterColumn : GbmGraphColumnId → ℚ
  | .hash => space3
  | .author => space3
  | .committer => space3
  | .date => space2
  | .refs => space2
  | .changedFiles => space2
  | .graph => space2
  | .message => 0

def kRowTrailingGap : ℚ := space3

/-- Everything in a row but the subject. -/
def fixedCost (visible : Finset GbmGraphColumnId) (slots : GbmGraphColumnId → Option ℚ) (graphWidth : ℚ) : ℚ :=
  (∑ id ∈ visible.erase .message,
    ((if id = .graph then graphWidth else (slots id).getD id.defaultWidth) + gapAfterColumn id)) + kRowTrailingGap

/-! ## Plans -/

structure PlannedColumn where
  id : GbmGraphColumnId
  width : Option ℚ
  deriving DecidableEq, Repr

structure CommitRowColumnPlan where
  columns : List PlannedColumn
  graphWidth : ℚ
  maxRefsWidth : Option ℚ
  graphClipped : Bool
  drawsGraph : Bool
  deriving DecidableEq, Repr

namespace CommitRowColumnPlan

def shows (plan : CommitRowColumnPlan) (id : GbmGraphColumnId) : Bool := plan.columns.any fun column => column.id == id

def widthOf (plan : CommitRowColumnPlan) (id : GbmGraphColumnId) : Option ℚ :=
  (plan.columns.find? fun column => column.id == id).bind PlannedColumn.width

def subjectWidthFor (plan : CommitRowColumnPlan) (availableWidth : ℚ) : ℚ :=
  availableWidth - fixedCost (plan.columns.map PlannedColumn.id).toFinset plan.widthOf plan.graphWidth

end CommitRowColumnPlan

/-- What all rows of a list share, but for their width. -/
structure RowSettings where
  laneCount : ℕ
  showGraph : Bool
  order : List GbmGraphColumnId := kGraphColumnOrderDefault
  widths : GbmGraphColumnId → Option ℚ := fun _ => none
  hiddenByUser : Option (Finset Utf16) := none

namespace RowSettings

variable (s : RowSettings)

def hidden : Finset Utf16 := s.hiddenByUser.getD kDefaultHiddenGraphColumnIds

def slots (id : GbmGraphColumnId) : ℚ := (s.widths id).getD id.defaultWidth

def visible : Finset GbmGraphColumnId :=
  (s.order.filter fun id => id.isLocked || decide (id.storageId ∉ s.hidden)).toFinset

def graphNatural : ℚ := if s.showGraph then kGraphLaneWidth * (s.laneCount + 1) else space3

def graphWanted : ℚ := if s.showGraph then min s.graphNatural (s.slots .graph) else s.graphNatural

def leftover (availableWidth : ℚ) (visible : Finset GbmGraphColumnId) : ℚ :=
  availableWidth - fixedCost visible (fun id => some (s.slots id)) s.graphWanted

/-- The loop over the ladder. -/
def dropColumns (availableWidth : ℚ) : List GbmGraphColumnId → Finset GbmGraphColumnId → Finset GbmGraphColumnId
  | [], visible => visible
  | id :: ladder, visible =>
    if kMinSubjectWidth ≤ s.leftover availableWidth visible then visible
    else dropColumns availableWidth ladder (visible.erase id)

/-- The last resort is the graph. -/
def resolvedGraphWidth (availableWidth : ℚ) (visible : Finset GbmGraphColumnId) : ℚ :=
  let shortfall := kMinSubjectWidth - s.leftover availableWidth visible
  if s.showGraph ∧ 0 < shortfall then max 0 (s.graphWanted - shortfall) else s.graphWanted

def planned (visible : Finset GbmGraphColumnId) (graphWidth : ℚ) : List PlannedColumn :=
  (s.order.filter fun id => decide (id ∈ visible)).map fun id =>
    { id, width := if id = .graph then some graphWidth else if id = .message then none else some (s.slots id) }

end RowSettings

def planCommitRowColumns (s : RowSettings) (availableWidth : ℚ) : CommitRowColumnPlan :=
  let visible := s.dropColumns availableWidth kColumnDropOrder s.visible
  let graphWidth := s.resolvedGraphWidth availableWidth visible
  { columns := s.planned visible graphWidth
    graphWidth
    maxRefsWidth := if .refs ∈ visible then some (s.slots .refs) else none
    graphClipped := s.showGraph && decide (graphWidth < s.graphNatural)
    drawsGraph := s.showGraph }

/-- Nothing where the row has no graph. -/
def CommitRowColumnPlan.drawnGraphWidth (plan : CommitRowColumnPlan) : ℚ := (plan.widthOf .graph).getD 0

/-! ## The ladder -/

section Ladder

variable {s : RowSettings} {availableWidth wider : ℚ} {visible : Finset GbmGraphColumnId}

/-- The rungs that are given up are the first ones, each of them because the ones before were not enough. -/
theorem dropColumns_spec (s : RowSettings) (availableWidth : ℚ) (ladder : List GbmGraphColumnId)
    (visible : Finset GbmGraphColumnId) :
    ∃ k ≤ ladder.length, s.dropColumns availableWidth ladder visible = visible \ (ladder.take k).toFinset ∧
      (∀ j < k, s.leftover availableWidth (visible \ (ladder.take j).toFinset) < kMinSubjectWidth) ∧
      (k < ladder.length → kMinSubjectWidth ≤ s.leftover availableWidth (visible \ (ladder.take k).toFinset)) := by
  induction ladder generalizing visible with
  | nil => exact ⟨0, Nat.le_refl _, (Finset.sdiff_empty).symm, fun j hj => absurd hj (Nat.not_lt_zero j),
      fun hLess => absurd hLess (Nat.lt_irrefl 0)⟩
  | cons id ladder ih =>
    have hSkip : ∀ k, visible.erase id \ (ladder.take k).toFinset = visible \ ((id :: ladder).take (k + 1)).toFinset :=
      fun k => by rw [List.take_succ_cons, List.toFinset_cons, Finset.sdiff_insert, Finset.erase_sdiff_comm]
    have hNone : visible \ ((id :: ladder).take 0).toFinset = visible := Finset.sdiff_empty
    rw [RowSettings.dropColumns]
    split
    next hEnough =>
      refine ⟨0, Nat.zero_le _, hNone.symm, fun j hj => absurd hj (Nat.not_lt_zero j), fun _ => ?_⟩
      rwa [hNone]
    next hShort =>
      obtain ⟨k, hk, hEq, hBefore, hAfter⟩ := ih (visible.erase id)
      rw [hSkip] at hEq hAfter
      refine ⟨k + 1, Nat.succ_le_succ hk, hEq, fun j hj => ?_, fun hLess => hAfter (Nat.lt_of_succ_lt_succ hLess)⟩
      cases j with
      | zero => rw [hNone]; exact not_le.mp hShort
      | succ j => rw [← hSkip]; exact hBefore j (Nat.lt_of_succ_lt_succ hj)

theorem leftover_mono (h : availableWidth ≤ wider) (visible : Finset GbmGraphColumnId) :
    s.leftover availableWidth visible ≤ s.leftover wider visible := sub_le_sub_right h _

/-- What is left when the ladder is done: enough for the subject, or none of the ladder. -/
theorem dropColumns_left (s : RowSettings) (availableWidth : ℚ) :
    kMinSubjectWidth ≤ s.leftover availableWidth (s.dropColumns availableWidth kColumnDropOrder s.visible) ∨
      s.dropColumns availableWidth kColumnDropOrder s.visible = s.visible \ kColumnDropOrder.toFinset := by
  obtain ⟨k, hk, hEq, -, hAfter⟩ := dropColumns_spec s availableWidth kColumnDropOrder s.visible
  obtain hLess | hAll := Nat.lt_or_eq_of_le hk
  · rw [hEq]
    exact .inl (hAfter hLess)
  · rw [hEq, hAll, List.take_length]
    exact .inr rfl

/-- A wider row gives up no more. -/
theorem dropColumns_mono (s : RowSettings) (h : availableWidth ≤ wider) :
    s.dropColumns availableWidth kColumnDropOrder s.visible ⊆ s.dropColumns wider kColumnDropOrder s.visible := by
  obtain ⟨k, -, hEq, -, hAfter⟩ := dropColumns_spec s availableWidth kColumnDropOrder s.visible
  obtain ⟨k', hk', hEq', hBefore', -⟩ := dropColumns_spec s wider kColumnDropOrder s.visible
  have hFewer : k' ≤ k := by
    refine Nat.le_of_not_lt fun hMore => ?_
    have hEnough := (hAfter (Nat.lt_of_lt_of_le hMore hk')).trans (leftover_mono h _)
    exact absurd (hBefore' k hMore) (not_lt.mpr hEnough)
  rw [hEq, hEq']
  refine Finset.sdiff_subset_sdiff (Finset.Subset.refl _) fun id hMem => ?_
  rw [List.mem_toFinset] at hMem ⊢
  exact (List.take_prefix_take_left hFewer).subset hMem

theorem sdiff_subset_dropColumns (s : RowSettings) (availableWidth : ℚ) :
    s.visible \ kColumnDropOrder.toFinset ⊆ s.dropColumns availableWidth kColumnDropOrder s.visible := by
  obtain ⟨k, -, hEq, -, -⟩ := dropColumns_spec s availableWidth kColumnDropOrder s.visible
  rw [hEq]
  refine Finset.sdiff_subset_sdiff (Finset.Subset.refl _) fun id hMem => ?_
  rw [List.mem_toFinset] at hMem ⊢
  exact List.mem_of_mem_take hMem

theorem graph_mem_dropColumns (s : RowSettings) (availableWidth : ℚ) :
    .graph ∈ s.dropColumns availableWidth kColumnDropOrder s.visible ↔ .graph ∈ s.visible := by
  obtain ⟨k, -, hEq, -, -⟩ := dropColumns_spec s availableWidth kColumnDropOrder s.visible
  have hNot : GbmGraphColumnId.graph ∉ kColumnDropOrder := by decide
  rw [hEq, Finset.mem_sdiff, List.mem_toFinset]
  exact and_iff_left fun hMem => hNot (List.mem_of_mem_take hMem)

end Ladder

/-! ## The planned row -/

section Plan

variable {s : RowSettings} {availableWidth wider graphWidth : ℚ} {visible : Finset GbmGraphColumnId}
  {id : GbmGraphColumnId}

theorem ids_planned (s : RowSettings) (visible : Finset GbmGraphColumnId) (graphWidth : ℚ) :
    (s.planned visible graphWidth).map PlannedColumn.id = s.order.filter fun id => decide (id ∈ visible) := by
  rw [RowSettings.planned, List.map_map]
  exact List.map_id _

theorem toFinset_ids_planned (h : ∀ id ∈ visible, id ∈ s.order) :
    ((s.planned visible graphWidth).map PlannedColumn.id).toFinset = visible := by
  ext id
  rw [ids_planned, List.mem_toFinset, List.mem_filter, decide_eq_true_eq]
  exact and_iff_right_of_imp (h id)

theorem find?_planned (hOrder : id ∈ s.order) (hVisible : id ∈ visible) :
    (s.planned visible graphWidth).find? (fun column => column.id == id) =
      some { id, width :=
        if id = .graph then some graphWidth else if id = .message then none else some (s.slots id) } := by
  have hFind : ∀ ids : List GbmGraphColumnId, id ∈ ids → ids.find? (fun other => other == id) = some id := by
    intro ids hMem
    induction ids with
    | nil => cases hMem
    | cons first ids ih =>
      by_cases hSame : first = id
      · rw [hSame]
        exact List.find?_cons_of_pos (beq_self_eq_true id)
      · rw [List.find?_cons_of_neg (by simpa using hSame)]
        exact ih ((List.mem_cons.mp hMem).resolve_left fun hEq => hSame hEq.symm)
  rw [RowSettings.planned, List.find?_map]
  exact congrArg (Option.map _) (hFind _ (List.mem_filter.mpr ⟨hOrder, decide_eq_true hVisible⟩))

theorem mem_order_of_mem_dropColumns (h : id ∈ s.dropColumns availableWidth kColumnDropOrder s.visible) :
    id ∈ s.order := by
  obtain ⟨k, -, hEq, -, -⟩ := dropColumns_spec s availableWidth kColumnDropOrder s.visible
  rw [hEq] at h
  exact (List.mem_filter.mp (List.mem_toFinset.mp (Finset.mem_sdiff.mp h).1)).1

theorem shows_iff : (planCommitRowColumns s availableWidth).shows id = true ↔
    id ∈ s.dropColumns availableWidth kColumnDropOrder s.visible := by
  rw [CommitRowColumnPlan.shows, List.any_eq_true]
  constructor
  · rintro ⟨column, hMem, hSame⟩
    have hId := List.mem_map_of_mem (f := PlannedColumn.id) hMem
    rw [planCommitRowColumns, ids_planned, List.mem_filter, decide_eq_true_eq, beq_iff_eq.mp hSame] at hId
    exact hId.2
  · intro hVisible
    refine ⟨_, List.mem_map_of_mem (List.mem_filter.mpr ⟨mem_order_of_mem_dropColumns hVisible, ?_⟩), ?_⟩
    · exact decide_eq_true hVisible
    · exact beq_self_eq_true id

theorem widthOf_of_mem (h : id ∈ s.dropColumns availableWidth kColumnDropOrder s.visible) :
    (planCommitRowColumns s availableWidth).widthOf id =
      if id = .graph then some (planCommitRowColumns s availableWidth).graphWidth
      else if id = .message then none else some (s.slots id) := by
  rw [CommitRowColumnPlan.widthOf, planCommitRowColumns, find?_planned (mem_order_of_mem_dropColumns h) h]
  rfl

theorem widthOf_of_not_mem (h : id ∉ s.dropColumns availableWidth kColumnDropOrder s.visible) :
    (planCommitRowColumns s availableWidth).widthOf id = none := by
  rw [← shows_iff, CommitRowColumnPlan.shows, List.any_eq_true, not_exists] at h
  have hNone : (planCommitRowColumns s availableWidth).columns.find? (fun column => column.id == id) = none :=
    List.find?_eq_none.mpr fun column hMem hSame => h column ⟨hMem, hSame⟩
  rw [CommitRowColumnPlan.widthOf, hNone, Option.bind_none]

theorem drawnGraphWidth_of_mem (h : .graph ∈ s.visible) :
    (planCommitRowColumns s availableWidth).drawnGraphWidth =
      s.resolvedGraphWidth availableWidth (s.dropColumns availableWidth kColumnDropOrder s.visible) := by
  rw [CommitRowColumnPlan.drawnGraphWidth, widthOf_of_mem ((graph_mem_dropColumns s availableWidth).mpr h), if_pos rfl,
    Option.getD_some, planCommitRowColumns]

theorem drawnGraphWidth_of_not_mem (h : .graph ∉ s.visible) :
    (planCommitRowColumns s availableWidth).drawnGraphWidth = 0 := by
  rw [CommitRowColumnPlan.drawnGraphWidth, widthOf_of_not_mem (mt (graph_mem_dropColumns s availableWidth).mp h),
    Option.getD_none]

theorem subjectWidthFor_eq (s : RowSettings) (availableWidth : ℚ) :
    (planCommitRowColumns s availableWidth).subjectWidthFor availableWidth =
      availableWidth - fixedCost (s.dropColumns availableWidth kColumnDropOrder s.visible)
        (fun id => some (s.slots id)) (planCommitRowColumns s availableWidth).graphWidth := by
  have hIds : ((planCommitRowColumns s availableWidth).columns.map PlannedColumn.id).toFinset =
      s.dropColumns availableWidth kColumnDropOrder s.visible :=
    toFinset_ids_planned fun id => mem_order_of_mem_dropColumns
  rw [CommitRowColumnPlan.subjectWidthFor, hIds, fixedCost, fixedCost]
  congr 2
  refine Finset.sum_congr rfl fun id hMem => ?_
  obtain ⟨hMessage, hVisible⟩ := Finset.mem_erase.mp hMem
  by_cases hGraph : id = .graph
  · rw [if_pos hGraph, if_pos hGraph]
  · rw [if_neg hGraph, if_neg hGraph, widthOf_of_mem hVisible, if_neg hGraph, if_neg hMessage]

theorem fixedCost_graph (visible : Finset GbmGraphColumnId) (slots : GbmGraphColumnId → Option ℚ) (graphWidth : ℚ) :
    fixedCost visible slots graphWidth =
      fixedCost visible slots 0 + if .graph ∈ visible then graphWidth else 0 := by
  have hTerm : ∀ id : GbmGraphColumnId,
      ((if id = .graph then graphWidth else (slots id).getD id.defaultWidth) + gapAfterColumn id) =
        ((if id = .graph then 0 else (slots id).getD id.defaultWidth) + gapAfterColumn id) +
          if id = .graph then graphWidth else 0 := by
    intro id
    split
    next => linarith
    next => linarith
  have hMem : .graph ∈ visible.erase .message ↔ GbmGraphColumnId.graph ∈ visible :=
    Finset.mem_erase.trans (and_iff_right (by decide))
  rw [fixedCost, fixedCost, Finset.sum_congr rfl fun id _ => hTerm id, Finset.sum_add_distrib,
    Finset.sum_ite_eq' (visible.erase .message) GbmGraphColumnId.graph fun _ => graphWidth]
  simp only [hMem]
  linarith

/-- What a narrower graph gives goes to the subject. -/
theorem subjectWidthFor_of_graph (h : .graph ∈ s.visible) :
    (planCommitRowColumns s availableWidth).subjectWidthFor availableWidth =
      s.leftover availableWidth (s.dropColumns availableWidth kColumnDropOrder s.visible) +
        (s.graphWanted - (planCommitRowColumns s availableWidth).drawnGraphWidth) := by
  have hVisible := (graph_mem_dropColumns s availableWidth).mpr h
  rw [subjectWidthFor_eq, fixedCost_graph, if_pos hVisible, RowSettings.leftover, fixedCost_graph _ _ s.graphWanted,
    if_pos hVisible, drawnGraphWidth_of_mem h, planCommitRowColumns]
  linarith

theorem subjectWidthFor_of_no_graph (h : .graph ∉ s.visible) :
    (planCommitRowColumns s availableWidth).subjectWidthFor availableWidth =
      s.leftover availableWidth (s.dropColumns availableWidth kColumnDropOrder s.visible) := by
  have hVisible := mt (graph_mem_dropColumns s availableWidth).mp h
  rw [subjectWidthFor_eq, fixedCost_graph, if_neg hVisible, RowSettings.leftover, fixedCost_graph _ _ s.graphWanted,
    if_neg hVisible]

end Plan

/-! ## The graph -/

section Graph

variable {s : RowSettings} {availableWidth wider : ℚ}

theorem graphWanted_nonneg (hWidths : ∀ id width, s.widths id = some width → 0 ≤ width) : 0 ≤ s.graphWanted := by
  have hNatural : 0 ≤ s.graphNatural := by
    rw [RowSettings.graphNatural, kGraphLaneWidth, space3]
    split
    next =>
      have hLanes : (0 : ℚ) ≤ s.laneCount := Nat.cast_nonneg _
      linarith
    next => norm_num
  have hSlot : 0 ≤ s.slots .graph := by
    rw [RowSettings.slots]
    cases hWidth : s.widths .graph with
    | none => norm_num [GbmGraphColumnId.defaultWidth]
    | some width => exact hWidths .graph width hWidth
  rw [RowSettings.graphWanted]
  split
  next => exact le_min hNatural hSlot
  next => exact hNatural

theorem graphWanted_le (s : RowSettings) :
    s.graphWanted ≤ s.graphNatural ∧ (s.showGraph = true → s.graphWanted ≤ s.slots .graph) := by
  rw [RowSettings.graphWanted]
  split
  next => exact ⟨min_le_left _ _, fun _ => min_le_right _ _⟩
  next hHidden => exact ⟨le_refl _, fun hShown => absurd hShown hHidden⟩

theorem resolvedGraphWidth_of_enough {visible : Finset GbmGraphColumnId}
    (h : kMinSubjectWidth ≤ s.leftover availableWidth visible) :
    s.resolvedGraphWidth availableWidth visible = s.graphWanted :=
  if_neg fun hBoth => absurd hBoth.2 (not_lt.mpr (sub_nonpos.mpr h))

theorem resolvedGraphWidth_of_hidden {visible : Finset GbmGraphColumnId} (h : s.showGraph = false) :
    s.resolvedGraphWidth availableWidth visible = s.graphWanted :=
  if_neg fun hBoth => by
    rw [h] at hBoth
    cases hBoth.1

theorem resolvedGraphWidth_of_short {visible : Finset GbmGraphColumnId} (hShown : s.showGraph = true)
    (h : s.leftover availableWidth visible < kMinSubjectWidth) :
    s.resolvedGraphWidth availableWidth visible =
      max 0 (s.graphWanted - (kMinSubjectWidth - s.leftover availableWidth visible)) :=
  if_pos ⟨hShown, sub_pos.mpr h⟩

theorem resolvedGraphWidth_le (hWanted : 0 ≤ s.graphWanted) (availableWidth : ℚ) (visible : Finset GbmGraphColumnId) :
    s.resolvedGraphWidth availableWidth visible ≤ s.graphWanted := by
  rw [RowSettings.resolvedGraphWidth]
  split
  next hBoth => exact max_le hWanted (sub_le_self _ hBoth.2.le)
  next => exact le_refl _

/-- A wider row has no narrower graph. -/
theorem drawnGraphWidth_mono (hWanted : 0 ≤ s.graphWanted) (h : availableWidth ≤ wider) :
    (planCommitRowColumns s availableWidth).drawnGraphWidth ≤ (planCommitRowColumns s wider).drawnGraphWidth := by
  by_cases hGraph : .graph ∈ s.visible
  · rw [drawnGraphWidth_of_mem hGraph, drawnGraphWidth_of_mem hGraph]
    cases hShown : s.showGraph with
    | false => rw [resolvedGraphWidth_of_hidden hShown, resolvedGraphWidth_of_hidden hShown]
    | true =>
      obtain hEnough | hShort := le_or_gt kMinSubjectWidth
        (s.leftover wider (s.dropColumns wider kColumnDropOrder s.visible))
      · rw [resolvedGraphWidth_of_enough hEnough]
        exact resolvedGraphWidth_le hWanted _ _
      · have hAll := (dropColumns_left s wider).resolve_left (not_le.mpr hShort)
        have hSame : s.dropColumns availableWidth kColumnDropOrder s.visible =
            s.dropColumns wider kColumnDropOrder s.visible :=
          Finset.Subset.antisymm (dropColumns_mono s h) (hAll ▸ sdiff_subset_dropColumns s availableWidth)
        have hLess := leftover_mono (s := s) h (s.dropColumns wider kColumnDropOrder s.visible)
        rw [hSame, resolvedGraphWidth_of_short hShown hShort,
          resolvedGraphWidth_of_short hShown (hLess.trans_lt hShort)]
        exact max_le_max (le_refl 0) (by linarith)
  · rw [drawnGraphWidth_of_not_mem hGraph, drawnGraphWidth_of_not_mem hGraph]

/-- The subject has its minimum, unless nothing that can go is left. -/
theorem subject_or_nothing_left (s : RowSettings) (availableWidth : ℚ) :
    kMinSubjectWidth ≤ (planCommitRowColumns s availableWidth).subjectWidthFor availableWidth ∨
      (∀ id ∈ kColumnDropOrder, (planCommitRowColumns s availableWidth).shows id = false) ∧
        (s.showGraph = true → (planCommitRowColumns s availableWidth).drawnGraphWidth = 0) := by
  obtain hEnough | hShort := le_or_gt kMinSubjectWidth
    (s.leftover availableWidth (s.dropColumns availableWidth kColumnDropOrder s.visible))
  · refine .inl ?_
    by_cases hGraph : .graph ∈ s.visible
    · rw [subjectWidthFor_of_graph hGraph, drawnGraphWidth_of_mem hGraph, resolvedGraphWidth_of_enough hEnough,
        sub_self, add_zero]
      exact hEnough
    · rw [subjectWidthFor_of_no_graph hGraph]
      exact hEnough
  · have hAll := (dropColumns_left s availableWidth).resolve_left (not_le.mpr hShort)
    have hNone : ∀ id ∈ kColumnDropOrder, (planCommitRowColumns s availableWidth).shows id = false := by
      intro id hMem
      rw [Bool.eq_false_iff, Ne, shows_iff, hAll, Finset.mem_sdiff, List.mem_toFinset]
      exact fun hBoth => hBoth.2 hMem
    by_cases hGraph : .graph ∈ s.visible
    · rw [subjectWidthFor_of_graph hGraph, drawnGraphWidth_of_mem hGraph]
      cases hShown : s.showGraph with
      | false => exact .inr ⟨hNone, fun hTrue => by cases hTrue⟩
      | true =>
        rw [resolvedGraphWidth_of_short hShown hShort]
        obtain hOver | hUnder := le_or_gt 0 (s.graphWanted - (kMinSubjectWidth -
          s.leftover availableWidth (s.dropColumns availableWidth kColumnDropOrder s.visible)))
        · refine .inl ?_
          rw [max_eq_right hOver]
          linarith
        · exact .inr ⟨hNone, fun _ => max_eq_left hUnder.le⟩
    · exact .inr ⟨hNone, fun _ => drawnGraphWidth_of_not_mem hGraph⟩

theorem drawnGraphWidth_le (hWanted : 0 ≤ s.graphWanted) (availableWidth : ℚ) :
    (planCommitRowColumns s availableWidth).drawnGraphWidth ≤ s.graphWanted := by
  by_cases hGraph : .graph ∈ s.visible
  · rw [drawnGraphWidth_of_mem hGraph]
    exact resolvedGraphWidth_le hWanted _ _
  · rw [drawnGraphWidth_of_not_mem hGraph]
    exact hWanted

/-- What stands in for the lanes is never cut. -/
theorem drawnGraphWidth_of_hidden (hShown : s.showGraph = false) (hGraph : .graph ∈ s.order) (availableWidth : ℚ) :
    (planCommitRowColumns s availableWidth).drawnGraphWidth = space3 := by
  have hVisible : .graph ∈ s.visible := List.mem_toFinset.mpr (List.mem_filter.mpr ⟨hGraph, rfl⟩)
  rw [drawnGraphWidth_of_mem hVisible, resolvedGraphWidth_of_hidden hShown, RowSettings.graphWanted, hShown,
    RowSettings.graphNatural, hShown]
  rfl

theorem shows_allowed {id : GbmGraphColumnId} (h : (planCommitRowColumns s availableWidth).shows id = true) :
    id.isLocked = true ∨ id.storageId ∉ s.hidden := by
  obtain ⟨k, -, hEq, -, -⟩ := dropColumns_spec s availableWidth kColumnDropOrder s.visible
  rw [shows_iff, hEq, Finset.mem_sdiff, RowSettings.visible, List.mem_toFinset, List.mem_filter, Bool.or_eq_true,
    decide_eq_true_eq] at h
  exact h.1.2

end Graph

/-- While lanes are drawn they are never wider than the user's cap, and they go only when every column that
can be dropped has gone. While a search holds them back, a spacer of a fixed width stands in their place. -/
theorem columns_give_way (s : RowSettings) (hWidths : ∀ id width, s.widths id = some width → 0 ≤ width) :
    (∀ availableWidth,
      (∀ id, (planCommitRowColumns s availableWidth).shows id = true →
        id.isLocked = true ∨ id.storageId ∉ s.hidden) ∧
      (∃ k ≤ kColumnDropOrder.length,
        (∀ id, (planCommitRowColumns s availableWidth).shows id = true ↔
          id ∈ s.visible ∧ id ∉ kColumnDropOrder.take k) ∧
        (∀ j < k, s.leftover availableWidth (s.visible \ (kColumnDropOrder.take j).toFinset) < kMinSubjectWidth) ∧
        (k < kColumnDropOrder.length →
          kMinSubjectWidth ≤ s.leftover availableWidth (s.visible \ (kColumnDropOrder.take k).toFinset))) ∧
      (kMinSubjectWidth ≤ (planCommitRowColumns s availableWidth).subjectWidthFor availableWidth ∨
        (∀ id ∈ kColumnDropOrder, (planCommitRowColumns s availableWidth).shows id = false) ∧
          (s.showGraph = true → (planCommitRowColumns s availableWidth).drawnGraphWidth = 0)) ∧
      (planCommitRowColumns s availableWidth).drawnGraphWidth ≤ s.graphNatural ∧
      (s.showGraph = true → (planCommitRowColumns s availableWidth).drawnGraphWidth ≤ s.slots .graph) ∧
      (s.showGraph = false → .graph ∈ s.order →
        (planCommitRowColumns s availableWidth).drawnGraphWidth = space3)) ∧
    ∀ availableWidth wider, availableWidth ≤ wider →
      (∀ id, (planCommitRowColumns s availableWidth).shows id = true → (planCommitRowColumns s wider).shows id = true) ∧
      (planCommitRowColumns s availableWidth).drawnGraphWidth ≤ (planCommitRowColumns s wider).drawnGraphWidth := by
  have hWanted := graphWanted_nonneg hWidths
  obtain ⟨hNatural, hCap⟩ := graphWanted_le s
  refine ⟨fun availableWidth => ⟨fun id => shows_allowed, ?_, subject_or_nothing_left s availableWidth, ?_, ?_, ?_⟩,
    fun availableWidth wider h => ⟨fun id hShows => ?_, drawnGraphWidth_mono hWanted h⟩⟩
  · obtain ⟨k, hk, hEq, hBefore, hAfter⟩ := dropColumns_spec s availableWidth kColumnDropOrder s.visible
    refine ⟨k, hk, fun id => ?_, hBefore, hAfter⟩
    rw [shows_iff, hEq, Finset.mem_sdiff, List.mem_toFinset]
  · exact (drawnGraphWidth_le hWanted availableWidth).trans hNatural
  · exact fun hShown => (drawnGraphWidth_le hWanted availableWidth).trans (hCap hShown)
  · exact fun hShown hGraph => drawnGraphWidth_of_hidden hShown hGraph availableWidth
  · exact shows_iff.mpr (dropColumns_mono s h (shows_iff.mp hShows))

/-- During a search, in a row of 60 px. -/
def searching : RowSettings := { laneCount := 3, showGraph := false }

theorem columns_give_way_searching :
    (planCommitRowColumns searching 60).drawnGraphWidth ≤ (planCommitRowColumns searching 600).drawnGraphWidth := by
  have hWidths : ∀ id width, searching.widths id = some width → 0 ≤ width := fun _ _ hSome => by cases hSome
  exact ((columns_give_way searching hWidths).2 60 600 (by norm_num)).2

/-- The subject has less than its minimum, and the spacer still its width. -/
theorem spacer_is_not_clipped :
    ¬ (kMinSubjectWidth ≤ (planCommitRowColumns searching 60).subjectWidthFor 60 ∨
      (∀ id ∈ kColumnDropOrder, (planCommitRowColumns searching 60).shows id = false) ∧
        (planCommitRowColumns searching 60).drawnGraphWidth = 0) := by
  decide +kernel

end CommitRows

end GitBranchManager
