import GitBranchManager.Library.Runs
import Mathlib.Algebra.BigOperators.Group.List.Basic
import Mathlib.Algebra.Order.BigOperators.Group.List
import Mathlib.Algebra.Order.Field.Basic
import Mathlib.Algebra.Order.Ring.Rat
import Mathlib.Tactic.Linarith
import Mathlib.Tactic.NormNum
import Mathlib.Tactic.Ring

/-! # Dragging a divider

A split has one pane of a fixed extent and one that fills the rest, or panes with weights. A drag changes
what is stored; what is drawn also depends on the space that there is.
-/

namespace GitBranchManager

namespace SplitPane

def dividerWidth : ℚ := 5

inductive GbmFixedPaneEnd
  | leading
  | trailing
  deriving DecidableEq, Repr

inductive SplitMode
  | extent (defaultExtent : ℚ)
  | flex (flexRatio : List ℚ)
  deriving DecidableEq, Repr

structure GbmSplitterSpec where
  mode : SplitMode
  minExtent : ℚ
  collapsedByDefault : Bool := false
  minExtent_pos : 0 < minExtent := by norm_num

structure GbmSplitPane extends GbmSplitterSpec where
  fixedPaneEnd : GbmFixedPaneEnd := .leading

structure SplitState where
  currentFlexes : List ℚ
  dragRawExtent : Option ℚ := none
  availableExtent : ℚ := 0
  deriving DecidableEq, Repr

/-- How a step fails. A division by zero throws nothing, but has no rational result: the weights become
infinite, or no numbers. -/
inductive DragError
  | argumentError
  | rangeError
  | notFinite
  deriving DecidableEq, Repr

def clamp (x lower upper : ℚ) : Except DragError ℚ :=
  if upper < lower then .error .argumentError
  else .ok (if x < lower then lower else if upper < x then upper else x)

/-- The shift between two weights that a drag by `flexDelta` comes to. -/
def appliedDelta (flex0 flex1 pixelsPerFlexUnit minPixels flexDelta : ℚ) : ℚ :=
  let pane0Pixels := (flex0 + flexDelta) * pixelsPerFlexUnit
  let pane1Pixels := (flex1 - flexDelta) * pixelsPerFlexUnit
  let applied := if pane0Pixels < minPixels then minPixels / pixelsPerFlexUnit - flex0 else flexDelta
  if pane1Pixels < minPixels then flex1 - minPixels / pixelsPerFlexUnit else applied

def endDividerDrag (s : SplitState) : SplitState := { s with dragRawExtent := none }

namespace GbmSplitPane

variable (pane : GbmSplitPane)

/-- `stored` is what the panel layout repository has for this split. -/
def initState (stored : Option (List ℚ)) : SplitState :=
  match pane.mode with
  | .extent defaultExtent =>
    if pane.collapsedByDefault then { currentFlexes := [0] }
    else match stored with
      | some [extent] => { currentFlexes := [if 0 < extent then max extent pane.minExtent else extent] }
      | _ => { currentFlexes := [defaultExtent] }
  | .flex flexRatio =>
    match stored with
    | some flexes => { currentFlexes := if flexes.length = flexRatio.length then flexes else flexRatio }
    | none => { currentFlexes := flexRatio }

def beginDividerDrag (s : SplitState) : SplitState :=
  match pane.mode with
  | .extent _ => { s with dragRawExtent := s.currentFlexes.head? }
  | .flex _ => s

def adjustedDelta (deltaPixels : ℚ) : ℚ :=
  if pane.fixedPaneEnd = .trailing then -deltaPixels else deltaPixels

/-- While a pointer drags, its travel is kept apart from the extent, which stops at the minimum. -/
def rawExtent (s : SplitState) (extent deltaPixels : ℚ) : Except DragError ℚ :=
  match s.dragRawExtent with
  | some raw =>
    clamp (raw + pane.adjustedDelta deltaPixels) (if pane.collapsedByDefault then 0 else pane.minExtent)
      (s.availableExtent - pane.minExtent)
  | none => .ok (extent + pane.adjustedDelta deltaPixels)

def newExtent (s : SplitState) (rawExtent : ℚ) : Except DragError ℚ :=
  let draggedShut := pane.collapsedByDefault && s.dragRawExtent.isSome && decide (rawExtent < pane.minExtent / 2)
  if draggedShut then .ok 0 else clamp rawExtent pane.minExtent (s.availableExtent - pane.minExtent)

/-- The divider of a pane with a fixed extent. -/
def moveExtent (s : SplitState) (extent deltaPixels : ℚ) : Except DragError SplitState := do
  let rawExtent ← pane.rawExtent s extent deltaPixels
  let newExtent ← pane.newExtent s rawExtent
  return { s with currentFlexes := s.currentFlexes.set 0 newExtent
                  dragRawExtent := s.dragRawExtent.map fun _ => rawExtent }

def pixelsPerFlexUnit (s : SplitState) (flexRatio : List ℚ) : ℚ :=
  (s.availableExtent - (flexRatio.length - 1) * dividerWidth) / s.currentFlexes.sum

/-- A divider between two panes with weights. -/
def moveFlex (s : SplitState) (flexRatio : List ℚ) (dividerIndex : ℕ) (flex0 flex1 deltaPixels : ℚ) :
    Except DragError SplitState :=
  let perUnit := pixelsPerFlexUnit s flexRatio
  if s.currentFlexes.sum = 0 ∨ perUnit = 0 then .error .notFinite
  else
    let applied := appliedDelta flex0 flex1 perUnit pane.minExtent (deltaPixels / perUnit)
    .ok { s with
      currentFlexes := (s.currentFlexes.set dividerIndex (flex0 + applied)).set (dividerIndex + 1) (flex1 - applied) }

def onDividerDelta (s : SplitState) (dividerIndex : ℕ) (deltaPixels : ℚ) : Except DragError SplitState :=
  match pane.mode with
  | .extent _ =>
    match s.currentFlexes[0]? with
    | some extent => pane.moveExtent s extent deltaPixels
    | none => .error .rangeError
  | .flex flexRatio =>
    match s.currentFlexes[dividerIndex]?, s.currentFlexes[dividerIndex + 1]? with
    | some flex0, some flex1 => pane.moveFlex s flexRatio dividerIndex flex0 flex1 deltaPixels
    | _, _ => .error .rangeError

/-- The bounds are always in order. -/
def clampedFixedExtent (s : SplitState) (extent : ℚ) : Except DragError ℚ :=
  clamp extent 0 (max 0 (s.availableExtent - dividerWidth - pane.minExtent))

end GbmSplitPane

/-! ## Sessions -/

inductive SplitEvent
  | build (availableExtent : ℚ)
  | dragStart
  | dragUpdate (dividerIndex : ℕ) (delta : ℚ)
  | dragEnd
  | dragCancel
  | arrowKey (dividerIndex : ℕ) (forward isShifted : Bool)
  deriving DecidableEq, Repr

def keyDelta (forward isShifted : Bool) : ℚ :=
  let delta : ℚ := if isShifted then 64 else 16
  if forward then delta else -delta

def step (pane : GbmSplitPane) (s : SplitState) : SplitEvent → Except DragError SplitState
  | .build availableExtent => .ok { s with availableExtent }
  | .dragStart => .ok (pane.beginDividerDrag s)
  | .dragUpdate dividerIndex delta => pane.onDividerDelta s dividerIndex delta
  | .dragEnd => .ok (endDividerDrag s)
  | .dragCancel => .ok (endDividerDrag s)
  | .arrowKey dividerIndex forward isShifted => pane.onDividerDelta s dividerIndex (keyDelta forward isShifted)

def SplitEvent.delta? : SplitEvent → Option (ℕ × ℚ)
  | .dragUpdate dividerIndex delta => some (dividerIndex, delta)
  | .arrowKey dividerIndex forward isShifted => some (dividerIndex, keyDelta forward isShifted)
  | _ => none

/-! ## What a drag should keep -/

namespace GbmSplitPane

variable (pane : GbmSplitPane)

/-- The panes on both sides of a divider as they are drawn, the fixed one first; shares of the space are not
rounded. -/
def paneSizes (s : SplitState) (dividerIndex : ℕ) : Option (ℚ × ℚ) :=
  match pane.mode with
  | .extent _ => do
    let extent ← s.currentFlexes[0]?
    let fixed ← (pane.clampedFixedExtent s extent).toOption
    return (fixed, s.availableExtent - dividerWidth - fixed)
  | .flex flexRatio => do
    let flex0 ← s.currentFlexes[dividerIndex]?
    let flex1 ← s.currentFlexes[dividerIndex + 1]?
    return (flex0 * pixelsPerFlexUnit s flexRatio, flex1 * pixelsPerFlexUnit s flexRatio)

/-- Neither pane is below the minimum where both can have it, except one that is put away. -/
def KeepsMinimum (s : SplitState) (dividerIndex : ℕ) : Prop :=
  ∀ size0 size1, pane.paneSizes s dividerIndex = some (size0, size1) → 2 * pane.minExtent ≤ size0 + size1 →
    (pane.minExtent ≤ size0 ∨ (∃ defaultExtent, pane.mode = .extent defaultExtent) ∧ s.currentFlexes = [0]) ∧
      pane.minExtent ≤ size1

/-- One extent, or positive weights. -/
def Proper (s : SplitState) : Prop :=
  match pane.mode with
  | .extent _ => s.currentFlexes.length = 1
  | .flex _ => ∀ flex ∈ s.currentFlexes, 0 < flex

/-- What a step should do: no error, weights that stay positive with their sum, and no pane crushed. -/
def StepsWell (s : SplitState) (event : SplitEvent) : Prop :=
  ∃ s', step pane s event = .ok s' ∧ pane.Proper s' ∧
    (∀ flexRatio, pane.mode = .flex flexRatio → s'.currentFlexes.sum = s.currentFlexes.sum) ∧
    ∀ dividerIndex delta, event.delta? = some (dividerIndex, delta) → pane.KeepsMinimum s' dividerIndex

/-- Twice the minimum fits. While a pane that can be put away is dragged once the minimum is enough, if the
pointer is past half of the minimum or the space ends before it is one and a half. -/
def ExtentFits (s : SplitState) (deltaPixels : ℚ) : Prop :=
  2 * pane.minExtent ≤ s.availableExtent ∨
    pane.collapsedByDefault = true ∧ pane.minExtent ≤ s.availableExtent ∧
      ∃ raw, s.dragRawExtent = some raw ∧ (raw + pane.adjustedDelta deltaPixels < pane.minExtent / 2 ∨
        s.availableExtent - pane.minExtent < pane.minExtent / 2)

/-- The two panes have more than the minimum together. -/
def FlexFits (s : SplitState) (flexRatio : List ℚ) (dividerIndex : ℕ) : Prop :=
  ∃ flex0 flex1, s.currentFlexes[dividerIndex]? = some flex0 ∧ s.currentFlexes[dividerIndex + 1]? = some flex1 ∧
    pane.minExtent < (flex0 + flex1) * pixelsPerFlexUnit s flexRatio

def Fits (s : SplitState) (event : SplitEvent) : Prop :=
  ∀ dividerIndex delta, event.delta? = some (dividerIndex, delta) →
    match pane.mode with
    | .extent _ => pane.ExtentFits s delta
    | .flex flexRatio => pane.FlexFits s flexRatio dividerIndex

end GbmSplitPane

/-! ## Clamps -/

section Clamps

variable {x lower upper : ℚ}

theorem clamp_of_le (h : lower ≤ upper) : clamp x lower upper = .ok (max lower (min x upper)) := by
  rw [clamp, if_neg (not_lt.mpr h)]
  split
  next hLow => rw [min_eq_left (hLow.le.trans h), max_eq_left hLow.le]
  next hLow =>
    split
    next hHigh => rw [min_eq_right hHigh.le, max_eq_right h]
    next hHigh => rw [min_eq_left (not_lt.mp hHigh), max_eq_right (not_lt.mp hLow)]

theorem clamp_of_lt (h : upper < lower) : clamp x lower upper = .error .argumentError := if_pos h

theorem clampedFixedExtent_eq (pane : GbmSplitPane) (s : SplitState) (extent : ℚ) :
    pane.clampedFixedExtent s extent =
      .ok (max 0 (min extent (max 0 (s.availableExtent - dividerWidth - pane.minExtent)))) :=
  clamp_of_le (le_max_left _ _)

end Clamps

/-! ## Weights -/

section Weights

variable {flex0 flex1 perUnit minPixels flexDelta : ℚ}

theorem appliedDelta_of_pos (hPos : 0 < perUnit) : appliedDelta flex0 flex1 perUnit minPixels flexDelta =
    if flex1 - flexDelta < minPixels / perUnit then flex1 - minPixels / perUnit
    else if flex0 + flexDelta < minPixels / perUnit then minPixels / perUnit - flex0 else flexDelta := by
  simp only [appliedDelta, lt_div_iff₀ hPos]

theorem appliedDelta_of_neg (hNeg : perUnit < 0) : appliedDelta flex0 flex1 perUnit minPixels flexDelta =
    if minPixels / perUnit < flex1 - flexDelta then flex1 - minPixels / perUnit
    else if minPixels / perUnit < flex0 + flexDelta then minPixels / perUnit - flex0 else flexDelta := by
  simp only [appliedDelta, div_lt_iff_of_neg hNeg]

/-- Where the two panes have more than the minimum together, both keep a positive weight; elsewhere one of
them loses it. -/
theorem appliedDelta_pos_iff (hUnit : perUnit ≠ 0) (hMin : 0 < minPixels) (h0 : 0 < flex0) (h1 : 0 < flex1) :
    (0 < flex0 + appliedDelta flex0 flex1 perUnit minPixels flexDelta ∧
      0 < flex1 - appliedDelta flex0 flex1 perUnit minPixels flexDelta) ↔
      minPixels < (flex0 + flex1) * perUnit := by
  obtain hNeg | hPos := lt_or_gt_of_ne hUnit
  · have hLess : minPixels / perUnit < 0 := div_neg_of_pos_of_neg hMin hNeg
    have hOver : (flex0 + flex1) * perUnit < 0 := mul_neg_of_pos_of_neg (add_pos h0 h1) hNeg
    rw [appliedDelta_of_neg hNeg]
    refine iff_of_false (fun hBoth => ?_) (by linarith)
    obtain ⟨hLeft, hRight⟩ := hBoth
    split at hRight
    next => linarith
    next hKept1 =>
      rw [if_neg hKept1] at hLeft
      split at hLeft <;> linarith
  · have hLess : 0 < minPixels / perUnit := div_pos hMin hPos
    rw [appliedDelta_of_pos hPos, ← div_lt_iff₀ hPos]
    split
    next =>
      constructor
      · rintro ⟨hLeft, -⟩
        linarith
      · intro hMore
        constructor <;> linarith
    next hKept1 =>
      split
      next =>
        constructor
        · rintro ⟨-, hRight⟩
          linarith
        · intro hMore
          constructor <;> linarith
      next hKept0 =>
        constructor
        · intro _
          linarith
        · intro _
          constructor <;> linarith

/-- Where both panes can have the minimum, both have it. -/
theorem appliedDelta_min (hPos : 0 < perUnit) (hRoom : 2 * minPixels ≤ (flex0 + flex1) * perUnit) :
    minPixels ≤ (flex0 + appliedDelta flex0 flex1 perUnit minPixels flexDelta) * perUnit ∧
      minPixels ≤ (flex1 - appliedDelta flex0 flex1 perUnit minPixels flexDelta) * perUnit := by
  have hTwo : 2 * (minPixels / perUnit) ≤ flex0 + flex1 := by
    rw [← mul_div_assoc, div_le_iff₀ hPos]
    exact hRoom
  rw [appliedDelta_of_pos hPos, ← div_le_iff₀ hPos, ← div_le_iff₀ hPos]
  split
  next => constructor <;> linarith
  next hKept1 =>
    split
    next => constructor <;> linarith
    next hKept0 => constructor <;> linarith

theorem exists_pair {flexes : List ℚ} {i : ℕ} (h0 : flexes[i]? = some flex0) (h1 : flexes[i + 1]? = some flex1) :
    ∃ front back, flexes = front ++ flex0 :: flex1 :: back ∧ front.length = i := by
  obtain ⟨hLess0, rfl⟩ := List.getElem?_eq_some_iff.mp h0
  obtain ⟨hLess1, rfl⟩ := List.getElem?_eq_some_iff.mp h1
  refine ⟨flexes.take i, flexes.drop (i + 2), ?_, List.length_take_of_le hLess0.le⟩
  rw [List.getElem_cons_drop, List.getElem_cons_drop, List.take_append_drop]

theorem set_pair (front back : List ℚ) (flex0 flex1 a b : ℚ) :
    ((front ++ flex0 :: flex1 :: back).set front.length a).set (front.length + 1) b = front ++ a :: b :: back := by
  rw [List.set_append_right _ _ (Nat.le_refl _), Nat.sub_self, List.set_cons_zero,
    List.set_append_right _ _ (Nat.le_add_right _ 1), Nat.add_sub_cancel_left, List.set_cons_succ, List.set_cons_zero]

theorem sum_pair (front back : List ℚ) (flex0 flex1 applied : ℚ) :
    (front ++ (flex0 + applied) :: (flex1 - applied) :: back).sum = (front ++ flex0 :: flex1 :: back).sum := by
  simp only [List.sum_append, List.sum_cons]
  ring

theorem getElem?_pair (front back : List ℚ) (a b : ℚ) :
    (front ++ a :: b :: back)[front.length]? = some a ∧ (front ++ a :: b :: back)[front.length + 1]? = some b := by
  constructor
  · rw [List.getElem?_append_right (Nat.le_refl _), Nat.sub_self, List.getElem?_cons_zero]
  · rw [List.getElem?_append_right (Nat.le_add_right _ 1), Nat.add_sub_cancel_left, List.getElem?_cons_succ,
      List.getElem?_cons_zero]

theorem sum_pos_of_pair {front back : List ℚ} (h : ∀ flex ∈ front ++ flex0 :: flex1 :: back, 0 < flex) :
    0 < (front ++ flex0 :: flex1 :: back).sum := by
  refine List.sum_pos _ h fun hNil => ?_
  exact List.cons_ne_nil _ _ (List.append_eq_nil_iff.mp hNil).2

end Weights

namespace GbmSplitPane

variable {pane : GbmSplitPane} {s s' : SplitState} {deltaPixels : ℚ}

section Flex

variable {flexRatio : List ℚ} {dividerIndex : ℕ} {flex0 flex1 : ℚ}

theorem moveFlex_eq (pane : GbmSplitPane) {front back : List ℚ} (deltaPixels : ℚ)
    (hFlexes : s.currentFlexes = front ++ flex0 :: flex1 :: back)
    (hSum : s.currentFlexes.sum ≠ 0) (hUnit : pixelsPerFlexUnit s flexRatio ≠ 0) :
    ∃ applied, applied = appliedDelta flex0 flex1 (pixelsPerFlexUnit s flexRatio) pane.minExtent
        (deltaPixels / pixelsPerFlexUnit s flexRatio) ∧
      pane.moveFlex s flexRatio front.length flex0 flex1 deltaPixels =
        .ok { s with currentFlexes := front ++ (flex0 + applied) :: (flex1 - applied) :: back } := by
  refine ⟨_, rfl, ?_⟩
  rw [moveFlex, if_neg (not_or.mpr ⟨hSum, hUnit⟩), hFlexes]
  simp only [set_pair]

theorem paneSizes_flex (hMode : pane.mode = .flex flexRatio) {front back : List ℚ} {a b size0 size1 : ℚ}
    (hFlexes : s.currentFlexes = front ++ a :: b :: back)
    (h : pane.paneSizes s front.length = some (size0, size1)) :
    a * pixelsPerFlexUnit s flexRatio = size0 ∧ b * pixelsPerFlexUnit s flexRatio = size1 := by
  obtain ⟨hFirst, hSecond⟩ := getElem?_pair front back a b
  rw [paneSizes, hMode] at h
  simp only [hFlexes, hFirst, hSecond] at h
  exact Prod.mk.inj (Option.some.inj h)

/-- New weights for the two panes are proper and keep the sum; where there is room for two minimum panes, the
weights that a drag comes to keep both of them. -/
theorem moveFlex_keeps (hMode : pane.mode = .flex flexRatio) {front back : List ℚ}
    (hFlexes : s.currentFlexes = front ++ flex0 :: flex1 :: back) (hProper : ∀ flex ∈ s.currentFlexes, 0 < flex)
    {applied flexDelta : ℚ}
    (hApplied : applied =
      appliedDelta flex0 flex1 (pixelsPerFlexUnit s flexRatio) pane.minExtent flexDelta)
    (hLeft : 0 < flex0 + applied) (hRight : 0 < flex1 - applied)
    (hFlexes' : s' = { s with currentFlexes := front ++ (flex0 + applied) :: (flex1 - applied) :: back }) :
    pane.Proper s' ∧ s'.currentFlexes.sum = s.currentFlexes.sum ∧ pane.KeepsMinimum s' front.length := by
  have hSame : (front ++ (flex0 + applied) :: (flex1 - applied) :: back).sum = s.currentFlexes.sum := by
    rw [sum_pair, hFlexes]
  rw [hFlexes, List.forall_mem_append, List.forall_mem_cons, List.forall_mem_cons] at hProper
  obtain ⟨hFront, hPos0, hPos1, hBack⟩ := hProper
  subst hFlexes'
  refine ⟨?_, hSame, fun size0 size1 hSizes hRoom => ?_⟩
  · rw [Proper, hMode]
    dsimp only
    rw [List.forall_mem_append, List.forall_mem_cons, List.forall_mem_cons]
    exact ⟨hFront, hLeft, hRight, hBack⟩
  · obtain ⟨rfl, rfl⟩ := paneSizes_flex hMode rfl hSizes
    have hUnits : pixelsPerFlexUnit { s with currentFlexes :=
        front ++ (flex0 + applied) :: (flex1 - applied) :: back } flexRatio = pixelsPerFlexUnit s flexRatio := by
      rw [pixelsPerFlexUnit, hSame, pixelsPerFlexUnit]
    rw [hUnits, ← add_mul, add_add_sub_cancel] at hRoom
    have hUnitPos : 0 < pixelsPerFlexUnit s flexRatio := by
      refine pos_of_mul_pos_right ?_ (add_pos hPos0 hPos1).le
      linarith [pane.minExtent_pos]
    obtain ⟨hMin0, hMin1⟩ := appliedDelta_min hUnitPos hRoom
    rw [hUnits, hApplied]
    exact ⟨.inl hMin0, hMin1⟩

theorem moveFlex_iff (hMode : pane.mode = .flex flexRatio) (hProper : ∀ flex ∈ s.currentFlexes, 0 < flex)
    (h0 : s.currentFlexes[dividerIndex]? = some flex0) (h1 : s.currentFlexes[dividerIndex + 1]? = some flex1) :
    (∃ s', pane.moveFlex s flexRatio dividerIndex flex0 flex1 deltaPixels = .ok s' ∧ pane.Proper s' ∧
      s'.currentFlexes.sum = s.currentFlexes.sum ∧ pane.KeepsMinimum s' dividerIndex) ↔
      pane.minExtent < (flex0 + flex1) * pixelsPerFlexUnit s flexRatio := by
  obtain ⟨front, back, hFlexes, rfl⟩ := exists_pair h0 h1
  have hSum : 0 < s.currentFlexes.sum := by
    rw [hFlexes] at hProper ⊢
    exact sum_pos_of_pair hProper
  have hPos0 : 0 < flex0 := hProper flex0 (List.mem_of_getElem? h0)
  have hPos1 : 0 < flex1 := hProper flex1 (List.mem_of_getElem? h1)
  by_cases hUnit : pixelsPerFlexUnit s flexRatio = 0
  · refine iff_of_false ?_ ?_
    · rintro ⟨s', hMove, -⟩
      rw [moveFlex, if_pos (.inr hUnit)] at hMove
      cases hMove
    · rw [hUnit, mul_zero]
      exact pane.minExtent_pos.not_gt
  · obtain ⟨applied, hApplied, hEq⟩ := moveFlex_eq pane deltaPixels hFlexes hSum.ne' hUnit
    rw [hEq, ← appliedDelta_pos_iff hUnit pane.minExtent_pos hPos0 hPos1, ← hApplied]
    constructor
    · rintro ⟨s', hMove, hProper', -⟩
      obtain rfl := Except.ok.inj hMove
      rw [Proper, hMode] at hProper'
      refine ⟨hProper' _ ?_, hProper' _ ?_⟩
      · exact List.mem_append_right _ List.mem_cons_self
      · exact List.mem_append_right _ (List.mem_cons_of_mem _ List.mem_cons_self)
    · rintro ⟨hLeft, hRight⟩
      exact ⟨_, rfl, moveFlex_keeps hMode hFlexes hProper hApplied hLeft hRight rfl⟩

end Flex

section Extent

variable {extent raw newExtent : ℚ}

theorem moveExtent_eq_ok_iff : pane.moveExtent s extent deltaPixels = .ok s' ↔
    ∃ raw newExtent, pane.rawExtent s extent deltaPixels = .ok raw ∧ pane.newExtent s raw = .ok newExtent ∧
      s' = { s with currentFlexes := s.currentFlexes.set 0 newExtent
                    dragRawExtent := s.dragRawExtent.map fun _ => raw } := by
  rw [moveExtent]
  cases hRaw : pane.rawExtent s extent deltaPixels with
  | error e =>
    refine iff_of_false (fun hOk => by cases hOk) ?_
    rintro ⟨raw, newExtent, hOk, -⟩
    cases hOk
  | ok raw =>
    cases hNew : pane.newExtent s raw with
    | error e =>
      refine iff_of_false (fun hOk => ?_) ?_
      · simp only [bind, Except.bind, hNew] at hOk
        cases hOk
      · rintro ⟨raw', newExtent, hOk, hNew', -⟩
        obtain rfl := Except.ok.inj hOk
        rw [hNew] at hNew'
        cases hNew'
    | ok newExtent =>
      simp only [bind, Except.bind, hNew]
      constructor
      · intro hOk
        exact ⟨raw, newExtent, rfl, hNew, (Except.ok.inj hOk).symm⟩
      · rintro ⟨raw', newExtent', hOk, hNew', rfl⟩
        obtain rfl := Except.ok.inj hOk
        obtain rfl := Except.ok.inj (hNew.symm.trans hNew')
        rfl

/-- An extent is either that of a pane put away or within the bounds. -/
theorem newExtent_bounds (h : pane.newExtent s raw = .ok newExtent) :
    newExtent = 0 ∨ pane.minExtent ≤ newExtent := by
  rw [GbmSplitPane.newExtent] at h
  split at h
  next => exact .inl (Except.ok.inj h).symm
  next =>
    refine .inr ?_
    obtain hOrder | hOrder := le_or_gt pane.minExtent (s.availableExtent - pane.minExtent)
    · rw [clamp_of_le hOrder] at h
      rw [← Except.ok.inj h]
      exact le_max_left _ _
    · rw [clamp_of_lt hOrder] at h
      cases h

theorem exists_newExtent_iff : (∃ newExtent, pane.newExtent s raw = .ok newExtent) ↔
    2 * pane.minExtent ≤ s.availableExtent ∨
      pane.collapsedByDefault = true ∧ s.dragRawExtent.isSome = true ∧ raw < pane.minExtent / 2 := by
  rw [GbmSplitPane.newExtent]
  split
  next hShut =>
    rw [Bool.and_eq_true, Bool.and_eq_true, decide_eq_true_eq, and_assoc] at hShut
    exact iff_of_true ⟨0, rfl⟩ (.inr hShut)
  next hShut =>
    rw [Bool.and_eq_true, Bool.and_eq_true, decide_eq_true_eq, and_assoc] at hShut
    rw [or_iff_left hShut]
    obtain hOrder | hOrder := le_or_gt pane.minExtent (s.availableExtent - pane.minExtent)
    · rw [clamp_of_le hOrder]
      exact iff_of_true ⟨_, rfl⟩ (by linarith)
    · rw [clamp_of_lt hOrder]
      refine iff_of_false ?_ (by linarith)
      rintro ⟨newExtent, hOk⟩
      cases hOk

theorem exists_moveExtent_iff : (∃ s', pane.moveExtent s extent deltaPixels = .ok s') ↔
    pane.ExtentFits s deltaPixels := by
  have hMin := pane.minExtent_pos
  have hSplit : (∃ s', pane.moveExtent s extent deltaPixels = .ok s') ↔
      ∃ raw, pane.rawExtent s extent deltaPixels = .ok raw ∧ ∃ newExtent, pane.newExtent s raw = .ok newExtent := by
    simp only [moveExtent_eq_ok_iff]
    constructor
    · rintro ⟨s', raw, newExtent, hRaw, hNew, -⟩
      exact ⟨raw, hRaw, newExtent, hNew⟩
    · rintro ⟨raw, hRaw, newExtent, hNew⟩
      exact ⟨_, raw, newExtent, hRaw, hNew, rfl⟩
  rw [hSplit]
  simp only [exists_newExtent_iff, ExtentFits, GbmSplitPane.rawExtent]
  cases hDrag : s.dragRawExtent with
  | none => simp
  | some pointer =>
    cases pane.collapsedByDefault with
    | false =>
      obtain hOrder | hOrder := le_or_gt pane.minExtent (s.availableExtent - pane.minExtent)
      · have hRoom : 2 * pane.minExtent ≤ s.availableExtent := by linarith
        simp only [Bool.false_eq_true, if_false, clamp_of_le hOrder]
        exact iff_of_true ⟨_, rfl, .inl hRoom⟩ (.inl hRoom)
      · have hNarrow : ¬ 2 * pane.minExtent ≤ s.availableExtent := by linarith
        simp [clamp_of_lt hOrder, hNarrow]
    | true =>
      obtain hOrder | hOrder := le_or_gt 0 (s.availableExtent - pane.minExtent)
      · have hOne : pane.minExtent ≤ s.availableExtent := by linarith
        have hHalf : 0 < pane.minExtent / 2 := by linarith
        simp [clamp_of_le hOrder, hOne, hHalf]
      · have hNarrow : ¬ 2 * pane.minExtent ≤ s.availableExtent := by linarith
        have hLess : ¬ pane.minExtent ≤ s.availableExtent := by linarith
        simp [clamp_of_lt hOrder, hNarrow, hLess]

theorem paneSizes_extent {defaultExtent size0 size1 : ℚ} (hMode : pane.mode = .extent defaultExtent)
    (hFlexes : s.currentFlexes = [extent]) {dividerIndex : ℕ}
    (h : pane.paneSizes s dividerIndex = some (size0, size1)) :
    max 0 (min extent (max 0 (s.availableExtent - dividerWidth - pane.minExtent))) = size0 ∧
      s.availableExtent - dividerWidth - size0 = size1 := by
  rw [paneSizes, hMode] at h
  simp only [hFlexes, List.getElem?_cons_zero, clampedFixedExtent_eq] at h
  obtain ⟨rfl, rfl⟩ := Prod.mk.inj (Option.some.inj h)
  exact ⟨rfl, rfl⟩

theorem moveExtent_iff {defaultExtent : ℚ} (hMode : pane.mode = .extent defaultExtent)
    (hFlexes : s.currentFlexes = [extent]) (dividerIndex : ℕ) :
    (∃ s', pane.moveExtent s extent deltaPixels = .ok s' ∧ pane.Proper s' ∧ pane.KeepsMinimum s' dividerIndex) ↔
      pane.ExtentFits s deltaPixels := by
  rw [← exists_moveExtent_iff]
  refine exists_congr fun s' => and_iff_left_of_imp fun hMove => ?_
  obtain ⟨raw, newExtent, -, hNew, rfl⟩ := moveExtent_eq_ok_iff.mp hMove
  have hFlexes' : s.currentFlexes.set 0 newExtent = [newExtent] := by rw [hFlexes, List.set_cons_zero]
  refine ⟨?_, fun size0 size1 hSizes hRoom => ?_⟩
  · rw [Proper, hMode]
    exact congrArg List.length hFlexes'
  · obtain ⟨hSize0, hSize1⟩ := paneSizes_extent hMode hFlexes' hSizes
    have hMin := pane.minExtent_pos
    have hMost : pane.minExtent ≤ s.availableExtent - dividerWidth - pane.minExtent := by linarith
    have hBound : size0 = max 0 (min newExtent (s.availableExtent - dividerWidth - pane.minExtent)) := by
      rw [← hSize0, max_eq_right (hMin.le.trans hMost)]
    obtain rfl | hKept := newExtent_bounds hNew
    · have hZero : size0 = 0 := by rw [hBound, min_eq_left (hMin.le.trans hMost), max_self]
      exact ⟨.inr ⟨⟨defaultExtent, hMode⟩, hFlexes'⟩, by linarith⟩
    · have hLeft : pane.minExtent ≤ size0 := by
        rw [hBound]
        exact le_max_of_le_right (le_min hKept hMost)
      have hRight : size0 ≤ s.availableExtent - dividerWidth - pane.minExtent := by
        rw [hBound]
        exact max_le (hMin.le.trans hMost) (min_le_right _ _)
      exact ⟨.inl hLeft, by linarith⟩

end Extent

/-! ## Steps and runs -/

section Runs

variable {event : SplitEvent} {dividerIndex : ℕ} {delta : ℚ}

theorem step_of_delta (h : event.delta? = some (dividerIndex, delta)) :
    step pane s event = pane.onDividerDelta s dividerIndex delta := by
  cases event with
  | dragUpdate i d =>
    obtain ⟨rfl, rfl⟩ := Prod.mk.inj (Option.some.inj h)
    rfl
  | arrowKey i forward isShifted =>
    obtain ⟨rfl, rfl⟩ := Prod.mk.inj (Option.some.inj h)
    rfl
  | _ => cases h

/-- What moves no divider changes no size. -/
theorem step_of_none (pane : GbmSplitPane) (s : SplitState) (h : event.delta? = none) :
    ∃ s', step pane s event = .ok s' ∧ s'.currentFlexes = s.currentFlexes := by
  cases event with
  | build availableExtent => exact ⟨_, rfl, rfl⟩
  | dragStart =>
    refine ⟨_, rfl, ?_⟩
    rw [beginDividerDrag]
    split <;> rfl
  | dragEnd => exact ⟨_, rfl, rfl⟩
  | dragCancel => exact ⟨_, rfl, rfl⟩
  | _ => cases h

theorem Proper.congr (h : pane.Proper s) (hFlexes : s'.currentFlexes = s.currentFlexes) : pane.Proper s' := by
  rw [Proper, hFlexes]
  exact h

/-- Only one divider moves at a step. -/
theorem forall_delta_iff (h : event.delta? = some (dividerIndex, delta)) {p : ℕ → ℚ → Prop} :
    (∀ i d, event.delta? = some (i, d) → p i d) ↔ p dividerIndex delta := by
  rw [h]
  constructor
  · intro hAll
    exact hAll dividerIndex delta rfl
  · intro hHere i d hSame
    obtain ⟨rfl, rfl⟩ := Prod.mk.inj (Option.some.inj hSame)
    exact hHere

theorem stepsWell_extent_iff {defaultExtent : ℚ} (hMode : pane.mode = .extent defaultExtent) (h : pane.Proper s)
    (hDelta : event.delta? = some (dividerIndex, delta)) :
    pane.StepsWell s event ↔ pane.ExtentFits s delta := by
  rw [Proper, hMode] at h
  obtain ⟨extent, hFlexes⟩ := List.length_eq_one_iff.mp h
  rw [StepsWell, step_of_delta hDelta, onDividerDelta]
  simp only [forall_delta_iff hDelta, hMode, hFlexes, List.getElem?_cons_zero]
  rw [← moveExtent_iff hMode hFlexes dividerIndex]
  refine exists_congr fun s' => and_congr_right fun _ => and_congr_right fun _ => and_iff_right ?_
  intro flexRatio hFlex
  cases hFlex

theorem stepsWell_flex_iff {flexRatio : List ℚ} (hMode : pane.mode = .flex flexRatio) (h : pane.Proper s)
    (hDelta : event.delta? = some (dividerIndex, delta)) :
    pane.StepsWell s event ↔ pane.FlexFits s flexRatio dividerIndex := by
  rw [Proper, hMode] at h
  rw [StepsWell, FlexFits, step_of_delta hDelta, onDividerDelta]
  simp only [forall_delta_iff hDelta, hMode]
  cases h0 : s.currentFlexes[dividerIndex]? with
  | none =>
    refine iff_of_false ?_ ?_
    · rintro ⟨s', hStep, -⟩
      cases hStep
    · rintro ⟨flex0, flex1, hNone, -⟩
      cases hNone
  | some flex0 =>
    cases h1 : s.currentFlexes[dividerIndex + 1]? with
    | none =>
      refine iff_of_false ?_ ?_
      · rintro ⟨s', hStep, -⟩
        cases hStep
      · rintro ⟨flex0, flex1, -, hNone, -⟩
        cases hNone
    | some flex1 =>
      constructor
      · rintro ⟨s', hMove, hProper, hSum, hKeeps⟩
        exact ⟨flex0, flex1, rfl, rfl,
          (moveFlex_iff hMode h h0 h1).mp ⟨s', hMove, hProper, hSum flexRatio rfl, hKeeps⟩⟩
      · rintro ⟨flex0', flex1', hSame0, hSame1, hMore⟩
        obtain rfl := Option.some.inj hSame0
        obtain rfl := Option.some.inj hSame1
        obtain ⟨s', hMove, hProper, hSum, hKeeps⟩ := (moveFlex_iff hMode h h0 h1).mpr hMore
        exact ⟨s', hMove, hProper, fun _ _ => hSum, hKeeps⟩

/-- A step goes well if and only if it fits. -/
theorem stepsWell_iff (h : pane.Proper s) (event : SplitEvent) : pane.StepsWell s event ↔ pane.Fits s event := by
  cases hDelta : event.delta? with
  | none =>
    obtain ⟨s', hStep, hFlexes⟩ := step_of_none pane s hDelta
    refine iff_of_true ⟨s', hStep, h.congr hFlexes, fun _ _ => by rw [hFlexes], fun i d hSome => ?_⟩ fun i d hSome => ?_
    · rw [hDelta] at hSome
      cases hSome
    · rw [hDelta] at hSome
      cases hSome
  | some moved =>
    obtain ⟨i, d⟩ := moved
    rw [Fits, forall_delta_iff hDelta]
    cases hMode : pane.mode with
    | extent defaultExtent => exact stepsWell_extent_iff hMode h hDelta
    | flex flexRatio => exact stepsWell_flex_iff hMode h hDelta

/-- As long as every step fits, the state is proper and the weights keep their sum. -/
theorem run_proper {start : SplitState} {events : List SplitEvent} (hStart : pane.Proper start)
    (hRun : Library.Run (fun s event => (step pane s event).toOption) pane.Fits start events s) :
    pane.Proper s ∧
      ∀ flexRatio, pane.mode = .flex flexRatio → s.currentFlexes.sum = start.currentFlexes.sum := by
  refine hRun.invariant (P := fun m => pane.Proper m ∧
    ∀ flexRatio, pane.mode = .flex flexRatio → m.currentFlexes.sum = start.currentFlexes.sum)
    ⟨hStart, fun _ _ => rfl⟩ fun m event m' ⟨hProper, hSum⟩ hFits hStep => ?_
  obtain ⟨s', hOk, hProper', hSum', -⟩ := (stepsWell_iff hProper event).mpr hFits
  rw [hOk] at hStep
  obtain rfl := Option.some.inj hStep
  exact ⟨hProper', fun flexRatio hMode => (hSum' flexRatio hMode).trans (hSum flexRatio hMode)⟩

theorem initState_proper {stored : Option (List ℚ)}
    (hRatio : ∀ flexRatio, pane.mode = .flex flexRatio → ∀ flex ∈ flexRatio, 0 < flex)
    (hStored : ∀ flexes ∈ stored, ∀ flex ∈ flexes, 0 < flex) : pane.Proper (pane.initState stored) := by
  rw [Proper, initState]
  cases hMode : pane.mode with
  | extent defaultExtent =>
    simp only
    split
    next => rfl
    next => split <;> rfl
  | flex flexRatio =>
    cases stored with
    | none => exact hRatio flexRatio hMode
    | some flexes =>
      simp only
      split
      next => exact hStored flexes rfl
      next => exact hRatio flexRatio hMode

end Runs

end GbmSplitPane

/-- In a session whose steps all fit, the weights stay positive with their sum, and in each state that it
reaches the next step raises no error and crushes no pane if and only if it fits too. -/
theorem drag_keeps_panes_iff (pane : GbmSplitPane) {start s : SplitState} {events : List SplitEvent}
    (hStart : pane.Proper start)
    (hRun : Library.Run (fun s event => (step pane s event).toOption) pane.Fits start events s) :
    pane.Proper s ∧
      (∀ flexRatio, pane.mode = .flex flexRatio → s.currentFlexes.sum = start.currentFlexes.sum) ∧
      ∀ event, pane.StepsWell s event ↔ pane.Fits s event := by
  obtain ⟨hProper, hSum⟩ := GbmSplitPane.run_proper hStart hRun
  exact ⟨hProper, hSum, GbmSplitPane.stepsWell_iff hProper⟩

/-- `splitterMainSidebar` -/
def mainSidebar : GbmSplitPane := { mode := .extent 250, minExtent := 180 }

/-- `splitterWcDiffSides` -/
def wcDiffSides : GbmSplitPane := { mode := .flex [1, 1], minExtent := 140 }

/-- A narrow window makes a drag throw, and takes the weight of a pane below zero. -/
theorem narrow_window_throws :
    [.build 300, .dragStart, .dragUpdate 0 1].foldlM (step mainSidebar) (mainSidebar.initState none) =
        .error .argumentError ∧
      [.build 125, .dragUpdate 0 1].foldlM (step wcDiffSides) (wcDiffSides.initState none) =
        .ok { currentFlexes := [-1 / 3, 7 / 3], availableExtent := 125 } := by
  constructor
  · decide +kernel
  · decide +kernel

theorem drag_keeps_panes_iff_mainSidebar :
    mainSidebar.StepsWell { mainSidebar.initState none with availableExtent := 600 } (.dragUpdate 0 1) := by
  have hStart : mainSidebar.Proper (mainSidebar.initState none) :=
    GbmSplitPane.initState_proper (fun _ hMode => by cases hMode) fun _ hNone => by cases hNone
  have hRun : Library.Run (fun s event => (step mainSidebar s event).toOption) mainSidebar.Fits
      (mainSidebar.initState none) [.build 600] { mainSidebar.initState none with availableExtent := 600 } :=
    .next (.start _) (fun _ _ hDelta => by cases hDelta) rfl
  refine ((drag_keeps_panes_iff mainSidebar hStart hRun).2.2 (.dragUpdate 0 1)).mpr fun i d hDelta => .inl ?_
  norm_num [mainSidebar]

end SplitPane

end GitBranchManager
