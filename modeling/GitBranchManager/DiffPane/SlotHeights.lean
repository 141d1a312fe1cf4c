import Mathlib.Algebra.BigOperators.Group.Finset.Basic
import Mathlib.Data.Rat.Defs
import Mathlib.Algebra.Order.Ring.Rat
import Mathlib.Data.List.Induction
import Mathlib.Tactic.Linarith
import Mathlib.Tactic.NormNum
import Mathlib.Tactic.Ring
import GitBranchManager.Library.Scans

/-! # Slot heights of synced columns

Each segment has a slot that is as tall as its tallest column. The shorter columns pad the rest: first so that
the code of all columns starts level, then at the end.
-/

namespace GitBranchManager.SyncScroll

/-- The height of each column in each segment, and how far down its code starts, if it has any. -/
structure SyncSlotHeights where
  columns : Nat
  segments : Nat
  own : List ℚ
  lead : List (Option ℚ)
  tops : Option (List ℚ) := none
  prefixBuilds : Nat := 0

namespace SyncSlotHeights

/-- The table that the two loops of the factory fill. -/
def table {α : Type*} (columns segments : Nat) (entry : Nat → Nat → α) : List α :=
  (List.range columns).flatMap fun c => (List.range segments).map (entry c)

def forSegments (columns segments : Nat) (estimate : Nat → Nat → ℚ) (estimateLead : Nat → Nat → Option ℚ) :
    SyncSlotHeights :=
  { columns, segments, own := table columns segments estimate, lead := table columns segments estimateLead }

variable (h : SyncSlotHeights)

def ownAt (column segment : Nat) : ℚ := h.own.getD (column * h.segments + segment) 0

def leadAt (column segment : Nat) : Option ℚ := h.lead.getD (column * h.segments + segment) none

def report (column segment : Nat) (height : ℚ) (lead : Option ℚ) : SyncSlotHeights :=
  if h.ownAt column segment = height ∧ h.leadAt column segment = lead then h
  else
    { h with
      own := h.own.set (column * h.segments + segment) height
      lead := h.lead.set (column * h.segments + segment) lead
      tops := none }

/-- One column of the loop for the lowest start of code. -/
def lower (m v : Option ℚ) : Option ℚ :=
  match v, m with
  | none, m => m
  | some v, none => some v
  | some v, some m => if v > m then some v else some m

def leadMax (segment : Nat) : Option ℚ :=
  (List.range h.columns).foldl (fun m c => lower m (h.leadAt c segment)) none

def topPad (column segment : Nat) : ℚ :=
  match h.leadAt column segment with
  | none => 0
  | some own => (h.leadMax segment).getD 0 - own

/-- A column's height with the padding before its code. -/
def padded (column segment : Nat) : ℚ :=
  h.ownAt column segment +
    match h.leadAt column segment, h.leadMax segment with
    | some own, some lead => lead - own
    | _, _ => 0

def slotHeight (segment : Nat) : ℚ :=
  (List.range h.columns).foldl (fun best c => if h.padded c segment > best then h.padded c segment else best) 0

def spacerHeight (column segment : Nat) : ℚ :=
  h.slotHeight segment - h.topPad column segment - h.ownAt column segment

/-- The tops of all slots, and the bottom of the last. -/
def buildTops : List ℚ :=
  (List.range h.segments).foldl (fun tops k => tops.set (k + 1) (tops.getD k 0 + h.slotHeight k))
    (List.replicate (h.segments + 1) 0)

/-- The tops are built by the first read after a change. -/
def prefixTops : List ℚ × SyncSlotHeights :=
  match h.tops with
  | some cached => (cached, h)
  | none => (h.buildTops, { h with tops := some h.buildTops, prefixBuilds := h.prefixBuilds + 1 })

def offsetOf (segment : Nat) : ℚ × SyncSlotHeights :=
  (h.prefixTops.1.getD segment 0, h.prefixTops.2)

def totalHeight : ℚ × SyncSlotHeights :=
  (h.prefixTops.1.getD h.segments 0, h.prefixTops.2)

def toOffset (segment : Nat) (within : ℚ) : ℚ × SyncSlotHeights :=
  (h.prefixTops.1.getD segment 0 + within, h.prefixTops.2)

/-- The segment whose slot an offset is in, and how far into it. -/
def locate (offset : ℚ) : (Nat × ℚ) × SyncSlotHeights :=
  let tops := h.prefixTops.1
  if offset ≤ 0 then ((0, 0), h.prefixTops.2)
  else
    let segment := Bisect.lastWhere (fun mid => tops.getD mid 0 ≤ offset) 0 (h.segments - 1)
    let within := offset - tops.getD segment 0
    let slot := tops.getD (segment + 1) 0 - tops.getD segment 0
    ((segment, if within > slot then slot else within), h.prefixTops.2)

/-! ## The lowest start of code and the tallest column -/

section Largest

variable {h} {column segment : Nat}

theorem le_lower_left (m : ℚ) (v : Option ℚ) : ∃ low, lower (some m) v = some low ∧ m ≤ low := by
  match v with
  | none => exact ⟨m, rfl, le_rfl⟩
  | some v =>
    dsimp only [lower]
    split
    next hMore => exact ⟨v, rfl, hMore.le⟩
    next => exact ⟨m, rfl, le_rfl⟩

theorem le_lower_right (m : Option ℚ) (v : ℚ) : ∃ low, lower m (some v) = some low ∧ v ≤ low := by
  match m with
  | none => exact ⟨v, rfl, le_rfl⟩
  | some m =>
    dsimp only [lower]
    split
    next => exact ⟨v, rfl, le_rfl⟩
    next hNot => exact ⟨m, rfl, le_of_not_gt hNot⟩

theorem lower_eq_or (m v : Option ℚ) : lower m v = m ∨ lower m v = v := by
  match v, m with
  | none, _ => exact .inl rfl
  | some v, none => exact .inr rfl
  | some v, some m =>
    dsimp only [lower]
    split
    · exact .inr rfl
    · exact .inl rfl

theorem le_leadMax (hColumn : column < h.columns) {own : ℚ} (hOwn : h.leadAt column segment = some own) :
    ∃ low, h.leadMax segment = some low ∧ own ≤ low := by
  have hFold (cs : List Nat) : column ∈ cs →
      ∃ low, cs.foldl (fun m c => lower m (h.leadAt c segment)) none = some low ∧ own ≤ low := by
    induction cs using List.reverseRecOn with
    | nil => exact nofun
    | append_singleton cs last ih =>
      intro hMem
      rw [List.foldl_append, List.foldl_cons, List.foldl_nil]
      obtain hMem | hMem := List.mem_append.mp hMem
      · obtain ⟨m, hm, hLe⟩ := ih hMem
        obtain ⟨low, hLow, hmLow⟩ := le_lower_left m (h.leadAt last segment)
        exact ⟨low, hm ▸ hLow, hLe.trans hmLow⟩
      · obtain rfl := List.mem_singleton.mp hMem
        rw [hOwn]
        exact le_lower_right _ own
  exact hFold _ (List.mem_range.mpr hColumn)

theorem leadMax_attained {low : ℚ} (hLow : h.leadMax segment = some low) :
    ∃ c < h.columns, h.leadAt c segment = some low := by
  have hFold (cs : List Nat) : cs.foldl (fun m c => lower m (h.leadAt c segment)) none = some low →
      ∃ c ∈ cs, h.leadAt c segment = some low := by
    induction cs using List.reverseRecOn with
    | nil => exact nofun
    | append_singleton cs last ih =>
      intro hEq
      rw [List.foldl_append, List.foldl_cons, List.foldl_nil] at hEq
      obtain hOld | hLast :=
        lower_eq_or (cs.foldl (fun m c => lower m (h.leadAt c segment)) none) (h.leadAt last segment)
      · obtain ⟨c, hc, hLead⟩ := ih (hOld ▸ hEq)
        exact ⟨c, List.mem_append_left _ hc, hLead⟩
      · exact ⟨last, List.mem_append_right _ (List.mem_singleton.mpr rfl), hLast ▸ hEq⟩
  obtain ⟨c, hc, hLead⟩ := hFold _ hLow
  exact ⟨c, List.mem_range.mp hc, hLead⟩

theorem topPad_nonneg (hColumn : column < h.columns) : 0 ≤ h.topPad column segment := by
  rw [topPad]
  split
  next => exact le_rfl
  next own hOwn =>
    obtain ⟨low, hLow, hLe⟩ := le_leadMax hColumn hOwn
    rw [hLow, Option.getD_some]
    exact sub_nonneg.mpr hLe

theorem topPad_add_lead {own : ℚ} (hOwn : h.leadAt column segment = some own) :
    h.topPad column segment + own = (h.leadMax segment).getD 0 := by
  rw [topPad, hOwn]
  exact sub_add_cancel _ _

theorem padded_eq (hColumn : column < h.columns) :
    h.padded column segment = h.ownAt column segment + h.topPad column segment := by
  rw [padded, topPad]
  cases hOwn : h.leadAt column segment with
  | none => rfl
  | some own =>
    obtain ⟨low, hLow, -⟩ := le_leadMax hColumn hOwn
    rw [hLow]
    rfl

theorem slotHeight_le {x : ℚ} : h.slotHeight segment ≤ x ↔ 0 ≤ x ∧ ∀ c < h.columns, h.padded c segment ≤ x := by
  simp only [slotHeight, gt_iff_lt, ← max_def_lt, Library.Scans.foldl_max_le, List.mem_range]

theorem slotHeight_nonneg : 0 ≤ h.slotHeight segment := (slotHeight_le.mp le_rfl).1

theorem spacerHeight_nonneg (hColumn : column < h.columns) : 0 ≤ h.spacerHeight column segment := by
  have hLe := (slotHeight_le.mp (le_refl (h.slotHeight segment))).2 column hColumn
  rw [padded_eq hColumn] at hLe
  rw [spacerHeight]
  linarith

theorem topPad_add_spacerHeight :
    h.topPad column segment + h.ownAt column segment + h.spacerHeight column segment = h.slotHeight segment := by
  rw [spacerHeight]
  ring

end Largest

/-! ## The tops -/

section Tops

variable {h}

theorem getD_buildTops {k : Nat} (hk : k ≤ h.segments) :
    h.buildTops.getD k 0 = ∑ j ∈ Finset.range k, h.slotHeight j := by
  suffices hFold : ∀ n ≤ h.segments,
      ((List.range n).foldl (fun tops k => tops.set (k + 1) (tops.getD k 0 + h.slotHeight k))
        (List.replicate (h.segments + 1) 0)).length = h.segments + 1 ∧
      ∀ k ≤ n, ((List.range n).foldl (fun tops k => tops.set (k + 1) (tops.getD k 0 + h.slotHeight k))
        (List.replicate (h.segments + 1) 0)).getD k 0 = ∑ j ∈ Finset.range k, h.slotHeight j from
    (hFold h.segments le_rfl).2 k hk
  intro n
  induction n with
  | zero =>
    refine fun _ => ⟨List.length_replicate, fun k hk => ?_⟩
    obtain rfl := Nat.le_zero.mp hk
    exact (Finset.sum_range_zero _).symm
  | succ n ih =>
    intro hn
    obtain ⟨hLength, hTops⟩ := ih (by omega)
    rw [List.range_succ, List.foldl_append, List.foldl_cons, List.foldl_nil]
    refine ⟨List.length_set.trans hLength, fun k hk => ?_⟩
    obtain rfl | hk := hk.eq_or_lt
    · rw [List.getD_eq_getElem?_getD, List.getElem?_set_self (by omega), Option.getD_some, hTops n le_rfl,
        Finset.sum_range_succ]
    · rw [List.getD_eq_getElem?_getD, List.getElem?_set_ne (by omega), ← List.getD_eq_getElem?_getD]
      exact hTops k (by omega)

end Tops

/-! ## Reports and reads -/

/-- What the columns last said of their segments. -/
abbrev SlotTable := Nat → Nat → ℚ × Option ℚ

inductive SlotOp where
  | report (column segment : Nat) (height : ℚ) (lead : Option ℚ)
  | offsetOf (segment : Nat)
  | totalHeight
  | toOffset (segment : Nat) (within : ℚ)
  | locate (offset : ℚ)

def step : SlotOp → SyncSlotHeights
  | .report column segment height lead => h.report column segment height lead
  | .offsetOf segment => (h.offsetOf segment).2
  | .totalHeight => h.totalHeight.2
  | .toOffset segment within => (h.toOffset segment within).2
  | .locate offset => (h.locate offset).2

/-- A report is for one of the columns and segments, and no height is negative. -/
def SlotOp.Valid (columns segments : Nat) : SlotOp → Prop
  | .report column segment height _ => column < columns ∧ segment < segments ∧ 0 ≤ height
  | .offsetOf segment | .toOffset segment _ => segment ≤ segments
  | .totalHeight | .locate _ => True

def SlotTable.step (t : SlotTable) : SlotOp → SlotTable
  | .report column segment height lead => fun c k => if c = column ∧ k = segment then (height, lead) else t c k
  | _ => t

/-- The heights are those of the table, and the tops, when there are any, belong to them. -/
structure Kept (columns segments : Nat) (t : SlotTable) (h : SyncSlotHeights) : Prop where
  columns_eq : h.columns = columns
  segments_eq : h.segments = segments
  length_own : h.own.length = columns * segments
  length_lead : h.lead.length = columns * segments
  own : ∀ c < columns, ∀ k < segments, h.ownAt c k = (t c k).1
  lead : ∀ c < columns, ∀ k < segments, h.leadAt c k = (t c k).2
  nonneg : ∀ c < columns, ∀ k < segments, 0 ≤ (t c k).1
  fresh : ∀ tops, h.tops = some tops → tops = h.buildTops

section Table

variable {α : Type*} {columns segments : Nat}

theorem length_table (entry : Nat → Nat → α) : (table columns segments entry).length = columns * segments := by
  simp only [table, List.length_flatMap, List.length_map, List.length_range, List.map_const',
    List.sum_replicate_nat]

theorem getElem?_table (entry : Nat → Nat → α) {c k : Nat} (hc : c < columns) (hk : k < segments) :
    (table columns segments entry)[c * segments + k]? = some (entry c k) := by
  induction columns with
  | zero => exact absurd hc (Nat.not_lt_zero c)
  | succ columns ih =>
    have hLength : (table columns segments entry).length = columns * segments := length_table entry
    rw [table, List.range_succ, List.flatMap_append, List.flatMap_singleton, ← table]
    obtain rfl | hLess := (Nat.le_of_lt_succ hc).eq_or_lt
    · rw [List.getElem?_append_right (by omega), hLength, Nat.add_sub_cancel_left, List.getElem?_map,
        List.getElem?_range hk, Option.map_some]
    · have hRow : (c + 1) * segments ≤ columns * segments := Nat.mul_le_mul_right segments hLess
      rw [Nat.succ_mul] at hRow
      rw [List.getElem?_append_left (by omega)]
      exact ih hLess

/-- Entries of different columns or segments are at different places. -/
theorem place_inj {c k c' k' : Nat} (hk : k < segments) (hk' : k' < segments)
    (h : c * segments + k = c' * segments + k') : c = c' ∧ k = k' := by
  have hPos : 0 < segments := by omega
  have hDiv := congrArg (· / segments) h
  have hMod := congrArg (· % segments) h
  simp only [Nat.mul_comm _ segments, Nat.mul_add_div hPos, Nat.div_eq_of_lt hk, Nat.div_eq_of_lt hk',
    Nat.mul_add_mod, Nat.mod_eq_of_lt hk, Nat.mod_eq_of_lt hk', Nat.add_zero] at hDiv hMod
  exact ⟨hDiv, hMod⟩

theorem place_lt {c k : Nat} (hc : c < columns) (hk : k < segments) : c * segments + k < columns * segments := by
  have hRow : (c + 1) * segments ≤ columns * segments := Nat.mul_le_mul_right segments hc
  rw [Nat.succ_mul] at hRow
  omega

theorem getD_set_place {xs : List α} (hLength : xs.length = columns * segments) {c k column segment : Nat}
    (hColumn : column < columns) (hSegment : segment < segments) (hk : k < segments) (a d : α) :
    (xs.set (column * segments + segment) a).getD (c * segments + k) d =
      if c = column ∧ k = segment then a else xs.getD (c * segments + k) d := by
  rw [List.getD_eq_getElem?_getD]
  split
  next hAt =>
    obtain ⟨rfl, rfl⟩ := hAt
    rw [List.getElem?_set_self (hLength ▸ place_lt hColumn hSegment), Option.getD_some]
  next hOther =>
    rw [List.getElem?_set_ne fun hEq => hOther ?_, ← List.getD_eq_getElem?_getD]
    exact (place_inj hSegment hk hEq).imp Eq.symm Eq.symm

end Table

theorem SlotTable.step_report (t : SlotTable) (column segment : Nat) (height : ℚ) (lead : Option ℚ) (c k : Nat) :
    t.step (.report column segment height lead) c k = if c = column ∧ k = segment then (height, lead) else t c k :=
  rfl

/-- Nothing of a segment has a height, and nothing has to be padded. -/
def Hollow (segment : Nat) : Prop :=
  ∀ c < h.columns, h.ownAt c segment = 0 ∧
    ∀ c' < h.columns, ∀ own ∈ h.leadAt c segment, ∀ other ∈ h.leadAt c' segment, own = other

/-- The slot of this segment holds the offset, this far from its top. -/
def InSlot (offset : ℚ) (place : Nat × ℚ) : Prop :=
  place.1 < h.segments ∧ (h.offsetOf place.1).1 ≤ offset ∧ offset < (h.offsetOf (place.1 + 1)).1 ∧
    place.2 = offset - (h.offsetOf place.1).1

namespace Kept

variable {columns segments : Nat} {t : SlotTable} {h : SyncSlotHeights}

theorem prefixTops_fst (hKept : h.Kept columns segments t) : h.prefixTops.1 = h.buildTops := by
  cases hTops : h.tops with
  | none => rw [prefixTops, hTops]
  | some tops =>
    rw [prefixTops, hTops]
    exact hKept.fresh tops hTops

/-- A read only fills the cache. -/
theorem prefixTops_snd (hKept : h.Kept columns segments t) : h.prefixTops.2.Kept columns segments t := by
  cases hTops : h.tops with
  | none =>
    rw [prefixTops, hTops]
    exact { hKept with fresh := fun tops hEq => (Option.some.inj hEq).symm }
  | some tops =>
    rw [prefixTops, hTops]
    exact hKept

theorem report (hKept : h.Kept columns segments t) {column segment : Nat} {height : ℚ} {lead : Option ℚ}
    (hColumn : column < columns) (hSegment : segment < segments) (hHeight : 0 ≤ height) :
    (h.report column segment height lead).Kept columns segments (t.step (.report column segment height lead)) := by
  rw [SyncSlotHeights.report]
  split
  next hSame =>
    have hEntry : t.step (.report column segment height lead) = t := by
      funext c k
      rw [SlotTable.step_report]
      split
      next hAt =>
        obtain ⟨rfl, rfl⟩ := hAt
        exact Prod.ext (hSame.1.symm.trans (hKept.own c hColumn k hSegment))
          (hSame.2.symm.trans (hKept.lead c hColumn k hSegment))
      next => rfl
    exact hEntry.symm ▸ hKept
  next =>
    refine { hKept with
      length_own := List.length_set.trans hKept.length_own
      length_lead := List.length_set.trans hKept.length_lead
      own := fun c hc k hk => ?_
      lead := fun c hc k hk => ?_
      nonneg := fun c hc k hk => ?_
      fresh := nofun }
    · have hOld := hKept.own c hc k hk
      rw [ownAt, hKept.segments_eq] at hOld
      rw [ownAt, hKept.segments_eq, getD_set_place hKept.length_own hColumn hSegment hk, hOld,
        SlotTable.step_report, apply_ite Prod.fst]
    · have hOld := hKept.lead c hc k hk
      rw [leadAt, hKept.segments_eq] at hOld
      rw [leadAt, hKept.segments_eq, getD_set_place hKept.length_lead hColumn hSegment hk, hOld,
        SlotTable.step_report, apply_ite Prod.snd]
    · rw [SlotTable.step_report]
      split
      · exact hHeight
      · exact hKept.nonneg c hc k hk

theorem step (hKept : h.Kept columns segments t) {op : SlotOp} (hValid : op.Valid columns segments) :
    (h.step op).Kept columns segments (t.step op) := by
  cases op with
  | report column segment height lead => exact hKept.report hValid.1 hValid.2.1 hValid.2.2
  | locate offset =>
    rw [SyncSlotHeights.step, locate]
    split
    · exact hKept.prefixTops_snd
    · exact hKept.prefixTops_snd
  | offsetOf segment => exact hKept.prefixTops_snd
  | totalHeight => exact hKept.prefixTops_snd
  | toOffset segment within => exact hKept.prefixTops_snd

theorem run {ops : List SlotOp} (hKept : h.Kept columns segments t) (hOps : ∀ op ∈ ops, op.Valid columns segments) :
    (ops.foldl SyncSlotHeights.step h).Kept columns segments (ops.foldl SlotTable.step t) := by
  induction ops generalizing h t with
  | nil => exact hKept
  | cons op ops ih =>
    rw [List.foldl_cons, List.foldl_cons]
    exact ih (hKept.step (hOps op List.mem_cons_self)) fun op hMem => hOps op (List.mem_cons_of_mem _ hMem)

theorem forSegments {estimate : Nat → Nat → ℚ} {estimateLead : Nat → Nat → Option ℚ}
    (hEstimate : ∀ c < columns, ∀ k < segments, 0 ≤ estimate c k) :
    (SyncSlotHeights.forSegments columns segments estimate estimateLead).Kept columns segments
      fun c k => (estimate c k, estimateLead c k) where
  columns_eq := rfl
  segments_eq := rfl
  length_own := length_table estimate
  length_lead := length_table estimateLead
  own c hc k hk := by
    rw [ownAt, List.getD_eq_getElem?_getD]
    exact congrArg (Option.getD · 0) (getElem?_table estimate hc hk)
  lead c hc k hk := by
    rw [leadAt, List.getD_eq_getElem?_getD]
    exact congrArg (Option.getD · none) (getElem?_table estimateLead hc hk)
  nonneg := hEstimate
  fresh := nofun

/-! ## Reading the tops -/

theorem offsetOf_eq (hKept : h.Kept columns segments t) {k : Nat} (hk : k ≤ segments) :
    (h.offsetOf k).1 = ∑ j ∈ Finset.range k, h.slotHeight j := by
  rw [offsetOf, hKept.prefixTops_fst]
  exact getD_buildTops (hKept.segments_eq.symm ▸ hk)

theorem totalHeight_eq (hKept : h.Kept columns segments t) :
    h.totalHeight.1 = ∑ j ∈ Finset.range segments, h.slotHeight j := by
  rw [totalHeight, hKept.prefixTops_fst, getD_buildTops le_rfl, hKept.segments_eq]

theorem slotHeight_eq_zero_iff (hKept : h.Kept columns segments t) {k : Nat} (hk : k < segments) :
    h.slotHeight k = 0 ↔ h.Hollow k := by
  have hOwn {c : Nat} (hc : c < h.columns) : 0 ≤ h.ownAt c k := by
    rw [hKept.columns_eq] at hc
    exact hKept.own c hc k hk ▸ hKept.nonneg c hc k hk
  have hZero : h.slotHeight k = 0 ↔ ∀ c < h.columns, h.ownAt c k + h.topPad c k ≤ 0 := by
    rw [← slotHeight_nonneg.ge_iff_eq', slotHeight_le, and_iff_right le_rfl]
    exact forall₂_congr fun c hc => by rw [padded_eq hc]
  rw [hZero]
  constructor
  · intro hFlat
    -- with no padding every start of code is at the lowest one
    have hLead {c : Nat} (hc : c < h.columns) {own : ℚ} (hLead : h.leadAt c k = some own) :
        (h.leadMax k).getD 0 = own := by
      have hPad := topPad_add_lead hLead
      have hNonneg : 0 ≤ h.topPad c k := topPad_nonneg hc
      have hLe := hFlat c hc
      have hHeight := hOwn hc
      linarith
    intro c hc
    refine ⟨?_, fun c' hc' own hAt other hOther => (hLead hc hAt).symm.trans (hLead hc' hOther)⟩
    have hNonneg : 0 ≤ h.topPad c k := topPad_nonneg hc
    exact le_antisymm (by linarith [hFlat c hc]) (hOwn hc)
  · intro hHollow c hc
    obtain ⟨hHeight, hLevel⟩ := hHollow c hc
    rw [hHeight, zero_add, topPad]
    split
    next => exact le_rfl
    next own hAt =>
      obtain ⟨low, hLow, -⟩ := le_leadMax hc hAt
      obtain ⟨c', hc', hOther⟩ := leadMax_attained hLow
      rw [hLow, Option.getD_some, hLevel c' hc' own hAt low hOther, sub_self]

/-- Where there is an offset to locate there is a segment. -/
theorem segments_pos (hKept : h.Kept columns segments t) {offset : ℚ} (hNonneg : 0 ≤ offset)
    (hTotal : offset < h.totalHeight.1) : 0 < segments := by
  obtain hNone | hSome := segments.eq_zero_or_pos
  · rw [hKept.totalHeight_eq, hNone, Finset.sum_range_zero] at hTotal
    exact absurd hTotal hNonneg.not_gt
  · exact hSome

/-- The bisection finds the slot of every offset that is past the first top. -/
theorem inSlot_of_pos (hKept : h.Kept columns segments t) {offset : ℚ} (hPos : 0 < offset)
    (hTotal : offset < h.totalHeight.1) : h.InSlot offset (h.locate offset).1 := by
  have hFirst : (h.offsetOf 0).1 ≤ offset := by
    rw [hKept.offsetOf_eq (Nat.zero_le _), Finset.sum_range_zero]
    exact hPos.le
  have hSegments : 0 < segments := hKept.segments_pos hPos.le hTotal
  obtain ⟨-, hHi, hPass, hNext⟩ :=
    Bisect.lastWhere_spec (p := fun mid => h.prefixTops.1.getD mid 0 ≤ offset) (Nat.zero_le (h.segments - 1))
  rw [locate, if_neg hPos.not_ge]
  generalize hFound : Bisect.lastWhere (fun mid => decide (h.prefixTops.1.getD mid 0 ≤ offset)) 0 (h.segments - 1) = k
    at hHi hPass hNext
  rw [hKept.segments_eq] at hHi
  have hLow : h.prefixTops.1.getD k 0 ≤ offset := of_decide_eq_true (hPass (decide_eq_true hFirst))
  have hHigh : offset < h.prefixTops.1.getD (k + 1) 0 := by
    obtain hLast | hInner := hHi.eq_or_lt
    · rw [show k + 1 = h.segments by rw [hKept.segments_eq]; omega]
      exact hTotal
    · exact not_le.mp (of_decide_eq_false (hNext (hKept.segments_eq.symm ▸ hInner)))
  have hWithin : ¬offset - h.prefixTops.1.getD k 0 > h.prefixTops.1.getD (k + 1) 0 - h.prefixTops.1.getD k 0 :=
    (sub_le_sub_right hHigh.le _).not_gt
  have hIn : k < h.segments := by
    rw [hKept.segments_eq]
    omega
  exact ⟨hIn, hLow, hHigh, if_neg hWithin⟩

theorem inSlot_locate_iff (hKept : h.Kept columns segments t) {offset : ℚ} (hNonneg : 0 ≤ offset)
    (hTotal : offset < h.totalHeight.1) :
    h.InSlot offset (h.locate offset).1 ↔ ¬(offset = 0 ∧ h.Hollow 0) := by
  obtain rfl | hPos := hNonneg.eq_or_lt
  · have hSegments : 0 < segments := by
      obtain hNone | hSome := segments.eq_zero_or_pos
      · rw [hKept.totalHeight_eq, hNone, Finset.sum_range_zero] at hTotal
        exact absurd hTotal (lt_irrefl _)
      · exact hSome
    have hFirst : (h.offsetOf 0).1 = 0 := (hKept.offsetOf_eq (Nat.zero_le _)).trans (Finset.sum_range_zero _)
    have hSecond : (h.offsetOf 1).1 = h.slotHeight 0 :=
      (hKept.offsetOf_eq hSegments).trans (Finset.sum_range_one _)
    have hLocate : (h.locate 0).1 = (0, 0) := by rw [locate, if_pos le_rfl]
    rw [hLocate, InSlot, hFirst, hSecond, hKept.segments_eq, and_iff_right rfl,
      ← hKept.slotHeight_eq_zero_iff hSegments]
    constructor
    · exact fun hIn => hIn.2.2.1.ne'
    · exact fun hNot => ⟨hSegments, le_rfl, slotHeight_nonneg.lt_of_ne' hNot, (sub_self _).symm⟩
  · exact iff_of_true (hKept.inSlot_of_pos hPos hTotal) fun hZero => hPos.ne' hZero.1

end Kept

/-! ## Any run of reports and reads -/

theorem slots_stay_aligned (columns segments : Nat) (estimate : Nat → Nat → ℚ) (estimateLead : Nat → Nat → Option ℚ)
    (hEstimate : ∀ c < columns, ∀ k < segments, 0 ≤ estimate c k) (ops : List SlotOp)
    (hOps : ∀ op ∈ ops, op.Valid columns segments) :
    let h := ops.foldl step (forSegments columns segments estimate estimateLead)
    let t : SlotTable := ops.foldl SlotTable.step fun c k => (estimate c k, estimateLead c k)
    (∀ c < columns, ∀ k < segments,
        0 ≤ h.topPad c k ∧ 0 ≤ h.spacerHeight c k ∧
          h.topPad c k + (t c k).1 + h.spacerHeight c k = h.slotHeight k ∧
          ∀ c' < columns, ∀ lead ∈ (t c k).2, ∀ lead' ∈ (t c' k).2,
            h.topPad c k + lead = h.topPad c' k + lead') ∧
      (∀ k ≤ segments, (h.offsetOf k).1 = ∑ j ∈ Finset.range k, h.slotHeight j) ∧
      (h.totalHeight).1 = ∑ j ∈ Finset.range segments, h.slotHeight j ∧
      ∀ offset, 0 ≤ offset → offset < (h.totalHeight).1 →
        (h.InSlot offset (h.locate offset).1 ↔
          ¬(offset = 0 ∧ ∀ c < columns, (t c 0).1 = 0 ∧
            ∀ c' < columns, ∀ lead ∈ (t c 0).2, ∀ lead' ∈ (t c' 0).2, lead = lead')) := by
  intro h t
  have hKept : h.Kept columns segments t := (Kept.forSegments hEstimate).run hOps
  refine ⟨?_, fun k hk => hKept.offsetOf_eq hk, hKept.totalHeight_eq, ?_⟩
  · intro c hc k hk
    have hColumn : c < h.columns := hKept.columns_eq.symm ▸ hc
    refine ⟨topPad_nonneg hColumn, spacerHeight_nonneg hColumn, ?_, ?_⟩
    · rw [← hKept.own c hc k hk]
      exact topPad_add_spacerHeight
    · intro c' hc' lead hLead lead' hLead'
      rw [← hKept.lead c hc k hk] at hLead
      rw [← hKept.lead c' hc' k hk] at hLead'
      exact (topPad_add_lead hLead).trans (topPad_add_lead hLead').symm
  · intro offset hNonneg hTotal
    have hSegments : 0 < segments := hKept.segments_pos hNonneg hTotal
    rw [hKept.inSlot_locate_iff hNonneg hTotal, Hollow, hKept.columns_eq]
    refine not_congr (and_congr_right fun _ => forall₂_congr fun c hc => ?_)
    rw [hKept.own c hc 0 hSegments, hKept.lead c hc 0 hSegments]
    refine and_congr_right fun _ => forall₂_congr fun c' hc' => ?_
    rw [hKept.lead c' hc' 0 hSegments]

/-- One column whose head is empty. -/
def emptyHead : SyncSlotHeights := forSegments 1 2 (fun _ k => if k = 0 then 0 else 10) fun _ _ => none

/-- The first top belongs to the empty slot above it, while the others belong to the slot that they begin. -/
theorem empty_head_takes_the_first_top :
    0 < emptyHead.totalHeight.1 ∧ (emptyHead.locate 0).1 = (0, 0) ∧ ¬emptyHead.InSlot 0 (emptyHead.locate 0).1 := by
  have hLocate : (emptyHead.locate 0).1 = (0, 0) := by decide +kernel
  have hTop : (emptyHead.offsetOf (0 + 1)).1 = 0 := by decide +kernel
  refine ⟨by decide +kernel, hLocate, ?_⟩
  rw [hLocate]
  intro hIn
  have hBelow : (0 : ℚ) < (emptyHead.offsetOf (0 + 1)).1 := hIn.2.2.1
  exact lt_irrefl _ (hBelow.trans_eq hTop)

/-- Two columns of two segments, of which a read and two measures change what is cached. -/
def twoMeasures : List SlotOp := [.report 0 0 30 (some 8), .offsetOf 1, .report 1 0 20 (some 2), .locate 31]

theorem slots_stay_aligned_after_measures :
    let h := twoMeasures.foldl step (forSegments 2 2 (fun _ _ => 10) fun _ _ => none)
    (h.offsetOf 1).1 = 30 ∧ ∀ offset, 0 < offset → offset < h.totalHeight.1 →
      h.InSlot offset (h.locate offset).1 := by
  have hValid : ∀ op ∈ twoMeasures, op.Valid 2 2 := by
    simp only [twoMeasures, List.forall_mem_cons, SlotOp.Valid]
    norm_num
  obtain ⟨-, -, -, hLocate⟩ :=
    slots_stay_aligned 2 2 (fun _ _ => 10) (fun _ _ => none) (fun _ _ _ _ => by norm_num) twoMeasures hValid
  intro h
  refine ⟨by decide +kernel, fun offset hPos hTotal => (hLocate offset hPos.le hTotal).mpr fun hZero => ?_⟩
  exact hPos.ne' hZero.1

end SyncSlotHeights

end GitBranchManager.SyncScroll
