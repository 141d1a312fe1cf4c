import GitBranchManager.Base.ObjectId
import Mathlib.Logic.Function.Basic

/-! # The graph's columns: occupancy and colours

Lanes and rows are natural numbers: a lane never exceeds the overflow lane, and the row
cap keeps row numbers below `kRowBoundary`.
-/

namespace GitBranchManager

def kRowBoundary : Nat := 0xFFFFFFFF
def kMaxLanes : Nat := 48
def kPaletteSize : Nat := 12

/-- Arrays over the lanes are functions; no operation reads them at the overflow lane. -/
structure LaneAllocator where
  used : BitVec 64 := 0
  highWater : Nat := 0
  seeds : Nat → ObjectId := fun _ => .null
  colors : Nat → UInt8 := fun _ => 0

namespace LaneAllocator

def kOverflowLane : Nat := kMaxLanes
def kNeighborWindow : Nat := 5
def kMinColorSeparation : Nat := 3

def isOverflow (lane : Nat) : Bool := kMaxLanes ≤ lane

def lowestFreeAtOrAfter (a : LaneAllocator) (start : Nat) : Nat :=
  if kMaxLanes ≤ start then kOverflowLane
  else
    let mask := ~~~a.used &&& (BitVec.allOnes 64 <<< start)
    if mask = 0 then kOverflowLane
    else
      let index := mask.ctz.toNat
      if kMaxLanes ≤ index then kOverflowLane else index

def markUsed (a : LaneAllocator) (lane : Nat) : LaneAllocator :=
  { a with
    used := a.used ||| (1#64 <<< lane)
    highWater := if a.highWater < lane + 1 then lane + 1 else a.highWater }

def take (a : LaneAllocator) (lane : Nat) : Nat × LaneAllocator :=
  if isOverflow lane then (kOverflowLane, a) else (lane, a.markUsed lane)

def allocateLeftmost (a : LaneAllocator) : Nat × LaneAllocator :=
  a.take (a.lowestFreeAtOrAfter 0)

def allocateAfter (a : LaneAllocator) (after : Nat) : Nat × LaneAllocator :=
  if isOverflow after then (kOverflowLane, a) else a.take (a.lowestFreeAtOrAfter (after + 1))

def reserve (a : LaneAllocator) (lane : Nat) : LaneAllocator :=
  if isOverflow lane then a else a.markUsed lane

def release (a : LaneAllocator) (lane : Nat) : LaneAllocator :=
  if isOverflow lane then a else { a with used := a.used &&& ~~~(1#64 <<< lane) }

def inUse (a : LaneAllocator) (lane : Nat) : Bool :=
  !isOverflow lane && (a.used &&& (1#64 <<< lane)) != 0

def requiredSeparation (columns : Nat) : Nat :=
  if columns = 1 then kMinColorSeparation
  else if columns = 2 then 2
  else if columns ≤ kNeighborWindow then 1 else 0

def penaltyWeight (columns : Nat) : Nat :=
  if columns = 1 then 100 else if columns = 2 then 10 else 1

def colorDistance (a b : UInt8) : Nat :=
  let d := Int.natAbs (a.toNat - b.toNat : Int)
  min d (kPaletteSize - d)

/-- The colours on one side of a lane by distance, `none` where nothing is drawn; entry
`i` is `i + 1` columns away. -/
abbrev SideColors := Nat → Option UInt8

def shortfall (candidate : UInt8) (neighbor : Option UInt8) (columns : Nat) : Nat :=
  match neighbor with
  | none => 0
  | some color =>
    (requiredSeparation columns - colorDistance candidate color) * penaltyWeight columns

def crowdingOf (candidate : UInt8) (left right : SideColors) : Nat :=
  ((List.range kNeighborWindow).map fun i =>
    shortfall candidate (left i) (i + 1) + shortfall candidate (right i) (i + 1)).sum

def kChoices : Nat := kPaletteSize - 1

/-- The palette index tried at a step: the base itself, then one below, one above, two
below and so on. -/
def candidateAt (base step : Nat) : UInt8 :=
  let offset : Int := if step % 2 = 0 then step / 2 else -((step + 1) / 2)
  let index := ((base : Int) - 1 + offset + kChoices * 2) % kChoices
  UInt8.ofNat (1 + index.toNat)

/-- The search over the candidates; `best` carries the penalty of the best one so far. -/
def leastCrowded (left right : SideColors) : List UInt8 → UInt8 → Option Nat → UInt8
  | [], best, _ => best
  | candidate :: rest, best, bestPenalty =>
    let penalty := crowdingOf candidate left right
    if penalty = 0 then candidate
    else if bestPenalty.all (penalty < ·) then leastCrowded left right rest candidate (some penalty)
    else leastCrowded left right rest best bestPenalty

def colorForSeed (lane : Nat) (oid : ObjectId) (left right : SideColors) : UInt8 :=
  if lane = 0 then 0
  else
    let base := 1 + oid.hash.toNat % kChoices
    leastCrowded left right ((List.range kChoices).map (candidateAt base)) (UInt8.ofNat base) none

def neighborColor (a : LaneAllocator) (lane : Nat) (delta : Int) : Option UInt8 :=
  let index := lane + delta
  if index < 0 ∨ kMaxLanes ≤ index then none
  else if a.inUse index.toNat then some (a.colors index.toNat) else none

def sideColors (a : LaneAllocator) (lane : Nat) (direction : Int) : SideColors :=
  fun i => a.neighborColor lane (direction * (i + 1))

def seed (a : LaneAllocator) (lane : Nat) (oid : ObjectId) : LaneAllocator :=
  if isOverflow lane then a
  else
    { a with
      seeds := Function.update a.seeds lane oid
      colors := Function.update a.colors lane
        (colorForSeed lane oid (a.sideColors lane (-1)) (a.sideColors lane 1)) }

def colorOf (a : LaneAllocator) (lane : Nat) : UInt8 :=
  if isOverflow lane then 0 else a.colors lane

@[simp] theorem isOverflow_eq_false {lane : Nat} : isOverflow lane = false ↔ lane < kMaxLanes := by
  simp [isOverflow]

@[simp] theorem isOverflow_eq_true {lane : Nat} : isOverflow lane = true ↔ kMaxLanes ≤ lane := by
  simp [isOverflow]

theorem colorOf_of_lt (a : LaneAllocator) {lane : Nat} (h : lane < kMaxLanes) :
    a.colorOf lane = a.colors lane := by
  rw [colorOf, isOverflow_eq_false.mpr h, if_neg (by decide)]

theorem getLsbD_bit {lane : Nat} (h : lane < 64) (m : Nat) :
    (1#64 <<< lane).getLsbD m = decide (lane = m) := by
  rw [← BitVec.twoPow_eq, BitVec.getLsbD_twoPow, decide_eq_true h, Bool.true_and]

theorem inUse_eq_getLsbD (a : LaneAllocator) {lane : Nat} (h : lane < kMaxLanes) :
    a.inUse lane = a.used.getLsbD lane := by
  have hLane : lane < 64 := Nat.lt_trans h (by decide)
  have hBit (m : Nat) : (a.used &&& (1#64 <<< lane)).getLsbD m =
      (a.used.getLsbD m && decide (lane = m)) := by
    rw [BitVec.getLsbD_and, getLsbD_bit hLane]
  rw [inUse, isOverflow_eq_false.mpr h, Bool.not_false, Bool.true_and]
  cases hUsed : a.used.getLsbD lane with
  | false =>
    rw [bne_eq_false_iff_eq]
    apply BitVec.eq_of_getLsbD_eq
    intro m _
    rw [hBit]
    by_cases he : lane = m
    · simp [← he, hUsed]
    · simp [he]
  | true =>
    rw [bne_iff_ne]
    intro he
    have h0 := hBit lane
    rw [he, hUsed] at h0
    simp at h0

theorem inUse_lt {a : LaneAllocator} {lane : Nat} (h : a.inUse lane = true) : lane < kMaxLanes := by
  rw [inUse, Bool.and_eq_true, Bool.not_eq_true'] at h
  exact isOverflow_eq_false.mp h.1

theorem inUse_congr {a b : LaneAllocator} (h : a.used = b.used) (lane : Nat) :
    a.inUse lane = b.inUse lane := by
  rw [inUse, inUse, h]

theorem inUse_markUsed (a : LaneAllocator) {lane : Nat} (hLane : lane < kMaxLanes) (m : Nat) :
    (a.markUsed lane).inUse m = (a.inUse m || decide (lane = m)) := by
  rcases Nat.lt_or_ge m kMaxLanes with hm | hm
  · rw [inUse_eq_getLsbD _ hm, inUse_eq_getLsbD _ hm, markUsed, BitVec.getLsbD_or,
      getLsbD_bit (Nat.lt_trans hLane (by decide))]
  · have hne : lane ≠ m := by omega
    simp [inUse, isOverflow_eq_true.mpr hm, hne]

theorem inUse_release (a : LaneAllocator) {lane : Nat} (hLane : lane < kMaxLanes) (m : Nat) :
    (a.release lane).inUse m = (a.inUse m && decide (lane ≠ m)) := by
  rw [release, isOverflow_eq_false.mpr hLane, if_neg (by decide)]
  rcases Nat.lt_or_ge m kMaxLanes with hm | hm
  · have h64 : m < 64 := Nat.lt_trans hm (by decide)
    rw [inUse_eq_getLsbD _ hm, inUse_eq_getLsbD _ hm, BitVec.getLsbD_and, BitVec.getLsbD_not,
      getLsbD_bit (Nat.lt_trans hLane (by decide))]
    simp [h64]
  · simp [inUse, isOverflow_eq_true.mpr hm]

@[simp] theorem used_seed (a : LaneAllocator) (lane : Nat) (oid : ObjectId) :
    (a.seed lane oid).used = a.used := by
  rw [seed]
  split <;> rfl

@[simp] theorem inUse_seed (a : LaneAllocator) (lane m : Nat) (oid : ObjectId) :
    (a.seed lane oid).inUse m = a.inUse m :=
  inUse_congr (used_seed a lane oid) m

theorem lowestFreeAtOrAfter_spec (a : LaneAllocator) (start : Nat) :
    a.lowestFreeAtOrAfter start = kOverflowLane ∨
      (start ≤ a.lowestFreeAtOrAfter start ∧ a.lowestFreeAtOrAfter start < kMaxLanes ∧
        a.inUse (a.lowestFreeAtOrAfter start) = false ∧
        ∀ lane, start ≤ lane → lane < a.lowestFreeAtOrAfter start → a.inUse lane = true) := by
  unfold lowestFreeAtOrAfter
  split
  · exact Or.inl rfl
  next =>
    dsimp only
    split
    · exact Or.inl rfl
    next hMask =>
      split
      · exact Or.inl rfl
      next hIndex =>
        refine Or.inr ?_
        generalize hEq : (~~~a.used &&& BitVec.allOnes 64 <<< start).ctz.toNat = index at hIndex ⊢
        have hIndex : index < kMaxLanes := Nat.lt_of_not_le hIndex
        have hBit := BitVec.getLsbD_true_ctz_of_ne_zero hMask
        rw [hEq, BitVec.getLsbD_and, BitVec.getLsbD_not, BitVec.getLsbD_shiftLeft] at hBit
        simp only [Bool.and_eq_true, Bool.not_eq_true', decide_eq_true_eq, decide_eq_false_iff_not,
          Nat.not_lt] at hBit
        refine ⟨hBit.2.1.2, hIndex, ?_, ?_⟩
        · rw [inUse_eq_getLsbD _ hIndex]
          exact hBit.1.2
        · intro lane hStart hLane
          have hSkipped := BitVec.getLsbD_false_of_lt_ctz (hEq ▸ hLane)
          rw [BitVec.getLsbD_and, BitVec.getLsbD_not, BitVec.getLsbD_shiftLeft,
            BitVec.getLsbD_allOnes] at hSkipped
          have h64 : lane < 64 := Nat.lt_trans (Nat.lt_trans hLane hIndex) (by decide)
          have hShift : lane - start < 64 := Nat.lt_of_le_of_lt (Nat.sub_le lane start) h64
          rw [inUse_eq_getLsbD _ (Nat.lt_trans hLane hIndex)]
          simpa [h64, hShift, Nat.not_lt.mpr hStart] using hSkipped

/-- An allocation hands out the overflow lane and changes nothing, or hands out the first free
lane of the range and marks it. -/
inductive Allocated (a : LaneAllocator) (start : Nat) : Nat × LaneAllocator → Prop
  | overflow : Allocated a start (kOverflowLane, a)
  | free (lane : Nat) (hStart : start ≤ lane) (hLane : lane < kMaxLanes)
      (hFree : a.inUse lane = false) (hBelow : ∀ l, start ≤ l → l < lane → a.inUse l = true) :
      Allocated a start (lane, a.markUsed lane)

theorem take_allocated (a : LaneAllocator) (start : Nat) :
    Allocated a start (a.take (a.lowestFreeAtOrAfter start)) := by
  rw [take]
  split
  · exact .overflow
  next hLane =>
    rw [Bool.not_eq_true] at hLane
    rcases lowestFreeAtOrAfter_spec a start with h | ⟨hStart, hMax, hFree, hBelow⟩
    · rw [h] at hLane
      cases hLane
    · exact .free _ hStart hMax hFree hBelow

theorem allocateLeftmost_allocated (a : LaneAllocator) : Allocated a 0 a.allocateLeftmost :=
  take_allocated a 0

theorem allocateAfter_allocated (a : LaneAllocator) (after : Nat) :
    Allocated a (after + 1) (a.allocateAfter after) := by
  rw [allocateAfter]
  split
  · exact .overflow
  · exact take_allocated a (after + 1)

end LaneAllocator

end GitBranchManager
