import GitBranchManager.Graph.LaneAllocator
import Mathlib.Data.List.Range

/-! # The colour of a new lane

A candidate a quarter turn from both neighbours always exists, and one step of shortfall
beside the lane outweighs everything further away, so the choice never crowds a neighbour.
-/

namespace GitBranchManager

namespace LaneAllocator

section Choice

variable (left right : SideColors)

/-- The search returns a candidate or the best so far, and crowds no more than any of them. -/
theorem leastCrowded_spec (candidates : List UInt8) (best : UInt8) (penalty : Option Nat)
    (hPenalty : ∀ p ∈ penalty, p = crowdingOf best left right) :
    leastCrowded left right candidates best penalty ∈ best :: candidates ∧
      (∀ p ∈ penalty, crowdingOf (leastCrowded left right candidates best penalty) left right ≤ p) ∧
      ∀ c ∈ candidates, crowdingOf (leastCrowded left right candidates best penalty) left right ≤
        crowdingOf c left right := by
  induction candidates generalizing best penalty with
  | nil =>
    refine ⟨List.mem_singleton_self best, fun p hp => ?_, fun c hc => absurd hc List.not_mem_nil⟩
    exact (hPenalty p hp).ge
  | cons candidate rest ih =>
    rw [leastCrowded]
    split
    next hZero =>
      refine ⟨List.mem_cons_of_mem _ List.mem_cons_self, fun p _ => ?_, fun c _ => ?_⟩
      · rw [hZero]
        exact Nat.zero_le p
      · rw [hZero]
        exact Nat.zero_le _
    next =>
      split
      next hBetter =>
        obtain ⟨hMem, hBest, hRest⟩ := ih candidate (some (crowdingOf candidate left right))
          fun p hp => (Option.some.inj hp).symm
        have hCandidate := hBest _ rfl
        refine ⟨List.mem_cons_of_mem _ hMem, fun p hp => ?_, ?_⟩
        · obtain rfl := Option.mem_def.mp hp
          rw [Option.all_some, decide_eq_true_eq] at hBetter
          exact hCandidate.trans hBetter.le
        · intro c hc
          rcases List.mem_cons.mp hc with rfl | hc
          · exact hCandidate
          · exact hRest c hc
      next hWorse =>
        cases penalty with
        | none => exact absurd rfl hWorse
        | some p =>
          rw [Option.all_some, decide_eq_true_eq, Nat.not_lt] at hWorse
          obtain ⟨hMem, hBest, hRest⟩ := ih best (some p) hPenalty
          refine ⟨?_, hBest, ?_⟩
          · rcases List.mem_cons.mp hMem with hEq | hMem
            · exact List.mem_cons.mpr (Or.inl hEq)
            · exact List.mem_cons_of_mem _ (List.mem_cons_of_mem _ hMem)
          · intro c hc
            rcases List.mem_cons.mp hc with rfl | hc
            · exact (hBest p rfl).trans hWorse
            · exact hRest c hc

theorem shortfall_le (candidate : UInt8) (neighbor : Option UInt8) (columns : Nat) :
    shortfall candidate neighbor columns ≤ requiredSeparation columns * penaltyWeight columns := by
  cases neighbor with
  | none => exact Nat.zero_le _
  | some color => exact Nat.mul_le_mul_right _ (Nat.sub_le _ _)

/-- Everything but the two nearest lanes contributes at most 46. -/
theorem crowdingOf_bounds (candidate : UInt8) :
    shortfall candidate (left 0) 1 + shortfall candidate (right 0) 1 ≤ crowdingOf candidate left right ∧
      crowdingOf candidate left right ≤
        shortfall candidate (left 0) 1 + shortfall candidate (right 0) 1 + 46 := by
  have hFar (neighbor : Option UInt8) : shortfall candidate neighbor 2 ≤ 20 ∧
      shortfall candidate neighbor 3 ≤ 1 ∧ shortfall candidate neighbor 4 ≤ 1 ∧
      shortfall candidate neighbor 5 ≤ 1 :=
    ⟨shortfall_le _ _ 2, shortfall_le _ _ 3, shortfall_le _ _ 4, shortfall_le _ _ 5⟩
  have hLeft1 := hFar (left 1)
  have hLeft2 := hFar (left 2)
  have hLeft3 := hFar (left 3)
  have hLeft4 := hFar (left 4)
  have hRight1 := hFar (right 1)
  have hRight2 := hFar (right 2)
  have hRight3 := hFar (right 3)
  have hRight4 := hFar (right 4)
  have hSum : crowdingOf candidate left right =
      shortfall candidate (left 0) 1 + shortfall candidate (right 0) 1 +
      (shortfall candidate (left 1) 2 + shortfall candidate (right 1) 2) +
      (shortfall candidate (left 2) 3 + shortfall candidate (right 2) 3) +
      (shortfall candidate (left 3) 4 + shortfall candidate (right 3) 4) +
      (shortfall candidate (left 4) 5 + shortfall candidate (right 4) 5) := by
    simp only [crowdingOf, kNeighborWindow, List.range_succ, List.range_zero, List.nil_append,
      List.cons_append, List.map_cons, List.map_nil, List.sum_cons, List.sum_nil, Nat.reduceAdd]
    omega
  omega

end Choice

def FarFrom (color : UInt8) (neighbor : Option UInt8) : Prop :=
  ∀ c ∈ neighbor, kMinColorSeparation ≤ colorDistance color c

theorem farFrom_iff {color : UInt8} {neighbor : Option UInt8} :
    FarFrom color neighbor ↔ shortfall color neighbor 1 < 100 := by
  cases neighbor with
  | none => exact iff_of_true (fun _ h => nomatch h) (Nat.zero_lt_succ 99)
  | some c =>
    have hCost : shortfall color (some c) 1 = (3 - colorDistance color c) * 100 := rfl
    rw [hCost]
    constructor
    · intro h
      have hDistance : 3 ≤ colorDistance color c := h c rfl
      omega
    · intro h c' hc
      obtain rfl := Option.some.inj hc
      change 3 ≤ colorDistance color c
      omega

/-- The candidates of a base run through all colours but the trunk's. -/
theorem mem_candidates {base color : Nat} (hBase : 0 < base ∧ base ≤ kChoices)
    (hColor : 0 < color ∧ color ≤ kChoices) :
    UInt8.ofNat color ∈ (List.range kChoices).map (candidateAt base) := by
  have hAll : ∀ b ∈ List.range 12, ∀ c ∈ List.range 12, 0 < b → 0 < c →
      UInt8.ofNat c ∈ (List.range kChoices).map (candidateAt b) := by decide +kernel
  have hChoices : kChoices = 11 := rfl
  exact hAll base (List.mem_range.mpr (by omega)) color (List.mem_range.mpr (by omega)) hBase.1 hColor.1

theorem candidateAt_lt (base step : Nat) : (candidateAt base step).toNat < kPaletteSize := by
  have hIndex : ∀ index : Int, (index % (kChoices : Nat)).toNat < 11 := by
    intro index
    have h := Int.emod_lt_of_pos index (b := ((kChoices : Nat) : Int)) (by decide)
    have h11 : ((kChoices : Nat) : Int) = 11 := rfl
    omega
  rw [candidateAt]
  have h := hIndex ((base : Int) - 1 + (if step % 2 = 0 then (step : Int) / 2
    else -((step + 1) / 2)) + kChoices * 2)
  rw [UInt8.toNat_ofNat_of_lt' (by have : UInt8.size = 256 := rfl; omega)]
  have hPalette : kPaletteSize = 12 := rfl
  omega

/-- Whatever two colours stand beside a lane, some other colour is a quarter turn from both. -/
theorem exists_farFrom {left right : Option UInt8} (hLeft : ∀ c ∈ left, c.toNat < kPaletteSize)
    (hRight : ∀ c ∈ right, c.toNat < kPaletteSize) :
    ∃ color, (0 < color ∧ color ≤ kChoices) ∧ FarFrom (UInt8.ofNat color) left ∧
      FarFrom (UInt8.ofNat color) right := by
  have hAll : ∀ a ∈ List.range 12, ∀ b ∈ List.range 12, ∃ color ∈ List.range 12, 0 < color ∧
      3 ≤ colorDistance (UInt8.ofNat color) (UInt8.ofNat a) ∧
      3 ≤ colorDistance (UInt8.ofNat color) (UInt8.ofNat b) := by decide +kernel
  have hNat : ∀ side : Option UInt8, (∀ c ∈ side, c.toNat < kPaletteSize) →
      ∃ n ∈ List.range 12, ∀ c ∈ side, c = UInt8.ofNat n := by
    intro side hSide
    cases side with
    | none => exact ⟨0, by decide, fun _ h => nomatch h⟩
    | some c =>
      refine ⟨c.toNat, List.mem_range.mpr (hSide c rfl), fun c' hc => ?_⟩
      rw [← Option.some.inj hc, UInt8.ofNat_toNat]
  obtain ⟨a, ha, hLeft⟩ := hNat left hLeft
  obtain ⟨b, hb, hRight⟩ := hNat right hRight
  obtain ⟨color, hMem, hPos, hA, hB⟩ := hAll a ha b hb
  have hLt := List.mem_range.mp hMem
  have hChoices : kChoices = 11 := rfl
  refine ⟨color, ⟨hPos, by omega⟩, fun c hc => ?_, fun c hc => ?_⟩
  · rw [hLeft c hc]
    exact hA
  · rw [hRight c hc]
    exact hB

theorem colorForSeed_far {lane : Nat} (hLane : lane ≠ 0) (oid : ObjectId) {left right : SideColors}
    (hLeft : ∀ c ∈ left 0, c.toNat < kPaletteSize) (hRight : ∀ c ∈ right 0, c.toNat < kPaletteSize) :
    FarFrom (colorForSeed lane oid left right) (left 0) ∧
      FarFrom (colorForSeed lane oid left right) (right 0) := by
  rw [colorForSeed, if_neg hLane]
  dsimp only
  have hBase : 0 < 1 + oid.hash.toNat % kChoices ∧ 1 + oid.hash.toNat % kChoices ≤ kChoices := by
    have := Nat.mod_lt oid.hash.toNat (show 0 < kChoices by decide)
    omega
  obtain ⟨color, hColor, hFarLeft, hFarRight⟩ := exists_farFrom hLeft hRight
  obtain ⟨-, -, hLeast⟩ := leastCrowded_spec left right
    ((List.range kChoices).map (candidateAt (1 + oid.hash.toNat % kChoices)))
    (UInt8.ofNat (1 + oid.hash.toNat % kChoices)) none (fun _ h => nomatch h)
  have hBest := hLeast _ (mem_candidates hBase hColor)
  generalize leastCrowded left right _ _ _ = chosen at hBest
  have hChosen := crowdingOf_bounds left right chosen
  have hOther := crowdingOf_bounds left right (UInt8.ofNat color)
  rw [farFrom_iff] at hFarLeft hFarRight ⊢
  rw [farFrom_iff]
  have hZero : ∀ c n, shortfall c n 1 < 100 → shortfall c n 1 = 0 := by
    intro c n h
    cases n with
    | none => rfl
    | some x =>
      have hCost : shortfall c (some x) 1 = (3 - colorDistance c x) * 100 := rfl
      omega
  have := hZero _ _ hFarLeft
  have := hZero _ _ hFarRight
  omega

theorem colorForSeed_lt (lane : Nat) (oid : ObjectId) (left right : SideColors) :
    (colorForSeed lane oid left right).toNat < kPaletteSize := by
  rw [colorForSeed]
  split
  · decide
  · dsimp only
    obtain ⟨hMem, -⟩ := leastCrowded_spec left right
      ((List.range kChoices).map (candidateAt (1 + oid.hash.toNat % kChoices)))
      (UInt8.ofNat (1 + oid.hash.toNat % kChoices)) none (fun _ h => nomatch h)
    rcases List.mem_cons.mp hMem with hEq | hMem
    · have := Nat.mod_lt oid.hash.toNat (show 0 < kChoices by decide)
      have hChoices : kChoices = 11 := rfl
      rw [hEq, UInt8.toNat_ofNat_of_lt' (by have : UInt8.size = 256 := rfl; omega)]
      have hPalette : kPaletteSize = 12 := rfl
      omega
    · obtain ⟨step, -, hStep⟩ := List.mem_map.mp hMem
      rw [← hStep]
      exact candidateAt_lt _ step

theorem colorDistance_comm (a b : UInt8) : colorDistance a b = colorDistance b a := by
  simp only [colorDistance]
  omega

/-- The colours drawn in neighbouring lanes are a quarter turn apart, and lane 1 keeps clear of
the trunk's colour also while lane 0 is not drawn. -/
structure Spread (a : LaneAllocator) : Prop where
  trunk : a.colors 0 = 0
  palette : ∀ lane, (a.colors lane).toNat < kPaletteSize
  apart : ∀ lane, lane = 0 ∨ a.inUse lane = true → a.inUse (lane + 1) = true →
    kMinColorSeparation ≤ colorDistance (a.colors lane) (a.colors (lane + 1))

theorem spread_new : Spread {} := by
  refine ⟨rfl, fun _ => Nat.zero_lt_succ 11, ?_⟩
  intro lane _ h
  simp [inUse] at h

theorem spread_reserved : Spread (reserve {} 0) := by
  refine ⟨rfl, fun _ => Nat.zero_lt_succ 11, ?_⟩
  intro lane _ h
  rw [reserve, if_neg (by decide), inUse_markUsed _ (by decide)] at h
  simp [inUse] at h

theorem Spread.of_inUse {a b : LaneAllocator} (h : a.Spread) (hColors : b.colors = a.colors)
    (hUse : ∀ lane, b.inUse lane = true → a.inUse lane = true) : b.Spread := by
  refine ⟨hColors ▸ h.trunk, hColors ▸ h.palette, ?_⟩
  intro lane hLane hNext
  rw [hColors]
  exact h.apart lane (hLane.imp_right (hUse lane)) (hUse _ hNext)

theorem colors_seed (a : LaneAllocator) {lane : Nat} (hLane : lane < kMaxLanes) (oid : ObjectId) :
    (a.seed lane oid).colors = Function.update a.colors lane
      (colorForSeed lane oid (a.sideColors lane (-1)) (a.sideColors lane 1)) := by
  rw [seed, isOverflow_eq_false.mpr hLane, if_neg (by decide)]

@[simp] theorem seed_overflow (a : LaneAllocator) (oid : ObjectId) : a.seed kOverflowLane oid = a := rfl

theorem sideColors_left (a : LaneAllocator) {lane : Nat} (hLane : lane < kMaxLanes)
    (hUse : a.inUse lane = true) : a.sideColors (lane + 1) (-1) 0 = some (a.colors lane) := by
  have hIndex : ((lane + 1 : Nat) : Int) + -1 * (((0 : Nat) : Int) + 1) = lane := by omega
  have hMax : ((kMaxLanes : Nat) : Int) = 48 := rfl
  have hLane' : lane < 48 := hLane
  rw [sideColors, neighborColor, hIndex]
  rw [if_neg (by omega), Int.toNat_natCast, if_pos hUse]

theorem sideColors_right (a : LaneAllocator) {lane : Nat} (hUse : a.inUse (lane + 1) = true) :
    a.sideColors lane 1 0 = some (a.colors (lane + 1)) := by
  have hIndex : (lane : Int) + 1 * (((0 : Nat) : Int) + 1) = ((lane + 1 : Nat) : Int) := by omega
  have hMax : ((kMaxLanes : Nat) : Int) = 48 := rfl
  have hLane : lane + 1 < 48 := inUse_lt hUse
  rw [sideColors, neighborColor, hIndex]
  rw [if_neg (by omega), Int.toNat_natCast, if_pos hUse]

theorem sideColors_lt {a : LaneAllocator} (h : ∀ lane, (a.colors lane).toNat < kPaletteSize)
    (lane : Nat) (direction : Int) (i : Nat) :
    ∀ c ∈ a.sideColors lane direction i, c.toNat < kPaletteSize := by
  intro c hc
  rw [sideColors, neighborColor] at hc
  split at hc
  · cases hc
  · split at hc
    · rw [← Option.some.inj hc]
      exact h _
    · cases hc

/-- A seeded lane keeps its neighbours apart, provided the lane left of it is drawn. -/
theorem Spread.seed {a b : LaneAllocator} (h : a.Spread) {lane : Nat} (oid : ObjectId)
    (hSame : b.colors = a.colors) (hUse : ∀ l, b.inUse l = true → a.inUse l = true ∨ l = lane)
    (hLeft : lane < kMaxLanes → lane ≠ 0 → b.inUse (lane - 1) = true) (hLane : lane < kMaxLanes) :
    (b.seed lane oid).Spread := by
  have hColors := colors_seed b hLane oid
  have hPalette : ∀ l, (b.colors l).toNat < kPaletteSize := hSame ▸ h.palette
  generalize hNew : colorForSeed lane oid (b.sideColors lane (-1)) (b.sideColors lane 1) = new
    at hColors
  have hTrunk : lane = 0 → new = 0 := by
    rintro rfl
    rw [← hNew, colorForSeed, if_pos rfl]
  have hFar (hZero : lane ≠ 0) := hNew ▸ colorForSeed_far hZero oid
    (sideColors_lt hPalette lane (-1) 0) (sideColors_lt hPalette lane 1 0)
  constructor
  · rw [hColors]
    rcases Decidable.eq_or_ne lane 0 with rfl | hZero
    · rw [Function.update_self, hTrunk rfl]
    · rw [Function.update_of_ne (Ne.symm hZero), hSame, h.trunk]
  · intro l
    rw [hColors, Function.update_apply]
    split
    · exact hNew ▸ colorForSeed_lt ..
    · exact hPalette l
  · intro l hl hNext
    rw [inUse_seed] at hl hNext
    rw [hColors, Function.update_apply, Function.update_apply]
    split
    next hHere =>
      subst hHere
      rw [if_neg (by omega)]
      rcases Decidable.eq_or_ne l 0 with rfl | hZero
      · rw [hTrunk rfl, hSame, ← h.trunk]
        exact h.apart 0 (Or.inl rfl) ((hUse _ hNext).resolve_right (by omega))
      · exact (hFar hZero).2 _ (sideColors_right b hNext)
    next hOther =>
      split
      next hHere =>
        subst hHere
        rw [colorDistance_comm]
        exact (hFar (by omega)).1 _ (sideColors_left b (by omega) (hLeft hLane (by omega)))
      next hOther' =>
        rw [hSame]
        exact h.apart l (hl.imp_right fun hl => (hUse l hl).resolve_right hOther)
          ((hUse _ hNext).resolve_right hOther')

/-- A lane handed out by the allocator and seeded keeps its neighbours apart, when the lane
before the range is drawn. -/
theorem Spread.allocated {a lanes : LaneAllocator} (h : a.Spread) {start lane : Nat}
    (hAlloc : Allocated a start (lane, lanes)) (oid : ObjectId)
    (hStart : start ≤ lane → lane < kMaxLanes → start ≠ 0 → a.inUse (start - 1) = true) :
    (lanes.seed lane oid).Spread := by
  cases hAlloc with
  | overflow =>
    rw [seed_overflow]
    exact h
  | free _ hFrom hLane _ hBelow =>
    refine h.seed oid rfl ?_ ?_ hLane
    · intro l hl
      rw [inUse_markUsed _ hLane, Bool.or_eq_true, decide_eq_true_eq, eq_comm (a := lane)] at hl
      exact hl
    · intro _ hZero
      rw [inUse_markUsed _ hLane, Bool.or_eq_true]
      rcases Nat.eq_or_lt_of_le hFrom with hEq | hLt
      · rw [← hEq] at hZero ⊢
        exact Or.inl (hStart hFrom hLane hZero)
      · exact Or.inl (hBelow _ (by omega) (by omega))

/-- Only a free lane takes a new colour. -/
theorem Allocated.colors {a lanes : LaneAllocator} {start lane : Nat}
    (hAlloc : Allocated a start (lane, lanes)) (oid : ObjectId) {l : Nat} (hUse : a.inUse l = true) :
    (lanes.seed lane oid).colors l = a.colors l ∧ (lanes.seed lane oid).inUse l = true := by
  cases hAlloc with
  | overflow =>
    rw [seed_overflow]
    exact ⟨rfl, hUse⟩
  | free _ _ hLane hFree _ =>
    have hne : l ≠ lane := by
      rintro rfl
      rw [hUse] at hFree
      cases hFree
    rw [colors_seed _ hLane, Function.update_of_ne hne, inUse_seed, inUse_markUsed _ hLane, hUse]
    exact ⟨rfl, rfl⟩

theorem Allocated.inUse {a lanes : LaneAllocator} {start lane : Nat}
    (hAlloc : Allocated a start (lane, lanes)) (oid : ObjectId) (hLane : lane < kMaxLanes) :
    (lanes.seed lane oid).inUse lane = true := by
  cases hAlloc with
  | overflow => exact absurd hLane (Nat.lt_irrefl _)
  | free => simp [inUse_markUsed _ hLane]

end LaneAllocator

end GitBranchManager
