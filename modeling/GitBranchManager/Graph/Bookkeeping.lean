import GitBranchManager.Graph.Columns
import GitBranchManager.Graph.TrunkLane

/-! # Columns are neither leaked nor stolen

The columns in use are those with pending edges and the reserved trunk column. The high-water
mark lies right of every lane handed out, and a walk that emitted every parent it had promised
has no column left.
-/

namespace GitBranchManager

open Library.Waiting LaneAllocator

namespace LaneAllocator

/-- A lane below the high-water mark, or the shared overflow lane. -/
def Counted (a : LaneAllocator) (lane : Nat) : Prop := lane < a.highWater ∨ lane = kOverflowLane

theorem Counted.mono {a a' : LaneAllocator} {lane : Nat} (h : a.Counted lane)
    (hHigh : a.highWater ≤ a'.highWater) : a'.Counted lane :=
  h.imp_left fun hLane => Nat.lt_of_lt_of_le hLane hHigh

/-- No bit from the overflow lane on is set. -/
def Within (a : LaneAllocator) : Prop := ∀ lane, a.used.getLsbD lane = true → lane < kMaxLanes

theorem Within.mono {a a' : LaneAllocator} (h : a.Within)
    (hUsed : ∀ lane, a'.used.getLsbD lane = true → a.used.getLsbD lane = true) : a'.Within :=
  fun lane hLane => h lane (hUsed lane hLane)

theorem Within.markUsed {a : LaneAllocator} (h : a.Within) {lane : Nat} (hLane : lane < kMaxLanes) :
    (a.markUsed lane).Within := by
  intro l hl
  rw [LaneAllocator.markUsed, BitVec.getLsbD_or, getLsbD_bit (Nat.lt_trans hLane (by decide)),
    Bool.or_eq_true, decide_eq_true_eq] at hl
  rcases hl with hl | rfl
  · exact h l hl
  · exact hLane

theorem Within.inUse {a : LaneAllocator} (h : a.Within) (lane : Nat) :
    a.used.getLsbD lane = a.inUse lane := by
  rcases Nat.lt_or_ge lane kMaxLanes with hLane | hLane
  · exact (inUse_eq_getLsbD a hLane).symm
  · rw [LaneAllocator.inUse, isOverflow_eq_true.mpr hLane, Bool.not_true, Bool.false_and,
      Bool.eq_false_iff]
    exact fun hUse => absurd (h lane hUse) (Nat.not_lt.mpr hLane)

theorem highWater_markUsed (a : LaneAllocator) (lane : Nat) :
    a.highWater ≤ (a.markUsed lane).highWater ∧ lane < (a.markUsed lane).highWater := by
  simp only [markUsed]
  split <;> omega

@[simp] theorem highWater_seed (a : LaneAllocator) (lane : Nat) (oid : ObjectId) :
    (a.seed lane oid).highWater = a.highWater := by
  rw [seed]
  split <;> rfl

theorem Allocated.counted {a lanes : LaneAllocator} {start lane : Nat}
    (h : Allocated a start (lane, lanes)) :
    a.highWater ≤ lanes.highWater ∧ lanes.Counted lane ∧ (a.Within → lanes.Within) := by
  cases h with
  | overflow => exact ⟨Nat.le_refl _, Or.inr rfl, id⟩
  | free _ _ hLane _ =>
    obtain ⟨hHigh, hLt⟩ := highWater_markUsed a lane
    exact ⟨hHigh, Or.inl hLt, fun h => h.markUsed hLane⟩

end LaneAllocator

namespace GraphBuilder

structure LanesCounted (b : GraphBuilder) : Prop where
  within : b.lanes.Within
  trunk : b.options.trunkTip.isNull = false → 0 < b.lanes.highWater
  pending : ∀ item ∈ b.pending, b.lanes.Counted item.2.lane
  rows : ∀ m ∈ b.built.rows, b.lanes.Counted m.lane

theorem LanesCounted.relane {b : GraphBuilder} (h : b.LanesCounted) {lanes : LaneAllocator}
    (hHigh : b.lanes.highWater ≤ lanes.highWater) (hWithin : lanes.Within) :
    ({ b with lanes } : GraphBuilder).LanesCounted where
  within := hWithin
  trunk := fun hTip => Nat.lt_of_lt_of_le (h.trunk hTip) hHigh
  pending := fun item hItem => (h.pending item hItem).mono hHigh
  rows := fun m hm => (h.rows m hm).mono hHigh

theorem lanesCounted_new (options : GraphOptions) : (new options).LanesCounted := by
  refine ⟨?_, ?_, fun _ h => absurd h List.not_mem_nil, fun _ h => absurd h List.not_mem_nil⟩
  · rw [new]
    dsimp only
    split
    · intro lane hLane
      simp at hLane
    · rw [reserve, if_neg (by decide)]
      exact Within.markUsed (fun lane hLane => by simp at hLane) (by decide)
  · intro hTip
    change options.trunkTip.isNull = false at hTip
    rw [new]
    dsimp only
    rw [hTip, if_neg (by decide), reserve, if_neg (by decide)]
    exact (highWater_markUsed _ 0).2

theorem LanesCounted.occupied {b : GraphBuilder} (h : b.LanesCounted) {oid : ObjectId} {lane : Nat}
    {lanes : LaneAllocator} (hOccupied : Occupied b oid (lane, lanes)) :
    b.lanes.highWater ≤ lanes.highWater ∧ lanes.Within ∧ lanes.Counted lane := by
  cases hOccupied with
  | trunk hTrunk =>
    rw [highWater_seed]
    refine ⟨Nat.le_refl _, h.within.mono fun l hl => by rwa [used_seed] at hl, Or.inl ?_⟩
    rw [highWater_seed]
    exact h.trunk (isTrunkTip_eq_true.mp hTrunk).1
  | tip _ lanes _ _ hAlloc =>
    obtain ⟨hHigh, hCounted, hWithin⟩ := hAlloc.counted
    rw [highWater_seed]
    exact ⟨hHigh, (hWithin h.within).mono fun l hl => by rwa [used_seed] at hl,
      hCounted.mono (highWater_seed lanes lane oid).ge⟩
  | chosen _ hSome =>
    obtain ⟨edge, hEdge, hLane⟩ := chooseLane_mem hSome
    exact ⟨Nat.le_refl _, h.within, hLane ▸ h.pending _ (mem_waiting.mp hEdge)⟩

theorem LanesCounted.arrive {b : GraphBuilder} (h : b.LanesCounted) (commit : Commit) {lane : Nat}
    {lanes : LaneAllocator} (hHigh : b.lanes.highWater ≤ lanes.highWater) (hWithin : lanes.Within)
    (hLane : lanes.Counted lane) : (b.arrive commit lane lanes).LanesCounted := by
  obtain ⟨row, hRow, hRows⟩ := rows_arrive b commit lane lanes
  obtain ⟨used, hLanes, hUsed⟩ := lanes_arrive b commit lane lanes
  have hSame : (b.arrive commit lane lanes).lanes.highWater = lanes.highWater := by rw [hLanes]
  have keep {l : Nat} (hl : b.lanes.Counted l) : (b.arrive commit lane lanes).lanes.Counted l :=
    hl.mono (hSame ▸ hHigh)
  constructor
  · rw [hLanes]
    exact hWithin.mono hUsed
  · intro hTip
    rw [options_arrive] at hTip
    rw [hSame]
    exact Nat.lt_of_lt_of_le (h.trunk hTip) hHigh
  · intro item hItem
    rw [pending_arrive] at hItem
    exact keep (h.pending item (mem_discard.mp hItem).1)
  · intro m hm
    rw [hRows, List.mem_append, List.mem_singleton] at hm
    rcases hm with hm | rfl
    · exact keep (h.rows m hm)
    · exact hRow ▸ hLane.mono hSame.ge

theorem LanesCounted.connect {b : GraphBuilder} (h : b.LanesCounted) (parent : ObjectId)
    (row childLane : Nat) {lane : Nat} (color : UInt8) (kind : EdgeKind) (index : Nat) (first : Bool)
    (hLane : b.lanes.Counted lane) :
    (b.connect parent row childLane lane color kind index first).LanesCounted := by
  refine ⟨h.within, h.trunk, ?_, h.rows⟩
  intro item hItem
  rw [pending_connect, List.mem_append, List.mem_singleton] at hItem
  rcases hItem with hItem | rfl
  · exact h.pending item hItem
  · exact hLane

theorem LanesCounted.connectMerged {b : GraphBuilder} (h : b.LanesCounted) (row lane : Nat)
    (kind : EdgeKind) (parent : ObjectId) (index : Nat) :
    (b.connectMerged row lane kind parent index).LanesCounted := by
  have hRoute := route_routed b lane parent
  rw [GraphBuilder.connectMerged]
  generalize b.route lane parent = routed at hRoute ⊢
  cases hRoute with
  | joined edge hMem =>
    exact h.connect parent row lane _ kind index false (h.pending _ (mem_waiting.mp hMem))
  | opened target lanes _ hAlloc =>
    obtain ⟨hHigh, hCounted, hWithin⟩ := hAlloc.counted
    have hSeed : (lanes.seed target parent).highWater = lanes.highWater := highWater_seed ..
    have h' := h.relane (hSeed ▸ hHigh)
      ((hWithin h.within).mono fun l hl => by rwa [used_seed] at hl)
    exact h'.connect parent row lane _ kind index false (hCounted.mono hSeed.ge)

theorem LanesCounted.releaseIfEnded {b : GraphBuilder} (h : b.LanesCounted) (lane : Nat) :
    (b.releaseIfEnded lane).LanesCounted := by
  obtain ⟨used, hLanes, hUsed⟩ := lanes_releaseIfEnded b lane
  rw [releaseIfEnded_eq, hLanes]
  exact h.relane (Nat.le_refl _) (h.within.mono hUsed)

theorem LanesCounted.emit {b : GraphBuilder} (h : b.LanesCounted) (commit : Commit) :
    (b.emit commit).LanesCounted ∧ (b.emit commit).built.laneCount = (b.emit commit).lanes.highWater := by
  obtain ⟨lane, lanes, hOccupied, hEmit⟩ := emit_eq b commit
  obtain ⟨hHigh, hWithin, hLane⟩ := h.occupied hOccupied
  obtain ⟨used, hLanes, -⟩ := lanes_arrive b commit lane lanes
  have hArrive := h.arrive commit hHigh hWithin hLane
  have hArrived : (b.arrive commit lane lanes).lanes.Counted lane := by
    rw [hLanes]
    exact hLane
  have hDescend : ∀ row color offset,
      ((b.arrive commit lane lanes).descend row lane color offset commit.parents).LanesCounted := by
    intro row color offset
    refine descend_induction (motive := LanesCounted) ?_ ?_ ?_
    · exact fun _ => hArrive.releaseIfEnded lane
    · exact fun parent _ => hArrive.connect parent row lane color .firstParent offset true hArrived
    · exact fun _ kind parent index _ hb => hb.connectMerged row lane kind parent index
  rw [hEmit]
  have h' := hDescend b.built.rows.length (lanes.colorOf lane) b.built.parentPool.length
  exact ⟨⟨h'.within, h'.trunk, h'.pending, h'.rows⟩, rfl⟩

theorem lanesCounted_walk (options : GraphOptions) (commits : List Commit) :
    (walk options commits).LanesCounted ∧ ∀ m ∈ (walk options commits).built.rows,
      m.lane < (walk options commits).built.laneCount ∨ m.lane = kOverflowLane :=
  walk_induction (motive := fun _ b => b.LanesCounted ∧
      ∀ m ∈ b.built.rows, m.lane < b.built.laneCount ∨ m.lane = kOverflowLane) options commits
    ⟨lanesCounted_new options, fun _ h => absurd h List.not_mem_nil⟩
    (fun _ _ h => ⟨⟨h.1.within, h.1.trunk, h.1.pending, h.1.rows⟩, h.2⟩)
    fun _ commit _ _ _ _ _ _ h => by
      obtain ⟨hCounted, hCount⟩ := h.1.emit commit
      refine ⟨hCounted, fun m hm => ?_⟩
      rw [hCount]
      exact hCounted.rows m hm

theorem key_mem_pending_descend {b : GraphBuilder} {row lane : Nat} {color : UInt8}
    {parentOffset : Nat} {parents : List ObjectId} {item : ObjectId × PendingEdge}
    (h : item ∈ (b.descend row lane color parentOffset parents).pending) :
    item ∈ b.pending ∨ item.1 ∈ parents := by
  revert h
  refine descend_steps (motive := fun _ b' => item ∈ b'.pending → item ∈ b.pending ∨ item.1 ∈ parents)
    ?_ ?_ ?_
  · intro _ h
    rw [releaseIfEnded_eq] at h
    exact Or.inl h
  · intro parent hParent h
    rw [connectFirst, pending_connect, List.mem_append, List.mem_singleton] at h
    rcases h with h | rfl
    · exact Or.inl h
    · exact Or.inr (List.mem_of_mem_head? hParent)
  · intro i b' kind parent _ _ hParent hb h
    rw [connectMerged, pending_connect, List.mem_append, List.mem_singleton] at h
    rcases h with h | rfl
    · exact hb h
    · exact Or.inr (List.mem_of_getElem? hParent)

/-- Where no parent is emitted before its child, a pending edge waits for a parent that is yet
to come. -/
theorem pending_walk {options : GraphOptions} {commits : List Commit}
    (hOrder : ChildrenFirst (commits.take options.maxRows.toNat)) :
    ∀ item ∈ (walk options commits).pending, (∃ child ∈ commits.take options.maxRows.toNat,
      item.1 ∈ child.parents) ∧ item.1 ∉ (commits.take options.maxRows.toNat).map Commit.oid := by
  suffices h : ∀ emitted, emitted = commits.take options.maxRows.toNat → ChildrenFirst emitted →
      ∀ item ∈ (walk options commits).pending,
        (∃ child ∈ emitted, item.1 ∈ child.parents) ∧ item.1 ∉ emitted.map Commit.oid from
    h _ rfl hOrder
  rintro emitted rfl
  refine walk_induction (motive := fun done b => ChildrenFirst done → ∀ item ∈ b.pending,
    (∃ child ∈ done, item.1 ∈ child.parents) ∧ item.1 ∉ done.map Commit.oid) options commits ?_ ?_ ?_
  · exact fun _ _ h => absurd h List.not_mem_nil
  · exact fun _ _ h => h
  · intro done commit b _ _ _ _ _ h hFirst item hItem
    have hDone : ChildrenFirst done := hFirst.of_prefix (List.prefix_append done [commit])
    obtain ⟨lane, lanes, -, hEmit⟩ := emit_eq b commit
    rw [hEmit] at hItem
    rcases key_mem_pending_descend hItem with hOld | hNew
    · rw [pending_arrive, mem_discard] at hOld
      obtain ⟨⟨child, hChild, hParent⟩, hAwaited⟩ := h hDone item hOld.1
      rw [List.map_append, List.mem_append, List.map_singleton, List.mem_singleton, not_or]
      exact ⟨⟨child, List.mem_append_left _ hChild, hParent⟩, hAwaited, hOld.2⟩
    · exact ⟨⟨commit, by simp, hNew⟩, hFirst.parents_not_mem item.1 hNew⟩

/-- The columns in use are those with pending edges and the reserved trunk column, every row
stands in a counted lane, and a walk that emitted its trunk tip and, each after its children,
all the parents it met leaves no column in use. -/
theorem lanes_never_leak (options : GraphOptions) (commits : List Commit)
    (hNodup : (commits.map Commit.oid).Nodup) :
    (∀ lane < kOverflowLane, (walk options commits).laneRefCount lane =
      (walk options commits).pending.countP fun item => item.2.lane = lane) ∧
    (∀ lane, (walk options commits).lanes.used.getLsbD lane = true ↔ lane < kOverflowLane ∧
      (0 < (walk options commits).laneRefCount lane ∨ lane = 0 ∧
        options.trunkTip.isNull = false ∧ options.trunkTip ∉ (walk options commits).built.oids)) ∧
    (∀ m ∈ (walk options commits).snapshot.rows,
      m.lane < (walk options commits).snapshot.laneCount ∨ m.lane = kOverflowLane) ∧
    (ChildrenFirst (commits.take options.maxRows.toNat) →
      (∀ commit ∈ commits.take options.maxRows.toNat, ∀ parent ∈ commit.parents,
        parent ∈ (walk options commits).built.oids) →
      (options.trunkTip.isNull = false → options.trunkTip ∈ (walk options commits).built.oids) →
      (walk options commits).lanes.used = 0#64) := by
  have hColumns : (walk options commits).Columns none := columns_walk hNodup
  obtain ⟨hCounted, hRows⟩ := lanesCounted_walk options commits
  have hOptions := options_walk options commits
  have hUsed : ∀ lane, (walk options commits).lanes.used.getLsbD lane = true ↔
      lane < kOverflowLane ∧ (0 < (walk options commits).laneRefCount lane ∨ lane = 0 ∧
        options.trunkTip.isNull = false ∧ options.trunkTip ∉ (walk options commits).built.oids) := by
    intro lane
    rw [hCounted.within.inUse]
    constructor
    · intro hUse
      have hLane := inUse_lt hUse
      have h := (hColumns.inUse lane hLane).mp hUse
      rw [← hColumns.refCount lane hLane, Reserved, hOptions] at h
      exact ⟨hLane, by simpa using h⟩
    · rintro ⟨hLane, h⟩
      rw [hColumns.inUse lane hLane, ← hColumns.refCount lane hLane, Reserved, hOptions]
      simpa using h
  refine ⟨hColumns.refCount, hUsed, hRows, ?_⟩
  intro hOrder hParents hTrunk
  have hPending : (walk options commits).pending = [] := by
    rw [List.eq_nil_iff_forall_not_mem]
    intro item hItem
    obtain ⟨⟨child, hChild, hParent⟩, hMissing⟩ := pending_walk hOrder item hItem
    rw [← oids_walk] at hMissing
    exact hMissing (hParents child hChild item.1 hParent)
  apply BitVec.eq_of_getLsbD_eq
  intro lane _
  rw [BitVec.getLsbD_zero, Bool.eq_false_iff, Ne, hUsed lane]
  rintro ⟨hLane, hCount | ⟨-, hTip, hMissing⟩⟩
  · rw [hColumns.refCount lane hLane, hPending] at hCount
    exact absurd hCount (Nat.lt_irrefl 0)
  · exact hMissing (hTrunk hTip)

theorem lanes_never_leak_forked : (walk forkedOptions forkedCommits).lanes.used = 0#64 :=
  (lanes_never_leak forkedOptions forkedCommits (by decide)).2.2.2 (by decide) (by decide +kernel)
    (by decide +kernel)

/-- A parent listed above its child is emitted, yet the child's edge waits for it; and a trunk
tip that is never emitted keeps its column. -/
theorem lane_in_use_after_all_parents :
    (([{ oid := .replicate 1 }, { oid := .replicate 2, parents := [.replicate 1] }] :
        List Commit).map Commit.oid).Nodup ∧
    (walk {} [{ oid := .replicate 1 }, { oid := .replicate 2, parents := [.replicate 1] }]).built.oids =
      [.replicate 1, .replicate 2] ∧
    (walk {} [{ oid := .replicate 1 },
      { oid := .replicate 2, parents := [.replicate 1] }]).lanes.inUse 0 = true ∧
    (walk forkedOptions [{ oid := .replicate 1 }]).lanes.inUse 0 = true := by
  decide +kernel

end GraphBuilder

end GitBranchManager
